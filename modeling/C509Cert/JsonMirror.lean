/-
The JSON mirror of the data model (the derived `Serialize` and `Deserialize`).

Every struct and enumeration is described by its derive and the attributes on its fields:
members and tags have the names of the source, and where a field names helpers of
`serde_util`, the description does.  A type parameter brings its own mirror, so the bytes of
an attribute under an OID, which no attribute mentions, are an array of numbers.

The mirror of a type inverts where those of its parts do, so a certificate does.
-/
import C509Cert.SerdeUtil
import C509Cert.Certificate
import C509Cert.RoundTrip

namespace C509

open Cbor Serde SerdeUtil Mirror

namespace JsonMirror

/-! ### Integers -/

def u8 : Mirror UInt8 :=
  .integer (fun n => n.toNat) fun v =>
    if 0 ≤ v ∧ v < 2 ^ 8 then some (UInt8.ofNat v.toNat) else none

def u16 : Mirror UInt16 :=
  .integer (fun n => n.toNat) fun v =>
    if 0 ≤ v ∧ v < 2 ^ 16 then some (UInt16.ofNat v.toNat) else none

def u32 : Mirror UInt32 :=
  .integer (fun n => n.toNat) fun v =>
    if 0 ≤ v ∧ v < 2 ^ 32 then some (UInt32.ofNat v.toNat) else none

def u64 : Mirror UInt64 := .integer (fun n => n.toNat) u64TryFrom

def i32 : Mirror Int32 :=
  .integer Int32.toInt fun v =>
    if -2 ^ 31 ≤ v ∧ v < 2 ^ 31 then some (Int32.ofInt v) else none

theorem inverts_u8 : u8.Inverts := inverts_integer fun n => by
  have hn := n.toNat_lt
  rw [if_pos (by omega), Int.toNat_natCast, UInt8.ofNat_toNat]

theorem inverts_u16 : u16.Inverts := inverts_integer fun n => by
  have hn := n.toNat_lt
  rw [if_pos (by omega), Int.toNat_natCast, UInt16.ofNat_toNat]

theorem inverts_u32 : u32.Inverts := inverts_integer fun n => by
  have hn := n.toNat_lt
  rw [if_pos (by omega), Int.toNat_natCast, UInt32.ofNat_toNat]

theorem inverts_u64 : u64.Inverts := inverts_integer fun n => by
  have hn := n.toNat_lt
  rw [u64TryFrom, if_pos (by omega), Int.toNat_natCast, UInt64.ofNat_toNat]

theorem inverts_i32 : i32.Inverts := inverts_integer fun n => by
  rw [if_pos ⟨n.le_toInt, n.toInt_lt⟩, Int32.ofInt_toInt]

/-- No integer is `null`. -/
theorem integer_ne_null {α : Type} {toInt : α → Int} {tryFrom : Int → Option α} (a : α) :
    (integer toInt tryFrom).serialize a ≠ some .null := by
  rintro ⟨⟩

/-- No sequence is `null`. -/
theorem list_ne_null {α : Type} {m : Mirror α} (l : List α) :
    m.list.serialize l ≠ some .null := by
  intro h
  obtain ⟨js, -, hjs⟩ := Option.map_eq_some_iff.mp h
  cases hjs

variable [TextCrates]

/-! ### Algorithms, OIDs, names -/

def algorithmOid : Fields (ObjectIdentifier × Option Bytes) (ObjectIdentifier × Option Bytes) :=
  Fields.build Prod.mk
    |>.field "algorithm" Prod.fst oidStr
    |>.field "parameters" Prod.snd
        ⟨SerdeUtil.hexBytes.serializeOpt, SerdeUtil.hexBytes.deserializeOpt⟩

def algorithmIdentifier : Mirror AlgorithmIdentifier :=
  .enum
    (fun
      | .int n => tagged "Int" i32 n
      | .oid algorithm parameters => tagged "Oid" (.struct algorithmOid) (algorithm, parameters))
    (fun
      | "Int" => readTagged i32 .int
      | "Oid" => readTagged (.struct algorithmOid) fun p => .oid p.1 p.2
      | _ => fun _ => none)

def intOrOid : Mirror IntOrOid :=
  .enum
    (fun
      | .int n => tagged "Int" i32 n
      | .oid o => tagged "Oid" oidStr o)
    (fun
      | "Int" => readTagged i32 .int
      | "Oid" => readTagged oidStr .oid
      | _ => fun _ => none)

def specialText : Mirror SpecialText :=
  .enum
    (fun
      | .text s => tagged "Text" string s
      | .bytes b => tagged "Bytes" SerdeUtil.hexBytes b
      | .mac m => tagged "Mac" macAddr m)
    (fun
      | "Text" => readTagged string .text
      | "Bytes" => readTagged SerdeUtil.hexBytes .bytes
      | "Mac" => readTagged macAddr .mac
      | _ => fun _ => none)

section RdnAttr

variable {S B : Type} (s : Mirror S) (b : Mirror B)

def registered : Fields (UInt16 × Bool × S) (UInt16 × Bool × S) :=
  Fields.build (fun id printableString value => (id, printableString, value))
    |>.field "id" (·.1) u16
    |>.field "printable_string" (·.2.1) bool
    |>.field "value" (·.2.2) s

def underOid : Fields (ObjectIdentifier × B) (ObjectIdentifier × B) :=
  Fields.build Prod.mk
    |>.field "oid" Prod.fst oidStr
    |>.field "value" Prod.snd b

def rdnAttr : Mirror (RdnAttr S B) :=
  .enum
    (fun
      | .registered id printableString value =>
          tagged "Registered" (.struct (registered s)) (id, printableString, value)
      | .oid o value => tagged "Oid" (.struct (underOid b)) (o, value))
    (fun
      | "Registered" => readTagged (.struct (registered s)) fun p => .registered p.1 p.2.1 p.2.2
      | "Oid" => readTagged (.struct (underOid b)) fun p => .oid p.1 p.2
      | _ => fun _ => none)

end RdnAttr

def name : Mirror Name :=
  .newtype Name.attrs Name.mk (Mirror.list (rdnAttr specialText (Mirror.list u8)))

def subjectDirectoryAttributes : Mirror SubjectDirectoryAttributes :=
  .newtype SubjectDirectoryAttributes.attrs SubjectDirectoryAttributes.mk
    (Mirror.list (rdnAttr (Mirror.list specialText) (Mirror.list (Mirror.list u8))))

/-! ### General names -/

def otherName : Fields (ObjectIdentifier × Bytes) (ObjectIdentifier × Bytes) :=
  Fields.build Prod.mk
    |>.field "type_id" Prod.fst oidStr
    |>.field "value" Prod.snd SerdeUtil.hexBytes

def hardwareModuleName : Fields (ObjectIdentifier × Bytes) (ObjectIdentifier × Bytes) :=
  Fields.build Prod.mk
    |>.field "hw_type" Prod.fst oidStr
    |>.field "hw_serial_num" Prod.snd SerdeUtil.hexBytes

def generalNameValue : Mirror GeneralNameValue :=
  .enum
    (fun
      | .otherName typeId value => tagged "OtherName" (.struct otherName) (typeId, value)
      | .hardwareModuleName hwType hwSerialNum =>
          tagged "HardwareModuleName" (.struct hardwareModuleName) (hwType, hwSerialNum)
      | .smtpUtf8Mailbox s => tagged "SmtpUtf8Mailbox" string s
      | .macAddress mac => tagged "MacAddress" macAddr mac
      | .rfc822Name s => tagged "Rfc822Name" string s
      | .dnsName s => tagged "DnsName" string s
      | .directoryName n => tagged "DirectoryName" name n
      | .uri s => tagged "Uri" string s
      | .ipAddress b => tagged "IpAddress" SerdeUtil.hexBytes b
      | .registeredId o => tagged "RegisteredId" oidStr o
      | .raw item => tagged "Raw" SerdeUtil.hexBytes item)
    (fun
      | "OtherName" => readTagged (.struct otherName) fun p => .otherName p.1 p.2
      | "HardwareModuleName" =>
          readTagged (.struct hardwareModuleName) fun p => .hardwareModuleName p.1 p.2
      | "SmtpUtf8Mailbox" => readTagged string .smtpUtf8Mailbox
      | "MacAddress" => readTagged macAddr .macAddress
      | "Rfc822Name" => readTagged string .rfc822Name
      | "DnsName" => readTagged string .dnsName
      | "DirectoryName" => readTagged name .directoryName
      | "Uri" => readTagged string .uri
      | "IpAddress" => readTagged SerdeUtil.hexBytes .ipAddress
      | "RegisteredId" => readTagged oidStr .registeredId
      | "Raw" => readTagged SerdeUtil.hexBytes .raw
      | _ => fun _ => none)

def generalName : Mirror GeneralName :=
  .struct <| Fields.build GeneralName.mk
    |>.field "kind" GeneralName.kind i32
    |>.field "value" GeneralName.value generalNameValue

def authorityKeyIdentifier : Mirror AuthorityKeyIdentifier :=
  .struct <| Fields.build AuthorityKeyIdentifier.mk
    |>.field "key_identifier" AuthorityKeyIdentifier.keyIdentifier SerdeUtil.hexBytes
    |>.optional "cert_issuer" AuthorityKeyIdentifier.certIssuer (Mirror.list generalName)
    |>.field "cert_serial" AuthorityKeyIdentifier.certSerial
        ⟨biguintHex.serializeOpt, biguintHex.deserializeOpt⟩

def nameConstraints : Mirror NameConstraints :=
  .struct <| Fields.build NameConstraints.mk
    |>.optional "permitted" NameConstraints.permitted (Mirror.list generalName)
    |>.optional "excluded" NameConstraints.excluded (Mirror.list generalName)

/-! ### The smaller extension values -/

def pathLen : Fields (Option UInt32) (Option UInt32) :=
  Fields.build id |>.optional "path_len" id u32

def basicConstraints : Mirror BasicConstraints :=
  .enum
    (fun
      | .notCa => unit "NotCa"
      | .ca n => tagged "Ca" (.struct pathLen) n)
    (fun
      | "NotCa" => readUnit .notCa
      | "Ca" => readTagged (.struct pathLen) .ca
      | _ => fun _ => none)

def extKeyUsage : Mirror ExtKeyUsage :=
  .newtype ExtKeyUsage.purposes ExtKeyUsage.mk (Mirror.list intOrOid)

def accessDescription : Mirror AccessDescription :=
  .struct <| Fields.build AccessDescription.mk
    |>.field "access_method" AccessDescription.accessMethod intOrOid
    |>.field "uri" AccessDescription.uri string

def distributionPointName : Mirror DistributionPointName :=
  .struct <| Fields.build DistributionPointName.mk
    |>.field "full_name" DistributionPointName.fullName (Mirror.list string)
    |>.optional "reasons" DistributionPointName.reasons u32
    |>.optional "crl_issuer" DistributionPointName.crlIssuer name

def policyQualifierInfo : Mirror PolicyQualifierInfo :=
  .struct <| Fields.build PolicyQualifierInfo.mk
    |>.field "id" PolicyQualifierInfo.id intOrOid
    |>.field "qualifier" PolicyQualifierInfo.qualifier string

def certificatePolicies : Mirror CertificatePolicies :=
  .newtype CertificatePolicies.policies CertificatePolicies.mk
    (Mirror.list (intOrOid.pair (Mirror.list policyQualifierInfo)))

def policyConstraints : Mirror PolicyConstraints :=
  .struct <| Fields.build PolicyConstraints.mk
    |>.optional "require_explicit_policy" PolicyConstraints.requireExplicitPolicy u32
    |>.optional "inhibit_policy_mapping" PolicyConstraints.inhibitPolicyMapping u32

def policyMappings : Mirror PolicyMappings :=
  .newtype PolicyMappings.mappings PolicyMappings.mk (Mirror.list (intOrOid.pair intOrOid))

/-! ### Address blocks and AS identifiers -/

def addressRange : Fields (IpAddr × IpAddr) (IpAddr × IpAddr) :=
  Fields.build Prod.mk
    |>.field "min" Prod.fst ipAddr
    |>.field "max" Prod.snd ipAddr

def ipAddressOrRange : Mirror IpAddressOrRange :=
  .enum
    (fun
      | .addressPrefix net => tagged "Prefix" ipNet net
      | .range min max => tagged "Range" (.struct addressRange) (min, max))
    (fun
      | "Prefix" => readTagged ipNet .addressPrefix
      | "Range" => readTagged (.struct addressRange) fun p => .range p.1 p.2
      | _ => fun _ => none)

def ipAddressChoice : Mirror IpAddressChoice :=
  .enum
    (fun
      | .inherit => unit "Inherit"
      | .prefixes entries => tagged "Prefixes" (Mirror.list ipAddressOrRange) entries)
    (fun
      | "Inherit" => readUnit .inherit
      | "Prefixes" => readTagged (Mirror.list ipAddressOrRange) .prefixes
      | _ => fun _ => none)

def ipAddressFamily : Mirror IpAddressFamily :=
  .struct <| Fields.build IpAddressFamily.mk
    |>.field "afi" IpAddressFamily.afi u16
    |>.optional "safi" IpAddressFamily.safi u16
    |>.field "choice" IpAddressFamily.choice ipAddressChoice

def asRange : Fields (UInt64 × UInt64) (UInt64 × UInt64) :=
  Fields.build Prod.mk
    |>.field "min" Prod.fst u64
    |>.field "max" Prod.snd u64

def asIdOrRange : Mirror AsIdOrRange :=
  .enum
    (fun
      | .id n => tagged "Id" u64 n
      | .range min max => tagged "Range" (.struct asRange) (min, max))
    (fun
      | "Id" => readTagged u64 .id
      | "Range" => readTagged (.struct asRange) fun p => .range p.1 p.2
      | _ => fun _ => none)

/-! ### Extensions and certificates -/

def extensionValue : Mirror ExtensionValue :=
  .enum
    (fun
      | .subjectKeyIdentifier b => tagged "SubjectKeyIdentifier" SerdeUtil.hexBytes b
      | .keyUsage n => tagged "KeyUsage" u32 n
      | .subjectAltName names => tagged "SubjectAltName" (Mirror.list generalName) names
      | .basicConstraints bc => tagged "BasicConstraints" basicConstraints bc
      | .crlDistributionPoints dp =>
          tagged "CrlDistributionPoints" (Mirror.list distributionPointName) dp
      | .certificatePolicies v => tagged "CertificatePolicies" certificatePolicies v
      | .authorityKeyIdentifier v => tagged "AuthorityKeyIdentifier" authorityKeyIdentifier v
      | .extKeyUsage v => tagged "ExtKeyUsage" extKeyUsage v
      | .authorityInfoAccess v => tagged "AuthorityInfoAccess" (Mirror.list accessDescription) v
      | .subjectDirectoryAttributes v =>
          tagged "SubjectDirectoryAttributes" subjectDirectoryAttributes v
      | .issuerAltName names => tagged "IssuerAltName" (Mirror.list generalName) names
      | .nameConstraints v => tagged "NameConstraints" nameConstraints v
      | .policyMappings v => tagged "PolicyMappings" policyMappings v
      | .policyConstraints v => tagged "PolicyConstraints" policyConstraints v
      | .freshestCrl dp => tagged "FreshestCrl" (Mirror.list distributionPointName) dp
      | .inhibitAnyPolicy n => tagged "InhibitAnyPolicy" u32 n
      | .subjectInfoAccess v => tagged "SubjectInfoAccess" (Mirror.list accessDescription) v
      | .ipAddrBlocks v => tagged "IpAddrBlocks" (Mirror.list ipAddressFamily) v
      | .asIdentifiers v => tagged "AsIdentifiers" (Mirror.list asIdOrRange).option v
      | .ipAddrBlocksV2 v => tagged "IpAddrBlocksV2" (Mirror.list ipAddressFamily) v
      | .asIdentifiersV2 v => tagged "AsIdentifiersV2" (Mirror.list asIdOrRange).option v
      | .ocspNoCheck => unit "OcspNoCheck"
      | .tlsFeatures v => tagged "TlsFeatures" (Mirror.list u32) v
      | .raw b => tagged "Raw" SerdeUtil.hexBytes b)
    (fun
      | "SubjectKeyIdentifier" => readTagged SerdeUtil.hexBytes .subjectKeyIdentifier
      | "KeyUsage" => readTagged u32 .keyUsage
      | "SubjectAltName" => readTagged (Mirror.list generalName) .subjectAltName
      | "BasicConstraints" => readTagged basicConstraints .basicConstraints
      | "CrlDistributionPoints" =>
          readTagged (Mirror.list distributionPointName) .crlDistributionPoints
      | "CertificatePolicies" => readTagged certificatePolicies .certificatePolicies
      | "AuthorityKeyIdentifier" => readTagged authorityKeyIdentifier .authorityKeyIdentifier
      | "ExtKeyUsage" => readTagged extKeyUsage .extKeyUsage
      | "AuthorityInfoAccess" => readTagged (Mirror.list accessDescription) .authorityInfoAccess
      | "SubjectDirectoryAttributes" =>
          readTagged subjectDirectoryAttributes .subjectDirectoryAttributes
      | "IssuerAltName" => readTagged (Mirror.list generalName) .issuerAltName
      | "NameConstraints" => readTagged nameConstraints .nameConstraints
      | "PolicyMappings" => readTagged policyMappings .policyMappings
      | "PolicyConstraints" => readTagged policyConstraints .policyConstraints
      | "FreshestCrl" => readTagged (Mirror.list distributionPointName) .freshestCrl
      | "InhibitAnyPolicy" => readTagged u32 .inhibitAnyPolicy
      | "SubjectInfoAccess" => readTagged (Mirror.list accessDescription) .subjectInfoAccess
      | "IpAddrBlocks" => readTagged (Mirror.list ipAddressFamily) .ipAddrBlocks
      | "AsIdentifiers" => readTagged (Mirror.list asIdOrRange).option .asIdentifiers
      | "IpAddrBlocksV2" => readTagged (Mirror.list ipAddressFamily) .ipAddrBlocksV2
      | "AsIdentifiersV2" => readTagged (Mirror.list asIdOrRange).option .asIdentifiersV2
      | "OcspNoCheck" => readUnit .ocspNoCheck
      | "TlsFeatures" => readTagged (Mirror.list u32) .tlsFeatures
      | "Raw" => readTagged SerdeUtil.hexBytes .raw
      | _ => fun _ => none)

def extension : Mirror Extension :=
  .struct <| Fields.build Extension.mk
    |>.field "id" Extension.id intOrOid
    |>.field "critical" Extension.critical bool
    |>.field "value" Extension.value extensionValue

def extensions : Mirror Extensions :=
  .newtype Extensions.exts Extensions.mk (Mirror.list extension)

/-- The two times are written at the offsets from UTC they are given at. -/
def tbsCertificate (notBefore notAfter : UtcOffset) : Mirror TbsCertificate :=
  .struct <| Fields.build TbsCertificate.mk
    |>.field "c509_certificate_type" TbsCertificate.c509CertificateType i32
    |>.field "certificate_serial_number" TbsCertificate.certificateSerialNumber biguintHex
    |>.field "issuer_signature_algorithm" TbsCertificate.issuerSignatureAlgorithm
        algorithmIdentifier
    |>.optional "issuer" TbsCertificate.issuer name
    |>.field "validity_not_before" TbsCertificate.validityNotBefore (rfc3339 notBefore)
    |>.field "validity_not_after" TbsCertificate.validityNotAfter
        ⟨rfc3339.serializeOpt notAfter, rfc3339.deserializeOpt⟩
    |>.field "subject" TbsCertificate.subject name
    |>.field "subject_public_key_algorithm" TbsCertificate.subjectPublicKeyAlgorithm
        algorithmIdentifier
    |>.field "subject_public_key" TbsCertificate.subjectPublicKey SerdeUtil.hexBytes
    |>.field "extensions" TbsCertificate.extensions extensions

def c509Certificate (notBefore notAfter : UtcOffset) : Mirror C509Certificate :=
  .struct <| Fields.build C509Certificate.mk
    |>.field "tbs" C509Certificate.tbs (tbsCertificate notBefore notAfter)
    |>.field "issuer_signature_value" C509Certificate.issuerSignatureValue SerdeUtil.hexBytes

/-! ### Every mirror inverts -/

section

variable [LawfulTextCrates]

theorem inverts_algorithmIdentifier : algorithmIdentifier.Inverts := by
  have hoid : (Mirror.struct algorithmOid).Inverts :=
    ((Fields.inverts_build _).field inverts_oidStr |>.field inverts_hexBytes_opt).struct
      rfl fun _ => rfl
  intro a j h
  cases a with
  | int n => exact read_tagged inverts_i32 h rfl
  | oid algorithm parameters =>
      exact read_tagged (b := (algorithm, parameters))
        (f := fun p => AlgorithmIdentifier.oid p.1 p.2) hoid h rfl

theorem inverts_intOrOid : intOrOid.Inverts := by
  intro a j h
  cases a with
  | int n => exact read_tagged inverts_i32 h rfl
  | oid o => exact read_tagged inverts_oidStr h rfl

theorem inverts_specialText : specialText.Inverts := by
  intro a j h
  cases a with
  | text s => exact read_tagged inverts_string h rfl
  | bytes b => exact read_tagged inverts_hexBytes h rfl
  | mac m => exact read_tagged inverts_macAddr h rfl

/-- The attributes of a name and those of a directory are mirrored by one description. -/
theorem inverts_rdnAttr {S B : Type} {s : Mirror S} {b : Mirror B} (hs : s.Inverts)
    (hb : b.Inverts) : (rdnAttr s b).Inverts := by
  have hregistered : (Mirror.struct (registered s)).Inverts :=
    ((Fields.inverts_build _).field inverts_u16 |>.field inverts_bool |>.field hs).struct
      rfl fun _ => rfl
  have hoid : (Mirror.struct (underOid b)).Inverts :=
    ((Fields.inverts_build _).field inverts_oidStr |>.field hb).struct rfl fun _ => rfl
  intro a j h
  cases a with
  | registered id printableString value =>
      exact read_tagged (b := (id, printableString, value))
        (f := fun p => RdnAttr.registered p.1 p.2.1 p.2.2) hregistered h rfl
  | oid o value =>
      exact read_tagged (b := (o, value)) (f := fun p => RdnAttr.oid p.1 p.2) hoid h rfl

theorem inverts_name : name.Inverts :=
  (inverts_rdnAttr inverts_specialText inverts_u8.list).list.newtype fun _ => rfl

omit [LawfulTextCrates] in
theorem name_ne_null (n : Name) : name.serialize n ≠ some .null := list_ne_null n.attrs

theorem inverts_subjectDirectoryAttributes : subjectDirectoryAttributes.Inverts :=
  (inverts_rdnAttr inverts_specialText.list inverts_u8.list.list).list.newtype fun _ => rfl

theorem inverts_generalNameValue : generalNameValue.Inverts := by
  have hother : (Mirror.struct otherName).Inverts :=
    ((Fields.inverts_build _).field inverts_oidStr |>.field inverts_hexBytes).struct
      rfl fun _ => rfl
  have hmodule : (Mirror.struct hardwareModuleName).Inverts :=
    ((Fields.inverts_build _).field inverts_oidStr |>.field inverts_hexBytes).struct
      rfl fun _ => rfl
  intro a j h
  cases a with
  | otherName typeId value =>
      exact read_tagged (b := (typeId, value)) (f := fun p => GeneralNameValue.otherName p.1 p.2)
        hother h rfl
  | hardwareModuleName hwType hwSerialNum =>
      exact read_tagged (b := (hwType, hwSerialNum))
        (f := fun p => GeneralNameValue.hardwareModuleName p.1 p.2) hmodule h rfl
  | smtpUtf8Mailbox s => exact read_tagged inverts_string h rfl
  | macAddress mac => exact read_tagged inverts_macAddr h rfl
  | rfc822Name s => exact read_tagged inverts_string h rfl
  | dnsName s => exact read_tagged inverts_string h rfl
  | directoryName n => exact read_tagged inverts_name h rfl
  | uri s => exact read_tagged inverts_string h rfl
  | ipAddress b => exact read_tagged inverts_hexBytes h rfl
  | registeredId o => exact read_tagged inverts_oidStr h rfl
  | raw item => exact read_tagged inverts_hexBytes h rfl

theorem inverts_generalName : generalName.Inverts :=
  ((Fields.inverts_build _).field inverts_i32 |>.field inverts_generalNameValue).struct
    rfl fun _ => rfl

theorem inverts_authorityKeyIdentifier : authorityKeyIdentifier.Inverts :=
  ((Fields.inverts_build _).field inverts_hexBytes
    |>.optional inverts_generalName.list list_ne_null
    |>.field inverts_biguintHex_opt).struct rfl fun _ => rfl

theorem inverts_nameConstraints : nameConstraints.Inverts :=
  ((Fields.inverts_build _).optional inverts_generalName.list list_ne_null
    |>.optional inverts_generalName.list list_ne_null).struct rfl fun _ => rfl

omit [TextCrates] [LawfulTextCrates] in
theorem inverts_basicConstraints : basicConstraints.Inverts := by
  have hca : (Mirror.struct pathLen).Inverts :=
    ((Fields.inverts_build _).optional inverts_u32 integer_ne_null).struct rfl
      fun _ => rfl
  intro a j h
  cases a with
  | notCa => exact read_unit h rfl
  | ca n => exact read_tagged hca h rfl

theorem inverts_extKeyUsage : extKeyUsage.Inverts := inverts_intOrOid.list.newtype fun _ => rfl

theorem inverts_accessDescription : accessDescription.Inverts :=
  ((Fields.inverts_build _).field inverts_intOrOid |>.field inverts_string).struct
    rfl fun _ => rfl

theorem inverts_distributionPointName : distributionPointName.Inverts :=
  ((Fields.inverts_build _).field inverts_string.list
    |>.optional inverts_u32 integer_ne_null
    |>.optional inverts_name name_ne_null).struct rfl fun _ => rfl

theorem inverts_policyQualifierInfo : policyQualifierInfo.Inverts :=
  ((Fields.inverts_build _).field inverts_intOrOid |>.field inverts_string).struct
    rfl fun _ => rfl

theorem inverts_certificatePolicies : certificatePolicies.Inverts :=
  (inverts_intOrOid.pair inverts_policyQualifierInfo.list).list.newtype fun _ => rfl

omit [TextCrates] [LawfulTextCrates] in
theorem inverts_policyConstraints : policyConstraints.Inverts :=
  ((Fields.inverts_build _).optional inverts_u32 integer_ne_null
    |>.optional inverts_u32 integer_ne_null).struct rfl fun _ => rfl

theorem inverts_policyMappings : policyMappings.Inverts :=
  (inverts_intOrOid.pair inverts_intOrOid).list.newtype fun _ => rfl

theorem inverts_ipAddressFamily : ipAddressFamily.Inverts := by
  have hrange : (Mirror.struct addressRange).Inverts :=
    ((Fields.inverts_build _).field inverts_ipAddr |>.field inverts_ipAddr).struct
      rfl fun _ => rfl
  have hentry : ipAddressOrRange.Inverts := by
    intro a j h
    cases a with
    | addressPrefix net => exact read_tagged inverts_ipNet h rfl
    | range min max =>
        exact read_tagged (b := (min, max)) (f := fun p => IpAddressOrRange.range p.1 p.2)
          hrange h rfl
  have hchoice : ipAddressChoice.Inverts := by
    intro a j h
    cases a with
    | inherit => exact read_unit h rfl
    | prefixes entries => exact read_tagged hentry.list h rfl
  exact ((Fields.inverts_build _).field inverts_u16 |>.optional inverts_u16 integer_ne_null
    |>.field hchoice).struct rfl fun _ => rfl

omit [TextCrates] [LawfulTextCrates] in
theorem inverts_asIdOrRange : asIdOrRange.Inverts := by
  have hrange : (Mirror.struct asRange).Inverts :=
    ((Fields.inverts_build _).field inverts_u64 |>.field inverts_u64).struct rfl
      fun _ => rfl
  intro a j h
  cases a with
  | id n => exact read_tagged inverts_u64 h rfl
  | range min max =>
      exact read_tagged (b := (min, max)) (f := fun p => AsIdOrRange.range p.1 p.2) hrange h rfl

theorem inverts_extensionValue : extensionValue.Inverts := by
  have hids : (Mirror.list asIdOrRange).option.Inverts :=
    inverts_asIdOrRange.list.option list_ne_null
  intro a j h
  cases a with
  | subjectKeyIdentifier b => exact read_tagged inverts_hexBytes h rfl
  | keyUsage n => exact read_tagged inverts_u32 h rfl
  | subjectAltName names => exact read_tagged inverts_generalName.list h rfl
  | basicConstraints bc => exact read_tagged inverts_basicConstraints h rfl
  | crlDistributionPoints dp => exact read_tagged inverts_distributionPointName.list h rfl
  | certificatePolicies v => exact read_tagged inverts_certificatePolicies h rfl
  | authorityKeyIdentifier v => exact read_tagged inverts_authorityKeyIdentifier h rfl
  | extKeyUsage v => exact read_tagged inverts_extKeyUsage h rfl
  | authorityInfoAccess v => exact read_tagged inverts_accessDescription.list h rfl
  | subjectDirectoryAttributes v => exact read_tagged inverts_subjectDirectoryAttributes h rfl
  | issuerAltName names => exact read_tagged inverts_generalName.list h rfl
  | nameConstraints v => exact read_tagged inverts_nameConstraints h rfl
  | policyMappings v => exact read_tagged inverts_policyMappings h rfl
  | policyConstraints v => exact read_tagged inverts_policyConstraints h rfl
  | freshestCrl dp => exact read_tagged inverts_distributionPointName.list h rfl
  | inhibitAnyPolicy n => exact read_tagged inverts_u32 h rfl
  | subjectInfoAccess v => exact read_tagged inverts_accessDescription.list h rfl
  | ipAddrBlocks v => exact read_tagged inverts_ipAddressFamily.list h rfl
  | asIdentifiers v => exact read_tagged hids h rfl
  | ipAddrBlocksV2 v => exact read_tagged inverts_ipAddressFamily.list h rfl
  | asIdentifiersV2 v => exact read_tagged hids h rfl
  | ocspNoCheck => exact read_unit h rfl
  | tlsFeatures v => exact read_tagged inverts_u32.list h rfl
  | raw b => exact read_tagged inverts_hexBytes h rfl

theorem inverts_extensions : extensions.Inverts := by
  have hext : extension.Inverts :=
    ((Fields.inverts_build _).field inverts_intOrOid |>.field inverts_bool
      |>.field inverts_extensionValue).struct rfl fun _ => rfl
  exact hext.list.newtype fun _ => rfl

theorem inverts_c509Certificate (notBefore notAfter : UtcOffset) :
    (c509Certificate notBefore notAfter).Inverts := by
  have htbs : (tbsCertificate notBefore notAfter).Inverts :=
    ((Fields.inverts_build _).field inverts_i32
      |>.field inverts_biguintHex
      |>.field inverts_algorithmIdentifier
      |>.optional inverts_name name_ne_null
      |>.field (inverts_rfc3339 notBefore)
      |>.field (inverts_rfc3339_opt notAfter)
      |>.field inverts_name
      |>.field inverts_algorithmIdentifier
      |>.field inverts_hexBytes
      |>.field inverts_extensions).struct rfl fun _ => rfl
  exact ((Fields.inverts_build _).field htbs |>.field inverts_hexBytes).struct rfl
    fun _ => rfl

end

end JsonMirror

/-! ### Certificates -/

namespace C509Certificate

section

variable [TextCrates]

/-- `Serialize for C509Certificate`, of a certificate whose times are given at the offsets
from UTC. -/
def serialize (notBefore notAfter : UtcOffset) (c : C509Certificate) : Option Json :=
  (JsonMirror.c509Certificate notBefore notAfter).serialize c

/-- `Deserialize for C509Certificate` -/
def deserialize (j : Json) : Option C509Certificate :=
  (JsonMirror.c509Certificate 0 0).deserialize j

/-- **A certificate that can be written to JSON is read back as itself.** -/
theorem deserialize_serialize [LawfulTextCrates] (notBefore notAfter : UtcOffset)
    (c : C509Certificate) (j : Json) (h : serialize notBefore notAfter c = some j) :
    deserialize j = some c := by
  -- reading does not depend on the offsets
  have hread : deserialize j = (JsonMirror.c509Certificate notBefore notAfter).deserialize j := rfl
  rw [hread]
  exact JsonMirror.inverts_c509Certificate notBefore notAfter c j h

end

/-- The sample, at UTC. -/
theorem deserialize_serialize_sample :
    ∃ j, @serialize Reference.textCrates 0 0 sample = some j ∧
      @deserialize Reference.textCrates j = some sample :=
  ⟨_, rfl, @deserialize_serialize Reference.textCrates Reference.textCrates_lawful 0 0 sample _ rfl⟩

end C509Certificate

end C509
