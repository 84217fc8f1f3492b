/-
Conversion of X.509 certificates (`x509_to_c509.rs`).

The converter asks the parser for five extensions by their identifiers, in an order of its
own; it never looks at the list they stand in.  What each of the five comes to is a `Slot`,
and what the loop over them comes to is one result for each slot.
-/
import C509Cert.Conversion
import C509Cert.X509

namespace C509

open Cbor Codec
open X509 hiding GeneralName BasicConstraints AuthorityKeyIdentifier AlgorithmIdentifier
  TbsCertificate

/-! ### Errors -/

/-- `x509_err` -/
def x509Err [Minicbor] (context e : String) : Error := .x509 s!"{context}: {e}"

/-- `map_err`, to an error with a context. -/
def inContext [Minicbor] {α : Type} (context : String) : Except String α → Except Error α
  | .ok a => .ok a
  | .error e => .error (x509Err context e)

/-- `ok_or_else`, with a message. -/
def orX509 [Minicbor] {α : Type} (message : String) : Option α → Except Error α
  | some a => .ok a
  | none => .error (.x509 message)

/-! ### Registries -/

/-- `lookup_oid` -/
def lookupOid {α : Type} (oid : Oid) (table : List (Oid × α)) : Option α :=
  (table.find? fun p => p.1 = oid).map (·.2)

def SIGNATURE_ALGORITHM_OIDS : List (Oid × Int32) := [
  (OID_SIG_ECDSA_WITH_SHA256, 0),
  (OID_SIG_ECDSA_WITH_SHA384, 1),
  (OID_SIG_ECDSA_WITH_SHA512, 2),
  (OID_SIG_ED25519, 12),
  (OID_SIG_ED448, 13),
  (OID_PKCS1_SHA256WITHRSA, 23),
  (OID_PKCS1_SHA384WITHRSA, 24),
  (OID_PKCS1_SHA512WITHRSA, 25)]

def PUBLIC_KEY_ALGORITHM_OIDS : List (Oid × Int32) := [
  (OID_PKCS1_RSAENCRYPTION, 0),
  (OID_SIG_ED25519, 12),
  (OID_SIG_ED448, 13)]

def EC_CURVE_OIDS : List (Oid × Int32) := [
  (OID_EC_P256, 1),
  (OID_NIST_EC_P384, 2),
  (OID_NIST_EC_P521, 3)]

def RDN_ATTRIBUTE_OIDS : List (Oid × UInt16) := [
  (OID_PKCS9_EMAIL_ADDRESS, 0),
  (OID_X509_COMMON_NAME, 1),
  (OID_X509_SURNAME, 2),
  (OID_X509_SERIALNUMBER, 3),
  (OID_X509_COUNTRY_NAME, 4),
  (OID_X509_LOCALITY_NAME, 5),
  (OID_X509_STATE_OR_PROVINCE_NAME, 6),
  (OID_X509_STREET_ADDRESS, 7),
  (OID_X509_ORGANIZATION_NAME, 8),
  (OID_X509_ORGANIZATIONAL_UNIT, 9),
  (OID_X509_TITLE, 10),
  (OID_X509_BUSINESS_CATEGORY, 11),
  (OID_X509_POSTAL_CODE, 12),
  (OID_X509_GIVEN_NAME, 13),
  (OID_X509_INITIALS, 14),
  (OID_X509_GENERATION_QUALIFIER, 15),
  (OID_X509_DN_QUALIFIER, 16),
  (OID_DOMAIN_COMPONENT, 22),
  (OID_X509_NAME, 25),
  (OID_USERID, 28),
  (OID_PKCS9_UNSTRUCTURED_NAME, 29)]

/-- `rdn_attribute_id` -/
def rdnAttributeId (oid : Oid) : Option UInt16 := lookupOid oid RDN_ATTRIBUTE_OIDS

/-- The id of `c509CertificateType` for a re-encoded DER certificate. -/
def CERTIFICATE_TYPE_DER_REENCODED : Int32 := 3

/-- The last second of year 9999, which stands for no expiration. -/
def NO_EXPIRATION_TIMESTAMP : Int := 253402300799

section

variable [Minicbor] [X509Parser]

/-- `signature_algorithm_id` -/
def signatureAlgorithmId (oid : Oid) : Except Error Int32 :=
  orX509 (s!"issuerSignatureAlgorithm: unrecognized OID {X509Parser.displayOid oid} " ++
      "(this converter only knows a handful of common algorithms; extend " ++
      "SIGNATURE_ALGORITHM_OIDS in x509_to_c509.rs)")
    (lookupOid oid SIGNATURE_ALGORITHM_OIDS)

/-- The curve of an `id-ecPublicKey`. -/
def ecCurveId (parameters : Option Any) : Except Error Int32 := do
  let any ← orX509 "subjectPublicKeyAlgorithm: EC key is missing its curve OID" parameters
  let curve ← inContext "subjectPublicKeyAlgorithm: EC curve parameter" (X509Parser.anyOid any)
  orX509 (s!"subjectPublicKeyAlgorithm: unrecognized EC curve OID " ++
      s!"{X509Parser.displayOid curve} (this converter only knows P-256/P-384/P-521; extend " ++
      "EC_CURVE_OIDS in x509_to_c509.rs)")
    (lookupOid curve EC_CURVE_OIDS)

/-- `public_key_algorithm_id` -/
def publicKeyAlgorithmId (alg : X509.AlgorithmIdentifier) : Except Error Int32 :=
  match lookupOid alg.algorithm PUBLIC_KEY_ALGORITHM_OIDS with
  | some id => .ok id
  | none =>
      if alg.algorithm = OID_KEY_TYPE_EC_PUBLIC_KEY then ecCurveId alg.parameters
      else .error (.x509
        (s!"subjectPublicKeyAlgorithm: unrecognized OID {X509Parser.displayOid alg.algorithm} " ++
          "(this converter only knows a handful of common algorithms; extend " ++
          "PUBLIC_KEY_ALGORITHM_OIDS in x509_to_c509.rs)"))

/-! ### Names -/

variable [MacCrate]

/-- One attribute of `name_to_rdn`. -/
def attributeToRdn (attr : Attribute) : Except Error RdnAttribute := do
  let oid := X509Parser.displayOid attr.attrType
  let id ← orX509 (s!"name attribute OID {oid} isn't supported by this converter " ++
    "(extend `rdn_attribute_id` in x509_to_c509.rs)") (rdnAttributeId attr.attrType)
  let value ← inContext s!"name attribute OID {oid}" (X509Parser.asStr attr)
  return .registered id (attr.attrValue.tag = Tag.PrintableString) (specialText value)

/-- `name_to_rdn` -/
def nameToRdn (name : X509Name) : Except Error Name := do
  return ⟨← (X509Parser.iterAttributes name).mapM attributeToRdn⟩

end

/-! ### Extensions -/

/-- `extended_key_usage_ids` -/
def extendedKeyUsageIds (eku : ExtendedKeyUsage) : List Int32 :=
  ([(0, eku.any), (1, eku.serverAuth), (2, eku.clientAuth), (3, eku.codeSigning),
    (4, eku.emailProtection), (8, eku.timeStamping), (9, eku.ocspSigning)].filter (·.2)).map (·.1)

section

variable [Minicbor] [X509Parser]

def basicConstraintsValue (bc : X509.BasicConstraints) : Except Error ExtensionValue :=
  .ok (.basicConstraints (if bc.ca then .ca bc.pathLenConstraint else .notCa))

def keyUsageValue (ku : KeyUsage) : Except Error ExtensionValue :=
  .ok (.keyUsage ku.flags.toUInt32)

def extendedKeyUsageValue (eku : ExtendedKeyUsage) : Except Error ExtensionValue :=
  if eku.other ≠ [] then
    .error (.x509 "extKeyUsage: OID-form KeyPurposeIds aren't supported by this converter")
  else
    .ok (.extKeyUsage ⟨(extendedKeyUsageIds eku).map IntOrOid.int⟩)

def convertGeneralName : X509.GeneralName → Except Error GeneralName
  | .dnsName s => .ok { kind := GENERAL_NAME_DNS, value := .dnsName s }
  | name => .error (.x509 ("subjectAltName: only dNSName entries are supported by this " ++
      s!"converter, found {X509Parser.debugGeneralName name}"))

def subjectAltNameValue (san : SubjectAlternativeName) : Except Error ExtensionValue := do
  return .subjectAltName (← san.generalNames.mapM convertGeneralName)

def authorityKeyIdentifierValue : ParsedExtension → Except Error ExtensionValue
  | .authorityKeyIdentifier aki => do
      let keyIdentifier ← orX509 ("authorityKeyIdentifier: only the keyIdentifier form " ++
        "is supported by this converter") aki.keyIdentifier
      return .authorityKeyIdentifier { keyIdentifier, certIssuer := none, certSerial := none }
  | parsed => .error (.x509 ("authorityKeyIdentifier: could not parse this extension's form " ++
      s!"({X509Parser.debugParsedExtension parsed})"))

/-- An extension that is pushed if an accessor returns one. -/
def pushFound {α : Type} (context : String) (found : Except String (Option (BasicExtension α)))
    (id : Int32) (value : α → Except Error ExtensionValue) : Except Error (Option Extension) := do
  match ← inContext context found with
  | none => return none
  | some ext => return some { id := .int id, critical := ext.critical, value := ← value ext.value }

def convertBasicConstraints (tbs : X509.TbsCertificate) : Except Error (Option Extension) :=
  pushFound "basicConstraints" (X509Parser.basicConstraints tbs) EXT_BASIC_CONSTRAINTS_ID
    basicConstraintsValue

def convertKeyUsage (tbs : X509.TbsCertificate) : Except Error (Option Extension) :=
  pushFound "keyUsage" (X509Parser.keyUsage tbs) EXT_KEY_USAGE_ID keyUsageValue

def convertExtendedKeyUsage (tbs : X509.TbsCertificate) : Except Error (Option Extension) :=
  pushFound "extKeyUsage" (X509Parser.extendedKeyUsage tbs) EXT_EXT_KEY_USAGE_ID
    extendedKeyUsageValue

def convertSubjectAltName (tbs : X509.TbsCertificate) : Except Error (Option Extension) :=
  pushFound "subjectAltName" (X509Parser.subjectAlternativeName tbs) EXT_SUBJECT_ALT_NAME_ID
    subjectAltNameValue

/-- Here the untyped accessor is used: a form that did not parse is an error. -/
def convertAuthorityKeyIdentifier (tbs : X509.TbsCertificate) : Except Error (Option Extension) :=
  pushFound "authorityKeyIdentifier"
    ((X509Parser.getExtensionUnique tbs OID_X509_EXT_AUTHORITY_KEY_IDENTIFIER).map
      (·.map fun ext => ⟨ext.critical, ext.parsedExtension⟩))
    EXT_AUTHORITY_KEY_IDENTIFIER_ID authorityKeyIdentifierValue

/-- The extensions that are pushed, in the order they are asked for. -/
def convertExtensions (tbs : X509.TbsCertificate) : Except Error (List Extension) := do
  let bc ← convertBasicConstraints tbs
  let ku ← convertKeyUsage tbs
  let eku ← convertExtendedKeyUsage tbs
  let san ← convertSubjectAltName tbs
  let aki ← convertAuthorityKeyIdentifier tbs
  return [bc, ku, eku, san, aki].reduceOption

/-! ### Certificates -/

variable [MacCrate]

/-- `convert_certificate` -/
def convertCertificate (cert : X509Certificate) : Except Error C509Certificate := do
  let tbs := cert.tbsCertificate
  let extensions ← convertExtensions tbs
  let validityNotAfter :=
    if tbs.validity.notAfter.unixTimestamp = NO_EXPIRATION_TIMESTAMP then none
    else some tbs.validity.notAfter
  let signatureAlgorithm ← signatureAlgorithmId cert.signatureAlgorithm.algorithm
  let issuer ← nameToRdn tbs.issuer
  let subject ← nameToRdn tbs.subject
  let publicKeyAlgorithm ← publicKeyAlgorithmId tbs.subjectPki.algorithm
  return {
    tbs := {
      c509CertificateType := CERTIFICATE_TYPE_DER_REENCODED
      certificateSerialNumber := BigUint.fromBytesBe tbs.rawSerial
      issuerSignatureAlgorithm := .int signatureAlgorithm
      issuer := some issuer
      validityNotBefore := tbs.validity.notBefore
      validityNotAfter
      subject
      subjectPublicKeyAlgorithm := .int publicKeyAlgorithm
      subjectPublicKey := tbs.subjectPki.subjectPublicKey
      extensions := ⟨extensions⟩ }
    issuerSignatureValue := cert.signatureValue }

/-- The start of a PEM block within the first 1024 bytes. -/
def looksLikePem (input : Bytes) : Bool := utf8 "-----BEGIN " <:+: input.take 1024

/-- `from_x509` -/
def fromX509 (input : Bytes) : Except Error C509Certificate :=
  if looksLikePem input then do
    let pem ← inContext "failed to read PEM" (X509Parser.pemRead input)
    let cert ← inContext "failed to parse X.509 DER inside PEM" (X509Parser.parseX509 pem)
    convertCertificate cert
  else do
    let cert ← inContext "failed to parse X.509 DER" (X509Parser.fromDer input)
    convertCertificate cert

end

end C509
