/-
Certificates handed on as JSON.

A certificate that was decoded is written as JSON, passes through programs that may keep the
members of an object in an order of their own, and is read again.  What is proved is that this
always succeeds and changes nothing: the mirror fails on no value but a time that has no text,
no decoded time is such, and nothing the mirror reads depends on the order of members.

Neither property needs the laws of the crates that make the texts.  They enter only where what
was written is read back.
-/
import C509Cert.JsonMirror
import C509Cert.Serde.Reordered
import C509Cert.Serde.Written
import C509Cert.Time.Rfc3339

namespace C509

open Cbor Serde SerdeUtil Mirror

namespace JsonMirror

/-! ### What is written -/

theorem total_u8 : u8.Total := total_integer _ _

theorem total_u16 : u16.Total := total_integer _ _

theorem total_u32 : u32.Total := total_integer _ _

theorem total_u64 : u64.Total := total_integer _ _

theorem total_i32 : i32.Total := total_integer _ _

theorem total_displayStr {T : Type} (display : T → String) (fromStr : String → Option T) :
    (displayStr display fromStr).Total := fun _ => ⟨_, rfl⟩

theorem total_ipAddr : ipAddr.Total := total_displayStr _ _

section

variable [TextCrates]

theorem total_macAddr : macAddr.Total := total_displayStr _ _

theorem total_ipNet : ipNet.Total := total_displayStr _ _

theorem total_oidStr : oidStr.Total := fun _ => ⟨_, rfl⟩

theorem total_hexBytes : SerdeUtil.hexBytes.Total := fun _ => ⟨_, rfl⟩

theorem total_biguintHex : biguintHex.Total := fun _ => ⟨_, rfl⟩

omit [TextCrates] in
theorem total_opt_str {T : Type} (toStr : T → String) (parse : String → Option T) :
    (Mirror.mk (serializeOptStr fun v => some (toStr v)) (deserializeOptStr parse)).Total := by
  intro o
  cases o with
  | none => exact ⟨.null, rfl⟩
  | some v => exact ⟨.str (toStr v), rfl⟩

theorem total_algorithmIdentifier : algorithmIdentifier.Total := by
  have hoid : (Mirror.struct algorithmOid).Total :=
    ((Fields.writes_build _).totalField total_oidStr
      |>.totalField (total_opt_str TextCrates.hexEncode TextCrates.hexDecode)).total
  intro a
  cases a with
  | int n => exact total_tagged total_i32 _ n
  | oid algorithm parameters => exact total_tagged hoid _ (algorithm, parameters)

theorem total_intOrOid : intOrOid.Total := by
  intro a
  cases a with
  | int n => exact total_tagged total_i32 _ n
  | oid o => exact total_tagged total_oidStr _ o

theorem total_specialText : specialText.Total := by
  intro a
  cases a with
  | text s => exact total_tagged total_string _ s
  | bytes b => exact total_tagged total_hexBytes _ b
  | mac m => exact total_tagged total_macAddr _ m

theorem total_rdnAttr {S B : Type} {s : Mirror S} {b : Mirror B} (hs : s.Total) (hb : b.Total) :
    (rdnAttr s b).Total := by
  have hregistered : (Mirror.struct (registered s)).Total :=
    ((Fields.writes_build _).totalField total_u16 |>.totalField total_bool
      |>.totalField hs).total
  have hoid : (Mirror.struct (underOid b)).Total :=
    ((Fields.writes_build _).totalField total_oidStr |>.totalField hb).total
  intro a
  cases a with
  | registered id printableString value =>
      exact total_tagged hregistered _ (id, printableString, value)
  | oid o value => exact total_tagged hoid _ (o, value)

theorem total_name : name.Total :=
  (total_rdnAttr total_specialText total_u8.list).list.newtype

theorem total_subjectDirectoryAttributes : subjectDirectoryAttributes.Total :=
  (total_rdnAttr total_specialText.list
    total_u8.list.list).list.newtype

theorem total_generalNameValue : generalNameValue.Total := by
  have hother : (Mirror.struct otherName).Total :=
    ((Fields.writes_build _).totalField total_oidStr |>.totalField total_hexBytes).total
  have hmodule : (Mirror.struct hardwareModuleName).Total :=
    ((Fields.writes_build _).totalField total_oidStr |>.totalField total_hexBytes).total
  intro a
  cases a with
  | otherName typeId value => exact total_tagged hother _ (typeId, value)
  | hardwareModuleName hwType hwSerialNum => exact total_tagged hmodule _ (hwType, hwSerialNum)
  | smtpUtf8Mailbox s => exact total_tagged total_string _ s
  | macAddress mac => exact total_tagged total_macAddr _ mac
  | rfc822Name s => exact total_tagged total_string _ s
  | dnsName s => exact total_tagged total_string _ s
  | directoryName n => exact total_tagged total_name _ n
  | uri s => exact total_tagged total_string _ s
  | ipAddress b => exact total_tagged total_hexBytes _ b
  | registeredId o => exact total_tagged total_oidStr _ o
  | raw item => exact total_tagged total_hexBytes _ item

theorem total_generalName : generalName.Total :=
  ((Fields.writes_build _).totalField total_i32 |>.totalField total_generalNameValue).total

theorem total_authorityKeyIdentifier : authorityKeyIdentifier.Total :=
  ((Fields.writes_build _).totalField total_hexBytes
    |>.totalOptional total_generalName.list
    |>.totalField (total_opt_str (fun n => TextCrates.hexEncode (BigUint.toBytesBe n))
      biguintHex.parse)).total

theorem total_nameConstraints : nameConstraints.Total :=
  ((Fields.writes_build _).totalOptional total_generalName.list
    |>.totalOptional total_generalName.list).total

omit [TextCrates] in
theorem total_basicConstraints : basicConstraints.Total := by
  have hca : (Mirror.struct pathLen).Total :=
    ((Fields.writes_build _).totalOptional total_u32).total
  intro a
  cases a with
  | notCa => exact ⟨_, rfl⟩
  | ca n => exact total_tagged hca _ n

theorem total_accessDescription : accessDescription.Total :=
  ((Fields.writes_build _).totalField total_intOrOid |>.totalField total_string).total

theorem total_distributionPointName : distributionPointName.Total :=
  ((Fields.writes_build _).totalField total_string.list
    |>.totalOptional total_u32
    |>.totalOptional total_name).total

theorem total_certificatePolicies : certificatePolicies.Total := by
  have hqualifier : policyQualifierInfo.Total :=
    ((Fields.writes_build _).totalField total_intOrOid |>.totalField total_string).total
  exact (total_intOrOid.pair hqualifier.list).list.newtype

omit [TextCrates] in
theorem total_policyConstraints : policyConstraints.Total :=
  ((Fields.writes_build _).totalOptional total_u32 |>.totalOptional total_u32).total

theorem total_ipAddressFamily : ipAddressFamily.Total := by
  have hrange : (Mirror.struct addressRange).Total :=
    ((Fields.writes_build _).totalField total_ipAddr |>.totalField total_ipAddr).total
  have hentry : ipAddressOrRange.Total := by
    intro a
    cases a with
    | addressPrefix net => exact total_tagged total_ipNet _ net
    | range min max => exact total_tagged hrange _ (min, max)
  have hchoice : ipAddressChoice.Total := by
    intro a
    cases a with
    | inherit => exact ⟨_, rfl⟩
    | prefixes entries => exact total_tagged hentry.list _ entries
  exact ((Fields.writes_build _).totalField total_u16
    |>.totalOptional total_u16
    |>.totalField hchoice).total

omit [TextCrates] in
theorem total_asIdOrRange : asIdOrRange.Total := by
  have hrange : (Mirror.struct asRange).Total :=
    ((Fields.writes_build _).totalField total_u64 |>.totalField total_u64).total
  intro a
  cases a with
  | id n => exact total_tagged total_u64 _ n
  | range min max => exact total_tagged hrange _ (min, max)

theorem total_extensionValue : extensionValue.Total := by
  have hids : (Mirror.list asIdOrRange).option.Total := total_asIdOrRange.list.option
  intro a
  cases a with
  | subjectKeyIdentifier b => exact total_tagged total_hexBytes _ b
  | keyUsage n => exact total_tagged total_u32 _ n
  | subjectAltName names => exact total_tagged total_generalName.list _ names
  | basicConstraints bc => exact total_tagged total_basicConstraints _ bc
  | crlDistributionPoints dp => exact total_tagged total_distributionPointName.list _ dp
  | certificatePolicies v => exact total_tagged total_certificatePolicies _ v
  | authorityKeyIdentifier v => exact total_tagged total_authorityKeyIdentifier _ v
  | extKeyUsage v => exact total_tagged (total_intOrOid.list.newtype) _ v
  | authorityInfoAccess v => exact total_tagged total_accessDescription.list _ v
  | subjectDirectoryAttributes v => exact total_tagged total_subjectDirectoryAttributes _ v
  | issuerAltName names => exact total_tagged total_generalName.list _ names
  | nameConstraints v => exact total_tagged total_nameConstraints _ v
  | policyMappings v => exact total_tagged (total_intOrOid.pair total_intOrOid).list.newtype _ v
  | policyConstraints v => exact total_tagged total_policyConstraints _ v
  | freshestCrl dp => exact total_tagged total_distributionPointName.list _ dp
  | inhibitAnyPolicy n => exact total_tagged total_u32 _ n
  | subjectInfoAccess v => exact total_tagged total_accessDescription.list _ v
  | ipAddrBlocks v => exact total_tagged total_ipAddressFamily.list _ v
  | asIdentifiers v => exact total_tagged hids _ v
  | ipAddrBlocksV2 v => exact total_tagged total_ipAddressFamily.list _ v
  | asIdentifiersV2 v => exact total_tagged hids _ v
  | ocspNoCheck => exact ⟨_, rfl⟩
  | tlsFeatures v => exact total_tagged total_u32.list _ v
  | raw b => exact total_tagged total_hexBytes _ b

theorem total_extensions : extensions.Total := by
  have hext : extension.Total :=
    ((Fields.writes_build _).totalField total_intOrOid |>.totalField total_bool
      |>.totalField total_extensionValue).total
  exact hext.list.newtype

/-- The one field that is not always written, and the one that need not be there. -/
theorem writes_tbsCertificate (notBefore notAfter : UtcOffset) :
    (tbsCertificate notBefore notAfter).Writes fun tbs =>
      (∃ s, TextCrates.formatRfc3339 notBefore tbs.validityNotBefore = some s) ∧
        ∀ t ∈ tbs.validityNotAfter, ∃ s, TextCrates.formatRfc3339 notAfter t = some s := by
  have hbefore : (rfc3339 notBefore).Writes fun t =>
      ∃ s, TextCrates.formatRfc3339 notBefore t = some s :=
    writes_text (TextCrates.formatRfc3339 notBefore) TextCrates.parseRfc3339
  have hafter : (Mirror.mk (rfc3339.serializeOpt notAfter) rfc3339.deserializeOpt).Writes
      fun o => ∀ t ∈ o, ∃ s, TextCrates.formatRfc3339 notAfter t = some s := by
    intro o
    cases o with
    | none => exact iff_of_true ⟨.null, rfl⟩ (by simp)
    | some t =>
        refine (writes_text (TextCrates.formatRfc3339 notAfter) TextCrates.parseRfc3339 t).trans ?_
        simp
  intro tbs
  refine Iff.trans (((Fields.writes_build _).totalField total_i32
    |>.totalField total_biguintHex
    |>.totalField total_algorithmIdentifier
    |>.totalOptional total_name
    |>.field hbefore
    |>.field hafter
    |>.totalField total_name
    |>.totalField total_algorithmIdentifier
    |>.totalField total_hexBytes
    |>.totalField total_extensions).struct tbs) ?_
  simp only [true_and]

end

/-! ### What is read -/

section

theorem orderless_u8 : u8.Orderless := orderless_integer _ _

theorem orderless_u16 : u16.Orderless := orderless_integer _ _

theorem orderless_u32 : u32.Orderless := orderless_integer _ _

theorem orderless_u64 : u64.Orderless := orderless_integer _ _

theorem orderless_i32 : i32.Orderless := orderless_integer _ _

/-- A text is the same in every order, and so is its absence. -/
theorem orderless_opt_str {T : Type} (toStr : T → Option String) (parse : String → Option T) :
    (Mirror.mk (serializeOptStr toStr) (deserializeOptStr parse)).Orderless := by
  intro j j' h
  cases h <;> rfl

theorem orderless_ipAddr : ipAddr.Orderless := orderless_text _ _

variable [TextCrates]

theorem orderless_macAddr : macAddr.Orderless := orderless_text _ _

theorem orderless_ipNet : ipNet.Orderless := orderless_text _ _

theorem orderless_oidStr : oidStr.Orderless := orderless_text _ _

theorem orderless_hexBytes : SerdeUtil.hexBytes.Orderless := by
  intro j j' h
  cases h <;> rfl

theorem orderless_biguintHex : biguintHex.Orderless := by
  intro j j' h
  cases h <;> rfl

theorem orderless_rfc3339 (offset : UtcOffset) : (rfc3339 offset).Orderless := by
  intro j j' h
  cases h <;> rfl

theorem orderless_algorithmIdentifier : algorithmIdentifier.Orderless := by
  have hoid : (Mirror.struct algorithmOid).Orderless :=
    ((Fields.orderless_build _).field orderless_oidStr
      |>.field (orderless_opt_str _ TextCrates.hexDecode)).struct
  refine orderless_enum fun tag => ?_
  split
  · exact orderless_i32.readTagged
  · exact hoid.readTagged
  · exact readsOrderless_none

theorem orderless_intOrOid : intOrOid.Orderless := by
  refine orderless_enum fun tag => ?_
  split
  · exact orderless_i32.readTagged
  · exact orderless_oidStr.readTagged
  · exact readsOrderless_none

theorem orderless_specialText : specialText.Orderless := by
  refine orderless_enum fun tag => ?_
  split
  · exact orderless_string.readTagged
  · exact orderless_hexBytes.readTagged
  · exact orderless_macAddr.readTagged
  · exact readsOrderless_none

theorem orderless_rdnAttr {S B : Type} {s : Mirror S} {b : Mirror B} (hs : s.Orderless)
    (hb : b.Orderless) : (rdnAttr s b).Orderless := by
  have hregistered : (Mirror.struct (registered s)).Orderless :=
    ((Fields.orderless_build _).field orderless_u16 |>.field orderless_bool |>.field hs).struct
  have hoid : (Mirror.struct (underOid b)).Orderless :=
    ((Fields.orderless_build _).field orderless_oidStr |>.field hb).struct
  refine orderless_enum fun tag => ?_
  split
  · exact hregistered.readTagged
  · exact hoid.readTagged
  · exact readsOrderless_none

theorem orderless_name : name.Orderless :=
  (orderless_rdnAttr orderless_specialText orderless_u8.list).list.newtype

theorem orderless_subjectDirectoryAttributes : subjectDirectoryAttributes.Orderless :=
  (orderless_rdnAttr orderless_specialText.list orderless_u8.list.list).list.newtype

theorem orderless_generalName : generalName.Orderless := by
  have hother : (Mirror.struct otherName).Orderless :=
    ((Fields.orderless_build _).field orderless_oidStr |>.field orderless_hexBytes).struct
  have hmodule : (Mirror.struct hardwareModuleName).Orderless :=
    ((Fields.orderless_build _).field orderless_oidStr |>.field orderless_hexBytes).struct
  have hvalue : generalNameValue.Orderless := by
    refine orderless_enum fun tag => ?_
    split
    · exact hother.readTagged
    · exact hmodule.readTagged
    · exact orderless_string.readTagged
    · exact orderless_macAddr.readTagged
    · exact orderless_string.readTagged
    · exact orderless_string.readTagged
    · exact orderless_name.readTagged
    · exact orderless_string.readTagged
    · exact orderless_hexBytes.readTagged
    · exact orderless_oidStr.readTagged
    · exact orderless_hexBytes.readTagged
    · exact readsOrderless_none
  exact ((Fields.orderless_build _).field orderless_i32 |>.field hvalue).struct

theorem orderless_authorityKeyIdentifier : authorityKeyIdentifier.Orderless :=
  ((Fields.orderless_build _).field orderless_hexBytes
    |>.optional orderless_generalName.list
    |>.field (orderless_opt_str _ biguintHex.parse)).struct

theorem orderless_nameConstraints : nameConstraints.Orderless :=
  ((Fields.orderless_build _).optional orderless_generalName.list
    |>.optional orderless_generalName.list).struct

omit [TextCrates] in
theorem orderless_basicConstraints : basicConstraints.Orderless := by
  have hca : (Mirror.struct pathLen).Orderless :=
    ((Fields.orderless_build _).optional orderless_u32).struct
  refine orderless_enum fun tag => ?_
  split
  · exact readsOrderless_unit _
  · exact hca.readTagged
  · exact readsOrderless_none

theorem orderless_accessDescription : accessDescription.Orderless :=
  ((Fields.orderless_build _).field orderless_intOrOid |>.field orderless_string).struct

theorem orderless_distributionPointName : distributionPointName.Orderless :=
  ((Fields.orderless_build _).field orderless_string.list
    |>.optional orderless_u32
    |>.optional orderless_name).struct

theorem orderless_certificatePolicies : certificatePolicies.Orderless := by
  have hqualifier : policyQualifierInfo.Orderless :=
    ((Fields.orderless_build _).field orderless_intOrOid |>.field orderless_string).struct
  exact (orderless_intOrOid.pair hqualifier.list).list.newtype

omit [TextCrates] in
theorem orderless_policyConstraints : policyConstraints.Orderless :=
  ((Fields.orderless_build _).optional orderless_u32 |>.optional orderless_u32).struct

theorem orderless_ipAddressFamily : ipAddressFamily.Orderless := by
  have hrange : (Mirror.struct addressRange).Orderless :=
    ((Fields.orderless_build _).field orderless_ipAddr |>.field orderless_ipAddr).struct
  have hentry : ipAddressOrRange.Orderless := by
    refine orderless_enum fun tag => ?_
    split
    · exact orderless_ipNet.readTagged
    · exact hrange.readTagged
    · exact readsOrderless_none
  have hchoice : ipAddressChoice.Orderless := by
    refine orderless_enum fun tag => ?_
    split
    · exact readsOrderless_unit _
    · exact hentry.list.readTagged
    · exact readsOrderless_none
  exact ((Fields.orderless_build _).field orderless_u16 |>.optional orderless_u16
    |>.field hchoice).struct

omit [TextCrates] in
theorem orderless_asIdentifiers : (Mirror.list asIdOrRange).option.Orderless := by
  have hrange : (Mirror.struct asRange).Orderless :=
    ((Fields.orderless_build _).field orderless_u64 |>.field orderless_u64).struct
  have hentry : asIdOrRange.Orderless := by
    refine orderless_enum fun tag => ?_
    split
    · exact orderless_u64.readTagged
    · exact hrange.readTagged
    · exact readsOrderless_none
  exact hentry.list.option

theorem orderless_extensionValue : extensionValue.Orderless := by
  have hkeyUsage : extKeyUsage.Orderless := orderless_intOrOid.list.newtype
  have hmappings : policyMappings.Orderless :=
    (orderless_intOrOid.pair orderless_intOrOid).list.newtype
  refine orderless_enum fun tag => ?_
  split
  · exact orderless_hexBytes.readTagged
  · exact orderless_u32.readTagged
  · exact orderless_generalName.list.readTagged
  · exact orderless_basicConstraints.readTagged
  · exact orderless_distributionPointName.list.readTagged
  · exact orderless_certificatePolicies.readTagged
  · exact orderless_authorityKeyIdentifier.readTagged
  · exact hkeyUsage.readTagged
  · exact orderless_accessDescription.list.readTagged
  · exact orderless_subjectDirectoryAttributes.readTagged
  · exact orderless_generalName.list.readTagged
  · exact orderless_nameConstraints.readTagged
  · exact hmappings.readTagged
  · exact orderless_policyConstraints.readTagged
  · exact orderless_distributionPointName.list.readTagged
  · exact orderless_u32.readTagged
  · exact orderless_accessDescription.list.readTagged
  · exact orderless_ipAddressFamily.list.readTagged
  · exact orderless_asIdentifiers.readTagged
  · exact orderless_ipAddressFamily.list.readTagged
  · exact orderless_asIdentifiers.readTagged
  · exact readsOrderless_unit _
  · exact orderless_u32.list.readTagged
  · exact orderless_hexBytes.readTagged
  · exact readsOrderless_none

theorem orderless_extensions : extensions.Orderless := by
  have hext : extension.Orderless :=
    ((Fields.orderless_build _).field orderless_intOrOid |>.field orderless_bool
      |>.field orderless_extensionValue).struct
  exact hext.list.newtype

theorem orderless_c509Certificate (notBefore notAfter : UtcOffset) :
    (c509Certificate notBefore notAfter).Orderless := by
  have htbs : (tbsCertificate notBefore notAfter).Orderless :=
    ((Fields.orderless_build _).field orderless_i32
      |>.field orderless_biguintHex
      |>.field orderless_algorithmIdentifier
      |>.optional orderless_name
      |>.field (orderless_rfc3339 notBefore)
      |>.field (orderless_opt_str _ TextCrates.parseRfc3339)
      |>.field orderless_name
      |>.field orderless_algorithmIdentifier
      |>.field orderless_hexBytes
      |>.field orderless_extensions).struct
  exact ((Fields.orderless_build _).field htbs |>.field orderless_hexBytes).struct

end

end JsonMirror

namespace C509Certificate

/-- **The JSON mirror fails on nothing but times that have no text.** -/
theorem serialize_returns_iff [TextCrates] (notBefore notAfter : UtcOffset) (c : C509Certificate) :
    (∃ j, serialize notBefore notAfter c = some j) ↔
      (∃ s, TextCrates.formatRfc3339 notBefore c.tbs.validityNotBefore = some s) ∧
        ∀ t ∈ c.tbs.validityNotAfter, ∃ s, TextCrates.formatRfc3339 notAfter t = some s := by
  refine Iff.trans (((Fields.writes_build _).field (JsonMirror.writes_tbsCertificate _ _)
    |>.totalField JsonMirror.total_hexBytes).struct c) ?_
  simp only [true_and]

/--
**The order of members never matters.**  Documents that differ in it alone, in any of their
objects, are read as the same certificate or are both refused.
-/
theorem deserialize_reordered [TextCrates] {j j' : Json} (h : Reordered j j') :
    deserialize j = deserialize j' := JsonMirror.orderless_c509Certificate 0 0 j j' h

end C509Certificate

/-! ### Decoded certificates -/

/-- `OffsetDateTime::format`, with `Rfc3339`, fails on no second of the years from 0 to 9999. -/
class LawfulRfc3339 [TextCrates] : Prop where
  exists_format {seconds : Int} (hlo : -62167219200 ≤ seconds) (hhi : seconds < 253402300800) :
    ∃ s, TextCrates.formatRfc3339 0 ⟨seconds * 1000000000⟩ = some s

theorem OffsetDateTime.Valid.exists_format [TextCrates] [LawfulRfc3339] {t : OffsetDateTime}
    (ht : t.Valid) : ∃ s, TextCrates.formatRfc3339 0 t = some s := by
  obtain ⟨seconds, hlo, hhi, hnanos⟩ := ht
  have hmax : maxTimestamp = 253402300799 := rfl
  obtain rfl : t = ⟨seconds * 1000000000⟩ := by
    cases t
    cases hnanos
    rfl
  exact LawfulRfc3339.exists_format (by omega) (by omega)

/--
**A decoded certificate comes back from JSON.**  Whatever certificate either decoder returns is
written as a document, and read back as itself from that document in any order of its members.
-/
theorem C509Certificate.decoded_exchanged [Minicbor] [OidCrate] [LawfulMinicbor] [LawfulOid]
    [TextCrates] [LawfulTextCrates] [LawfulRfc3339] {b : Bytes} {c : C509Certificate}
    (h : decode b = .ok c ∨ decodeSequence b = .ok c) :
    ∃ j, serialize 0 0 c = some j ∧ ∀ j', Reordered j j' → deserialize j' = some c := by
  have hvalid : c.Valid .decoded := h.elim valid_of_decode valid_of_decodeSequence
  have hbefore := hvalid.notBefore.exists_format
  have hafter := fun t ht => (hvalid.notAfter t ht).exists_format
  obtain ⟨j, hj⟩ := (serialize_returns_iff 0 0 c).mpr ⟨hbefore, hafter⟩
  refine ⟨j, hj, fun j' hj' => ?_⟩
  rw [← deserialize_reordered hj']
  exact deserialize_serialize 0 0 c j hj

/-! ### The reference texts, with times -/

namespace Reference

/-- The texts as they are written, times as far as they are whole seconds at UTC. -/
@[reducible] def utcTextCrates : TextCrates :=
  { textCrates with
    formatRfc3339 := fun offset t =>
      if offset = 0 ∧ t.nanos % 1000000000 = 0 then
        (Rfc3339.format (t.nanos / 1000000000)).map String.ofList
      else none
    parseRfc3339 := fun s =>
      (Rfc3339.parse s.toList).map fun seconds => ⟨seconds * 1000000000⟩ }

theorem utcTextCrates_lawful : @LawfulTextCrates utcTextCrates := by
  have h := textCrates_lawful
  refine @LawfulTextCrates.mk utcTextCrates h.parse_macDisplay h.fromStr_netDisplay
    h.tryFrom_oidString h.hexDecode_hexEncode fun {offset t s} hformat => ?_
  change (if offset = 0 ∧ t.nanos % 1000000000 = 0 then
    (Rfc3339.format (t.nanos / 1000000000)).map String.ofList else none) = some s at hformat
  show (Rfc3339.parse s.toList).map _ = some t
  split at hformat
  · rename_i hwhole
    obtain ⟨l, hl, rfl⟩ := Option.map_eq_some_iff.mp hformat
    rw [String.toList_ofList, Rfc3339.parse_format hl, Option.map_some]
    congr 1
    show (⟨t.nanos / 1000000000 * 1000000000⟩ : OffsetDateTime) = t
    rw [Int.ediv_mul_cancel (Int.dvd_of_emod_eq_zero hwhole.2)]
  · cases hformat

theorem utcTextCrates_rfc3339 : @LawfulRfc3339 utcTextCrates := by
  refine @LawfulRfc3339.mk utcTextCrates fun {seconds} hlo hhi => ?_
  obtain ⟨l, hl⟩ := Rfc3339.exists_format hlo hhi
  refine ⟨String.ofList l, ?_⟩
  show (if (0 : Int) = 0 ∧ seconds * 1000000000 % 1000000000 = 0 then
    (Rfc3339.format (seconds * 1000000000 / 1000000000)).map String.ofList else none) = _
  rw [if_pos ⟨rfl, Int.mul_emod_left seconds _⟩, Int.mul_ediv_cancel _ (by decide), hl]
  rfl

end Reference

namespace UtcTexts

scoped instance textCrates : TextCrates := Reference.utcTextCrates

scoped instance lawfulTextCrates : LawfulTextCrates := Reference.utcTextCrates_lawful

scoped instance lawfulRfc3339 : LawfulRfc3339 := Reference.utcTextCrates_rfc3339

end UtcTexts

open C509Certificate

open scoped UtcTexts in
/-- The sample, and its document with the two members at its top the other way round. -/
theorem C509Certificate.deserialize_reordered_sample :
    ∃ j, serialize 0 0 sample = some (.obj [("tbs", j), ("issuer_signature_value", .str "99")]) ∧
      deserialize (.obj [("tbs", j), ("issuer_signature_value", .str "99")]) =
        deserialize (.obj [("issuer_signature_value", .str "99"), ("tbs", j)]) :=
  ⟨_, rfl, deserialize_reordered (.obj (reordered_members _) (List.Perm.swap _ _ _))⟩

open scoped Reference UtcTexts in
theorem C509Certificate.decoded_exchanged_sample :
    ∃ j, serialize 0 0 sample = some j ∧ ∀ j', Reordered j j' → deserialize j' = some sample :=
  decoded_exchanged (b := sampleBytes) (Or.inr sample_decodes)

end C509
