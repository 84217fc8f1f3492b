/-
Extensions (`extensions/mod.rs`).

An extension's criticality has no field on the wire.  For a registered id it is the sign
of the id, for an OID an array around the value, and for a list of one keyUsage
extension the sign of the keyUsage value.  The decoder splits a number into magnitude
and sign; the encoder puts them together again where an `i32` has room for both.

Reading establishes that the value is the one registered for the id.  Writing normalises:
the host bits of address prefixes are dropped, and a keyUsage of value 0 alone loses its
sign.
-/
import C509Cert.Extensions.GeneralName
import C509Cert.Extensions.Values
import C509Cert.Extensions.IpAddrRoundTrip

namespace C509

open Cbor Codec

/-! ### `ExtensionValue` -/

/-- An extension value. -/
inductive ExtensionValue
  /-- id 1 -/
  | subjectKeyIdentifier (b : Bytes)
  /-- id 2 -/
  | keyUsage (n : UInt32)
  /-- id 3 -/
  | subjectAltName (names : List GeneralName)
  /-- id 4 -/
  | basicConstraints (bc : BasicConstraints)
  /-- id 5 -/
  | crlDistributionPoints (dp : List DistributionPointName)
  /-- id 6 -/
  | certificatePolicies (v : CertificatePolicies)
  /-- id 7 -/
  | authorityKeyIdentifier (v : AuthorityKeyIdentifier)
  /-- id 8 -/
  | extKeyUsage (v : ExtKeyUsage)
  /-- id 9 -/
  | authorityInfoAccess (v : List AccessDescription)
  /-- id 24 -/
  | subjectDirectoryAttributes (v : SubjectDirectoryAttributes)
  /-- id 25 -/
  | issuerAltName (names : List GeneralName)
  /-- id 26 -/
  | nameConstraints (v : NameConstraints)
  /-- id 27 -/
  | policyMappings (v : PolicyMappings)
  /-- id 28 -/
  | policyConstraints (v : PolicyConstraints)
  /-- id 29 -/
  | freshestCrl (dp : List DistributionPointName)
  /-- id 30 -/
  | inhibitAnyPolicy (n : UInt32)
  /-- id 31 -/
  | subjectInfoAccess (v : List AccessDescription)
  /-- id 32 -/
  | ipAddrBlocks (v : List IpAddressFamily)
  /-- id 33 -/
  | asIdentifiers (v : Option (List AsIdOrRange))
  /-- id 34 -/
  | ipAddrBlocksV2 (v : List IpAddressFamily)
  /-- id 35 -/
  | asIdentifiersV2 (v : Option (List AsIdOrRange))
  /-- id 36 -/
  | ocspNoCheck
  /-- id 38 -/
  | tlsFeatures (v : List UInt32)
  /-- any other id, and every OID -/
  | raw (b : Bytes)
  deriving DecidableEq

namespace ExtensionValue

/-- The registry id of a variant; `raw` has none. -/
def registryId : ExtensionValue → Option UInt32
  | subjectKeyIdentifier _ => some 1
  | keyUsage _ => some 2
  | subjectAltName _ => some 3
  | basicConstraints _ => some 4
  | crlDistributionPoints _ => some 5
  | certificatePolicies _ => some 6
  | authorityKeyIdentifier _ => some 7
  | extKeyUsage _ => some 8
  | authorityInfoAccess _ => some 9
  | subjectDirectoryAttributes _ => some 24
  | issuerAltName _ => some 25
  | nameConstraints _ => some 26
  | policyMappings _ => some 27
  | policyConstraints _ => some 28
  | freshestCrl _ => some 29
  | inhibitAnyPolicy _ => some 30
  | subjectInfoAccess _ => some 31
  | ipAddrBlocks _ => some 32
  | asIdentifiers _ => some 33
  | ipAddrBlocksV2 _ => some 34
  | asIdentifiersV2 _ => some 35
  | ocspNoCheck => some 36
  | tlsFeatures _ => some 38
  | raw _ => none

/-- The ids the decoder knows. -/
def registeredIds : List UInt32 :=
  [1, 2, 3, 4, 5, 6, 7, 8, 9, 24, 25, 26, 27, 28, 29, 30, 31, 32, 33, 34, 35, 36, 38]

/-- The variant is the one registered for the id, and `raw` where none is. -/
def RegisteredFor (id : UInt32) (v : ExtensionValue) : Prop :=
  match v.registryId with
  | some n => id = n
  | none => id ∉ registeredIds

/-- The value without the host bits of its address prefixes. -/
def normalise : ExtensionValue → ExtensionValue
  | ipAddrBlocks v => ipAddrBlocks (v.map IpAddressFamily.normalise)
  | ipAddrBlocksV2 v => ipAddrBlocksV2 (v.map IpAddressFamily.normalise)
  | v => v

/-- No address prefix of the value has host bits. -/
def NoHostBits : ExtensionValue → Prop
  | ipAddrBlocks v | ipAddrBlocksV2 v => ∀ fam ∈ v, fam.NoHostBits
  | _ => True

theorem normalise_eq {v : ExtensionValue} (h : v.NoHostBits) : v.normalise = v := by
  have hmap : ∀ l : List IpAddressFamily, (∀ fam ∈ l, fam.NoHostBits) →
      l.map IpAddressFamily.normalise = l := fun l hl =>
    (List.map_congr_left fun fam hfam => IpAddressFamily.normalise_eq (hl fam hfam)).trans
      (List.map_id l)
  cases v with
  | ipAddrBlocks l => rw [normalise, hmap l h]
  | ipAddrBlocksV2 l => rw [normalise, hmap l h]
  | _ => rfl

theorem noHostBits_of_normalise_eq {v : ExtensionValue} (h : v.normalise = v) :
    v.NoHostBits := by
  have hmem : ∀ l : List IpAddressFamily, l.map IpAddressFamily.normalise = l →
      ∀ fam ∈ l, fam.NoHostBits := by
    intro l hl fam hfam
    rw [← hl] at hfam
    obtain ⟨fam', -, rfl⟩ := List.mem_map.mp hfam
    exact IpAddressFamily.noHostBits_of_normalise_eq fam'.normalise_normalise
  cases v with
  | ipAddrBlocks l => exact hmem l (ipAddrBlocks.inj h)
  | ipAddrBlocksV2 l => exact hmem l (ipAddrBlocksV2.inj h)
  | _ => trivial

variable [Minicbor] [OidCrate]

def decode (id : UInt32) : Dec ExtensionValue :=
  match id with
  | 1 => do return subjectKeyIdentifier (← Decoder.bytes)
  | 2 => do return keyUsage (← Decoder.u32)
  | 3 => do return subjectAltName (← decodeAltName)
  | 4 => do return basicConstraints (← BasicConstraints.decode)
  | 5 => do return crlDistributionPoints (← DistributionPointName.decode)
  | 6 => do return certificatePolicies (← CertificatePolicies.decode)
  | 7 => do return authorityKeyIdentifier (← AuthorityKeyIdentifier.decode)
  | 8 => do return extKeyUsage (← ExtKeyUsage.decode)
  | 9 => do return authorityInfoAccess (← AccessDescription.decode)
  | 24 => do return subjectDirectoryAttributes (← SubjectDirectoryAttributes.decode)
  | 25 => do return issuerAltName (← decodeAltName)
  | 26 => do return nameConstraints (← NameConstraints.decode)
  | 27 => do return policyMappings (← PolicyMappings.decode)
  | 28 => do return policyConstraints (← PolicyConstraints.decode)
  | 29 => do return freshestCrl (← DistributionPointName.decode)
  | 30 => do return inhibitAnyPolicy (← Decoder.u32)
  | 31 => do return subjectInfoAccess (← AccessDescription.decode)
  | 32 => do return ipAddrBlocks (← decodeIpAddressFamilies)
  | 33 => do return asIdentifiers (← decodeAsIdentifiers)
  | 34 => do return ipAddrBlocksV2 (← decodeIpAddressFamilies)
  | 35 => do return asIdentifiersV2 (← decodeAsIdentifiers)
  | 36 => do
      Decoder.null
      return ocspNoCheck
  | 38 => do return tlsFeatures (← Decoder.vec Minicbor.readU32)
  | _ => do return raw (← rawItem)

def encode : ExtensionValue → Enc
  | subjectKeyIdentifier b => Encoder.bytes b
  | keyUsage n => Encoder.u32 n
  | subjectAltName names | issuerAltName names => encodeAltName names
  | basicConstraints bc => bc.encode
  | crlDistributionPoints dp | freshestCrl dp => DistributionPointName.encode dp
  | certificatePolicies v => v.encode
  | authorityKeyIdentifier v => v.encode
  | extKeyUsage v => v.encode
  | authorityInfoAccess v | subjectInfoAccess v => AccessDescription.encode v
  | subjectDirectoryAttributes v => v.encode
  | nameConstraints v => v.encode
  | policyMappings v => v.encode
  | policyConstraints v => v.encode
  | inhibitAnyPolicy n => Encoder.u32 n
  | ipAddrBlocks v | ipAddrBlocksV2 v => encodeIpAddressFamilies v
  | asIdentifiers v | asIdentifiersV2 v => encodeAsIdentifiers v
  | ocspNoCheck => Encoder.null
  | tlsFeatures v => Encoder.vecU32 v
  | raw b => writeRaw b

theorem encode_normalise (v : ExtensionValue) : v.normalise.encode = v.encode := by
  cases v with
  | ipAddrBlocks l => exact encodeIpAddressFamilies_normalise l
  | ipAddrBlocksV2 l => exact encodeIpAddressFamilies_normalise l
  | _ => rfl

theorem decode_of_unregistered {id : UInt32} (h : id ∉ registeredIds) :
    decode id = (do return raw (← rawItem)) := by
  unfold decode
  split <;> first | exact absurd (by decide) h | rfl

variable [LawfulMinicbor]

/-- A value under a registered id. -/
def Valid (D : Demands) : ExtensionValue → Prop
  | subjectKeyIdentifier b => b.length < 2 ^ 64
  | keyUsage _ | inhibitAnyPolicy _ | policyConstraints _ | ocspNoCheck => True
  | subjectAltName names | issuerAltName names => GeneralNamesValid D names
  | basicConstraints bc => bc.Valid
  | crlDistributionPoints dp | freshestCrl dp => DistributionPointName.ListValid D dp
  | certificatePolicies v => v.Valid D
  | authorityKeyIdentifier v => v.Valid D
  | extKeyUsage v => v.Valid D
  | authorityInfoAccess v | subjectInfoAccess v => AccessDescription.ListValid D v
  | subjectDirectoryAttributes v => v.Valid D
  | nameConstraints v => v.Valid D
  | policyMappings v => v.Valid D
  | ipAddrBlocks v | ipAddrBlocksV2 v => FamiliesValid v
  | asIdentifiers v | asIdentifiersV2 v => AsIdsValid v
  | tlsFeatures v => v.length < 2 ^ 64
  | raw b => D.raw b

omit [OidCrate] in
theorem Valid.mono {D E : Demands} (h : D.Meet E) {v : ExtensionValue} (hv : v.Valid D) :
    v.Valid E := by
  cases v with
  | subjectKeyIdentifier _ | keyUsage _ | inhibitAnyPolicy _ | policyConstraints _
    | ocspNoCheck | basicConstraints _ | ipAddrBlocks _ | ipAddrBlocksV2 _ | asIdentifiers _
    | asIdentifiersV2 _ | tlsFeatures _ => exact hv
  | subjectAltName names | issuerAltName names => exact GeneralNamesValid.mono h hv
  | crlDistributionPoints dp | freshestCrl dp => exact DistributionPointName.ListValid.mono h hv
  | certificatePolicies v => exact CertificatePolicies.Valid.mono h hv
  | authorityKeyIdentifier v => exact AuthorityKeyIdentifier.Valid.mono h hv
  | extKeyUsage v => exact ExtKeyUsage.Valid.mono h hv
  | authorityInfoAccess v | subjectInfoAccess v => exact AccessDescription.ListValid.mono h hv
  | subjectDirectoryAttributes v => exact SubjectDirectoryAttributes.Valid.mono h hv
  | nameConstraints v => exact NameConstraints.Valid.mono h hv
  | policyMappings v => exact PolicyMappings.Valid.mono h hv
  | raw b => exact h.raw hv

/-- **The decoder takes one item, or what it keeps raw, whatever the id**, and returns the
variant registered for it. -/
theorem reads [LawfulOid] (id : UInt32) :
    Reads Skipped 1 (decode id) fun v => v.RegisteredFor id ∧ v.Valid .decoded := by
  by_cases hid : id ∈ registeredIds
  · simp only [registeredIds, List.mem_cons, List.not_mem_nil, or_false] at hid
    rcases hid with rfl | rfl | rfl | rfl | rfl | rfl | rfl | rfl | rfl | rfl | rfl | rfl | rfl |
      rfl | rfl | rfl | rfl | rfl | rfl | rfl | rfl | rfl | rfl
    · exact Reads.map reads_bytes fun _ h => ⟨rfl, h⟩
    · exact Reads.map reads_u32 fun _ h => ⟨rfl, h⟩
    · exact Reads.map reads_altName fun _ h => ⟨rfl, h⟩
    · exact Reads.map BasicConstraints.reads fun _ h => ⟨rfl, h⟩
    · exact Reads.map DistributionPointName.reads fun _ h => ⟨rfl, h⟩
    · exact Reads.map CertificatePolicies.reads fun _ h => ⟨rfl, h⟩
    · exact Reads.map AuthorityKeyIdentifier.reads fun _ h => ⟨rfl, h⟩
    · exact Reads.map ExtKeyUsage.reads fun _ h => ⟨rfl, h⟩
    · exact Reads.map AccessDescription.reads fun _ h => ⟨rfl, h⟩
    · exact Reads.map SubjectDirectoryAttributes.reads fun _ h => ⟨rfl, h⟩
    · exact Reads.map reads_altName fun _ h => ⟨rfl, h⟩
    · exact Reads.map NameConstraints.reads fun _ h => ⟨rfl, h⟩
    · exact Reads.map PolicyMappings.reads fun _ h => ⟨rfl, h⟩
    · exact Reads.map PolicyConstraints.reads fun _ h => ⟨rfl, h⟩
    · exact Reads.map DistributionPointName.reads fun _ h => ⟨rfl, h⟩
    · exact Reads.map reads_u32 fun _ h => ⟨rfl, h⟩
    · exact Reads.map AccessDescription.reads fun _ h => ⟨rfl, h⟩
    · exact Reads.map reads_ipAddressFamilies fun _ h => ⟨rfl, h⟩
    · exact Reads.map reads_asIdentifiers fun _ h => ⟨rfl, h⟩
    · exact Reads.map reads_ipAddressFamilies fun _ h => ⟨rfl, h⟩
    · exact Reads.map reads_asIdentifiers fun _ h => ⟨rfl, h⟩
    · exact Reads.map reads_null fun _ h => ⟨rfl, h⟩
    · exact Reads.map (reads_vec reads_u32) fun _ h => ⟨rfl, h.1⟩
  · rw [decode_of_unregistered hid]
    exact Reads.map reads_rawItem fun _ h => ⟨hid, h⟩

/-- **A value is read back normalised under the id it is registered for.** -/
theorem writes [LawfulOid] {v : ExtensionValue} (hv : v.Valid .readBack) {id : UInt32}
    (hid : v.RegisteredFor id) : Writes v.encode (decode id) v.normalise := by
  cases v with
  | raw b =>
      rw [decode_of_unregistered hid]
      exact Writes.map (writes_raw hv)
  | subjectKeyIdentifier b => cases hid; exact Writes.map (writes_bytes hv)
  | keyUsage n => cases hid; exact Writes.map (writes_u32 n)
  | subjectAltName names => cases hid; exact Writes.map (writes_altName hv)
  | basicConstraints bc => cases hid; exact Writes.map (BasicConstraints.writes hv)
  | crlDistributionPoints dp => cases hid; exact Writes.map (DistributionPointName.writes hv)
  | certificatePolicies v => cases hid; exact Writes.map (CertificatePolicies.writes hv)
  | authorityKeyIdentifier v => cases hid; exact Writes.map (AuthorityKeyIdentifier.writes hv)
  | extKeyUsage v => cases hid; exact Writes.map (ExtKeyUsage.writes hv)
  | authorityInfoAccess v => cases hid; exact Writes.map (AccessDescription.writes hv)
  | subjectDirectoryAttributes v =>
      cases hid; exact Writes.map (SubjectDirectoryAttributes.writes hv)
  | issuerAltName names => cases hid; exact Writes.map (writes_altName hv)
  | nameConstraints v => cases hid; exact Writes.map (NameConstraints.writes hv)
  | policyMappings v => cases hid; exact Writes.map (PolicyMappings.writes hv)
  | policyConstraints v => cases hid; exact Writes.map (PolicyConstraints.writes v)
  | freshestCrl dp => cases hid; exact Writes.map (DistributionPointName.writes hv)
  | inhibitAnyPolicy n => cases hid; exact Writes.map (writes_u32 n)
  | subjectInfoAccess v => cases hid; exact Writes.map (AccessDescription.writes hv)
  | ipAddrBlocks v => cases hid; exact Writes.map (writes_ipAddressFamilies hv)
  | asIdentifiers v => cases hid; exact Writes.map (writes_asIdentifiers hv)
  | ipAddrBlocksV2 v => cases hid; exact Writes.map (writes_ipAddressFamilies hv)
  | asIdentifiersV2 v => cases hid; exact Writes.map (writes_asIdentifiers hv)
  | ocspNoCheck => cases hid; exact Writes.map writes_null
  | tlsFeatures v => cases hid; exact Writes.map (writes_vecU32 hv)

theorem logs (id : UInt32) : Logs (decode id) Reserve.Computed := by
  unfold decode
  split
  · exact Logs.bind (logs_lift _) fun _ => Logs.pure _
  · exact Logs.bind (logs_lift _) fun _ => Logs.pure _
  · exact Logs.bind logs_altName fun _ => Logs.pure _
  · exact Logs.bind BasicConstraints.logs fun _ => Logs.pure _
  · exact Logs.bind DistributionPointName.logs fun _ => Logs.pure _
  · exact Logs.bind CertificatePolicies.logs fun _ => Logs.pure _
  · exact Logs.bind AuthorityKeyIdentifier.logs fun _ => Logs.pure _
  · exact Logs.bind ExtKeyUsage.logs fun _ => Logs.pure _
  · exact Logs.bind AccessDescription.logs fun _ => Logs.pure _
  · exact Logs.bind SubjectDirectoryAttributes.logs fun _ => Logs.pure _
  · exact Logs.bind logs_altName fun _ => Logs.pure _
  · exact Logs.bind NameConstraints.logs fun _ => Logs.pure _
  · exact Logs.bind PolicyMappings.logs fun _ => Logs.pure _
  · exact Logs.bind PolicyConstraints.logs fun _ => Logs.pure _
  · exact Logs.bind DistributionPointName.logs fun _ => Logs.pure _
  · exact Logs.bind (logs_lift _) fun _ => Logs.pure _
  · exact Logs.bind AccessDescription.logs fun _ => Logs.pure _
  · exact Logs.bind logs_ipAddressFamilies fun _ => Logs.pure _
  · exact Logs.bind logs_asIdentifiers fun _ => Logs.pure _
  · exact Logs.bind logs_ipAddressFamilies fun _ => Logs.pure _
  · exact Logs.bind logs_asIdentifiers fun _ => Logs.pure _
  · exact Logs.bind (logs_lift _) fun _ => Logs.pure _
  · exact Logs.bind (logs_lift _) fun _ => Logs.pure _
  · exact Logs.bind logs_rawItem fun _ => Logs.pure _

end ExtensionValue

/-! ### Numbers whose sign is criticality -/

section

variable [Minicbor]

/-- `decode_critical_magnitude` -/
def decodeCriticalMagnitude : Dec (UInt32 × Bool) := do
  let raw ← Decoder.i32
  return (unsignedAbs raw, decide (raw < 0))

/-- `encode_critical_i32` -/
def encodeCriticalI32 (value : Int32) (critical : Bool) : Enc := do
  let signed ←
    if critical then
      Printer.get (checkedNeg value) ⟨"id/value of i32::MIN cannot be marked critical"⟩
    else pure value
  Encoder.i32 signed

/-- The signed number that is written. -/
def withSign (value : Int32) (critical : Bool) : Int32 := if critical then -value else value

omit [Minicbor] in
theorem withSign_toInt {value : Int32} (h : 0 ≤ value.toInt) (critical : Bool) :
    (withSign value critical).toInt = if critical then -value.toInt else value.toInt := by
  have hlt := value.toInt_lt
  unfold withSign
  cases critical with
  | false => rfl
  | true =>
      rw [if_pos rfl, if_pos rfl, Int32.toInt_neg]
      exact Int.bmod_eq_of_le (by omega) (by omega)

theorem encodeCriticalI32_eq {value : Int32} (h : 0 ≤ value.toInt) (critical : Bool) :
    encodeCriticalI32 value critical = Encoder.i32 (withSign value critical) := by
  have hne : value ≠ Int32.minValue := by
    rintro rfl
    exact absurd h (by decide)
  unfold encodeCriticalI32 withSign checkedNeg
  cases critical with
  | false => exact Printer.pure_bind _ _
  | true =>
      rw [if_pos rfl, if_neg hne, if_pos rfl]
      exact Printer.pure_bind _ _

theorem encodeCriticalI32_minValue (o : Bytes) :
    (encodeCriticalI32 Int32.minValue true).run ≠ .ok ((), o) := by
  rintro ⟨⟩

variable [LawfulMinicbor]

/-- The magnitude is at most `2^31`, and zero is not critical. -/
theorem reads_criticalMagnitude {X : Bytes → Prop} : Reads X 1 decodeCriticalMagnitude fun x =>
    x.1.toNat ≤ 2 ^ 31 ∧ (x.1.toNat = 2 ^ 31 → x.2 = true) ∧ ¬ (x.1 = 0 ∧ x.2 = true) := by
  refine Reads.map reads_i32 fun raw _ => ?_
  have hlo := raw.le_toInt
  have hhi := raw.toInt_lt
  have hzero : (0 : Int32).toInt = 0 := rfl
  have habs := unsignedAbs_toNat raw
  refine ⟨?_, fun h => ?_, ?_⟩
  · show (unsignedAbs raw).toNat ≤ 2 ^ 31
    omega
  · have h' : (unsignedAbs raw).toNat = 2 ^ 31 := h
    rw [decide_eq_true_eq, Int32.lt_iff_toInt_lt, hzero]
    omega
  · rintro ⟨h, hneg⟩
    rw [decide_eq_true_eq, Int32.lt_iff_toInt_lt, hzero] at hneg
    have h0 : (unsignedAbs raw).toNat = 0 := congrArg UInt32.toNat h
    omega

/-- Zero is the one magnitude whose sign is lost. -/
theorem writes_criticalI32 {value : Int32} (h : 0 ≤ value.toInt) (critical : Bool) :
    Writes (encodeCriticalI32 value critical) decodeCriticalMagnitude
      (value.toUInt32, critical && value ≠ 0) := by
  rw [encodeCriticalI32_eq h]
  have hsign := withSign_toInt h critical
  have hvalue := toNat_toUInt32 h
  have hlt := value.toInt_lt
  have hzero : (0 : Int32).toInt = 0 := rfl
  have habs : unsignedAbs (withSign value critical) = value.toUInt32 := by
    apply UInt32.toNat_inj.mp
    rw [unsignedAbs_toNat, hsign, hvalue]
    split <;> omega
  have hneg : decide (withSign value critical < 0) = (critical && decide (value ≠ 0)) := by
    have hne : value ≠ 0 ↔ value.toInt ≠ 0 := not_congr (by rw [← Int32.toInt_inj, hzero])
    rw [Bool.eq_iff_iff, decide_eq_true_eq, Int32.lt_iff_toInt_lt, hsign, hzero]
    cases critical with
    | false => simpa using h
    | true =>
        rw [if_pos rfl, Bool.true_and, decide_eq_true_eq, hne]
        omega
  have hw := Writes.map (g := fun raw => (unsignedAbs raw, decide (raw < 0)))
    (writes_i32 (withSign value critical))
  rwa [habs, hneg] at hw

theorem starts_criticalI32 {value : Int32} (h : 0 ≤ value.toInt) (critical : Bool) :
    Starts (encodeCriticalI32 value critical) (fun t => t.isInt = true) := by
  rw [encodeCriticalI32_eq h]
  exact starts_i32 _

omit [LawfulMinicbor] in
theorem logs_criticalMagnitude {E : Reserve → Prop} : Logs decodeCriticalMagnitude E :=
  Logs.bind (logs_lift _) fun _ => Logs.pure _

end

/-! ### `Extension` -/

/-- `Extension` -/
structure Extension where
  id : IntOrOid
  critical : Bool
  value : ExtensionValue
  deriving DecidableEq

namespace Extension

def normalise (e : Extension) : Extension := { e with value := e.value.normalise }

variable [Minicbor] [OidCrate]

/-- The value of a critical extension with an OID. -/
def decodeCriticalBytes : Dec (Bool × Bytes) := do
  expectArrayLen 1
  return (true, ← Decoder.bytes)

/-- The value of an extension with an OID, and whether it is critical. -/
def decodeOidValue : Dec (Bool × Bytes) := do
  match ← Decoder.datatype with
  | .array | .arrayIndef => decodeCriticalBytes
  | _ => return (false, ← Decoder.bytes)

def decode : Dec Extension := do
  match ← Decoder.datatype with
  | .bytes =>
      let oid ← decodeOid
      let x ← decodeOidValue
      return { id := .oid oid, critical := x.1, value := .raw x.2 }
  | _ =>
      let x ← decodeCriticalMagnitude
      let value ← ExtensionValue.decode x.1
      return { id := .int x.1.toInt32, critical := x.2, value }

def encodeOidValue (critical : Bool) : ExtensionValue → Enc
  | .raw b =>
      if critical then do
        Encoder.array 1
        Encoder.bytes b
      else Encoder.bytes b
  | _ => refuse "oid-identified extensions must use ExtensionValue::Raw"

def encode (e : Extension) : Enc :=
  match e.id with
  | .int id => do
      encodeCriticalI32 id e.critical
      e.value.encode
  | .oid oid => do
      Encoder.bytes (oidBytes oid)
      encodeOidValue e.critical e.value

theorem encode_normalise (e : Extension) : e.normalise.encode = e.encode := by
  obtain ⟨id, critical, value⟩ := e
  cases id with
  | int id => simp only [encode, normalise, ExtensionValue.encode_normalise]
  | oid oid => cases value <;> rfl

/-- The id is one whose critical form can be written. -/
def IdFits (e : Extension) : Prop := e.id ≠ .int Int32.minValue

variable [LawfulMinicbor]

/--
The value is the one registered for the id, and the id is a magnitude: not negative, and
not critical if zero.  The magnitude `2^31`, which only a critical extension has, is
`i32::MIN` as an id.
-/
def Valid (D : Demands) (e : Extension) : Prop :=
  match e.id with
  | .int id =>
      (0 ≤ id.toInt ∨ id = Int32.minValue ∧ e.critical = true) ∧
        ¬ (id = 0 ∧ e.critical = true) ∧ e.value.RegisteredFor id.toUInt32 ∧
          e.value.Valid D
  | .oid oid => D.oid oid ∧ ∃ b, e.value = .raw b ∧ b.length < 2 ^ 64

omit [OidCrate] in
theorem Valid.mono {D E : Demands} (h : D.Meet E) {e : Extension} (he : e.Valid D) :
    e.Valid E := by
  obtain ⟨id, critical, value⟩ := e
  cases id with
  | int id => exact ⟨he.1, he.2.1, he.2.2.1, he.2.2.2.mono h⟩
  | oid oid => exact ⟨h.oid he.1, he.2⟩

omit [OidCrate] in
theorem reads_oidValue {X : Bytes → Prop} :
    Reads X 1 decodeOidValue fun x => x.2.length < 2 ^ 64 := by
  have harray : Reads X 1 decodeCriticalBytes fun x => x.2.length < 2 ^ 64 :=
    reads_expectArray (Reads.map reads_bytes fun _ h => h)
  refine reads_peek fun t => ?_
  split
  · exact harray
  · exact harray
  · exact Reads.map reads_bytes fun _ h => h

omit [Minicbor] [OidCrate] [LawfulMinicbor] in
/-- A magnitude as an id. -/
theorem id_of_magnitude {n : UInt32} {critical : Bool} (hle : n.toNat ≤ 2 ^ 31)
    (hmax : n.toNat = 2 ^ 31 → critical = true) :
    0 ≤ n.toInt32.toInt ∨ n.toInt32 = Int32.minValue ∧ critical = true := by
  by_cases h : n.toNat = 2 ^ 31
  · obtain rfl : n = 2147483648 := UInt32.toNat_inj.mp h
    exact Or.inr ⟨rfl, hmax h⟩
  · exact Or.inl (by rw [toInt_toInt32 (by omega)]; omega)

theorem reads [LawfulOid] : Reads Skipped 2 decode (Valid .decoded) := by
  refine reads_peek fun t => ?_
  split
  · exact Reads.bind (j := 1) reads_decodeOid fun _ ho =>
      Reads.map reads_oidValue fun x hx => ⟨ho, x.2, rfl, hx⟩
  · refine Reads.bind (j := 1) reads_criticalMagnitude fun x hx =>
      Reads.map (ExtensionValue.reads x.1) fun value hvalue => ⟨?_, ?_, ?_⟩
    · exact id_of_magnitude hx.1 hx.2.1
    · rintro ⟨hid, hcritical⟩
      exact hx.2.2 ⟨by rw [← UInt32.toUInt32_toInt32 x.1, hid]; rfl, hcritical⟩
    · rwa [UInt32.toUInt32_toInt32]

omit [OidCrate] in
theorem writes_oidValue (critical : Bool) {b : Bytes} (hb : b.length < 2 ^ 64) :
    Writes (encodeOidValue critical (.raw b)) decodeOidValue (critical, b) := by
  cases critical with
  | true =>
      refine writes_peek_eq (starts_array 1).bind ?_
      exact Writes.bind (writes_expectArray 1) (Writes.map (writes_bytes hb))
  | false => exact writes_peek_eq (starts_bytes hb) (Writes.map (writes_bytes hb))

theorem writes [LawfulOid] {e : Extension} (he : e.Valid .readBack) (hfits : e.IdFits) :
    Writes e.encode decode e.normalise := by
  obtain ⟨id, critical, value⟩ := e
  cases id with
  | int id =>
      obtain ⟨hid, hcritical, hregistered, hvalue⟩ := he
      have hid' : 0 ≤ id.toInt := hid.resolve_right fun h => hfits (congrArg IntOrOid.int h.1)
      have hsign : (critical && decide (id ≠ 0)) = critical := by
        cases critical with
        | false => rfl
        | true => simpa using hcritical
      have hmagnitude := writes_criticalI32 hid' critical
      rw [hsign] at hmagnitude
      have hstep : Writes (encode { id := .int id, critical, value })
          (do
            let x ← decodeCriticalMagnitude
            let value ← ExtensionValue.decode x.1
            return { id := .int x.1.toInt32, critical := x.2, value } : Dec Extension)
          (normalise { id := .int id, critical, value }) :=
        Writes.bind hmagnitude (Writes.map (ExtensionValue.writes hvalue hregistered))
      refine writes_peek (starts_criticalI32 hid' critical).bind (t := .u8) rfl fun t ht => ?_
      cases t <;> first | exact hstep | cases ht
  | oid oid =>
      obtain ⟨hoid, b, rfl, hb⟩ := he
      refine writes_peek_eq (starts_oid hoid).bind ?_
      exact Writes.bind (writes_oid hoid) (Writes.map (writes_oidValue critical hb))

omit [OidCrate] [LawfulMinicbor] in
theorem logs_decodeOidValue {E : Reserve → Prop} : Logs decodeOidValue E := by
  have hcritical : Logs decodeCriticalBytes E :=
    Logs.bind (logs_expectArrayLen 1) fun _ => Logs.bind (logs_lift _) fun _ => Logs.pure _
  refine Logs.bind (logs_lift _) fun t => ?_
  split
  · exact hcritical
  · exact hcritical
  · exact Logs.bind (logs_lift _) fun _ => Logs.pure _

theorem logs : Logs decode Reserve.Computed := by
  refine Logs.bind (logs_lift _) fun t => ?_
  split
  · exact Logs.bind logs_decodeOid fun _ => Logs.bind logs_decodeOidValue fun _ => Logs.pure _
  · exact Logs.bind logs_criticalMagnitude fun x => Logs.bind (ExtensionValue.logs x.1) fun _ =>
      Logs.pure _

end Extension

/-! ### `Extensions` -/

/-- A list of extensions. -/
structure Extensions where
  exts : List Extension
  deriving DecidableEq

/-- The registry id of `keyUsage`. -/
def KEY_USAGE_ID : Int32 := 2

namespace Extensions

/-- Criticality and value of a list that is one keyUsage extension. -/
def bareKeyUsage (v : Extensions) : Option (Bool × UInt32) :=
  match v.exts with
  | [⟨.int id, critical, .keyUsage n⟩] => if id = KEY_USAGE_ID then some (critical, n) else none
  | _ => none

/-- The list that is one keyUsage extension. -/
def ofKeyUsage (critical : Bool) (n : UInt32) : Extensions :=
  ⟨[{ id := .int KEY_USAGE_ID, critical, value := .keyUsage n }]⟩

theorem bareKeyUsage_eq_some {v : Extensions} {critical : Bool} {n : UInt32} :
    v.bareKeyUsage = some (critical, n) ↔ v = ofKeyUsage critical n := by
  constructor
  · intro h
    obtain ⟨exts⟩ := v
    unfold bareKeyUsage at h
    split at h
    · rename_i id critical' n' hexts
      split at h
      · cases h
        simp only at hexts
        rw [hexts, ‹id = KEY_USAGE_ID›]
        rfl
      · cases h
    · cases h
  · rintro rfl
    rfl

/-- What is read back: no host bits, and no sign on a keyUsage of zero alone. -/
def normalise (v : Extensions) : Extensions :=
  if v.bareKeyUsage = some (true, 0) then ofKeyUsage false 0
  else ⟨v.exts.map Extension.normalise⟩

/-- Every id can be written, and so can a keyUsage value alone. -/
def Encodable (v : Extensions) : Prop :=
  (∀ e ∈ v.exts, e.IdFits) ∧ ∀ critical n, v.bareKeyUsage = some (critical, n) → n.toNat < 2 ^ 31

theorem bareKeyUsage_normalise (v : Extensions) (h : v.bareKeyUsage ≠ some (true, 0)) :
    v.normalise.bareKeyUsage = v.bareKeyUsage := by
  unfold normalise
  rw [if_neg h]
  obtain ⟨exts⟩ := v
  match exts with
  | [] => rfl
  | [⟨.int id, critical, value⟩] => cases value <;> rfl
  | [⟨.oid oid, critical, value⟩] => rfl
  | ⟨id, critical, value⟩ :: _ :: _ => cases id <;> cases value <;> rfl

variable [Minicbor] [OidCrate]

/-- The form `[ * Extension ]`. -/
def decodeList : Dec Extensions := do
  return ⟨← decodeGroups (withCapacity .extensions) 2
    "Extensions array must have an even number of elements" Extension.decode⟩

/-- A keyUsage extension alone: its criticality is the sign. -/
def decodeKeyUsage : Dec Extensions := do
  let x ← decodeCriticalMagnitude
  return ofKeyUsage x.2 x.1

def decode : Dec Extensions := do
  match ← Decoder.datatype with
  | .array | .arrayIndef => decodeList
  | _ => decodeKeyUsage

def encodeKeyUsage (critical : Bool) (n : UInt32) : Enc :=
  match i32TryFrom n with
  | some magnitude => encodeCriticalI32 magnitude critical
  | none => refuse "KeyUsage value too large to encode as a signed CBOR int"

def encode (v : Extensions) : Enc :=
  match v.bareKeyUsage with
  | some (critical, n) => encodeKeyUsage critical n
  | none => encodeGroups 2 v.exts Extension.encode

/-- **What normalising drops never reaches the wire.** -/
theorem encode_normalise (v : Extensions) : v.normalise.encode = v.encode := by
  by_cases h : v.bareKeyUsage = some (true, 0)
  · obtain rfl := bareKeyUsage_eq_some.mp h
    have hsign : encodeCriticalI32 0 false = encodeCriticalI32 0 true := by
      rw [encodeCriticalI32_eq (by decide), encodeCriticalI32_eq (by decide)]
      rfl
    exact hsign
  · unfold encode
    rw [bareKeyUsage_normalise v h]
    cases v.bareKeyUsage with
    | some x => rfl
    | none =>
        unfold normalise
        rw [if_neg h]
        exact encodeGroups_map Extension.encode_normalise v.exts

variable [LawfulMinicbor]

def Valid (D : Demands) (v : Extensions) : Prop :=
  v.exts.length * 2 < 2 ^ 64 ∧ ∀ e ∈ v.exts, e.Valid D

omit [OidCrate] in
theorem Valid.mono {D E : Demands} (h : D.Meet E) {v : Extensions} (hv : v.Valid D) :
    v.Valid E := ⟨hv.1, fun e he => (hv.2 e he).mono h⟩

theorem reads_decodeList [LawfulOid] : Reads Skipped 1 decodeList (Valid .decoded) :=
  Reads.map (reads_decodeGroups (reads_withCapacity _) Extension.reads) fun _ h => h

omit [OidCrate] in
theorem valid_ofKeyUsage {D : Demands} {critical : Bool} {n : UInt32} :
    (ofKeyUsage critical n).Valid D := by
  refine ⟨by simp [ofKeyUsage], fun e he => ?_⟩
  rw [List.mem_singleton.mp he]
  exact ⟨Or.inl (by decide), fun h => absurd h.1 (by decide), rfl, trivial⟩

theorem reads [LawfulOid] : Reads Skipped 1 decode (Valid .decoded) := by
  refine reads_peek fun t => ?_
  split
  · exact reads_decodeList
  · exact reads_decodeList
  · exact Reads.map reads_criticalMagnitude fun _ _ => valid_ofKeyUsage

theorem writes_keyUsage {critical : Bool} {n : UInt32} (hn : n.toNat < 2 ^ 31) :
    Writes (encodeKeyUsage critical n) decode (ofKeyUsage critical n).normalise := by
  have hnonneg : 0 ≤ n.toInt32.toInt := by rw [toInt_toInt32 hn]; omega
  have hnormalise : (ofKeyUsage critical n).normalise =
      ofKeyUsage (critical && n.toInt32 ≠ 0) n := by
    have hzero : n.toInt32 = 0 ↔ n = 0 :=
      ⟨fun h => by rw [← UInt32.toUInt32_toInt32 n, h]; rfl, fun h => by rw [h]; rfl⟩
    by_cases hn0 : n = 0
    · subst hn0
      cases critical <;> rfl
    · have hne : (ofKeyUsage critical n).bareKeyUsage ≠ some (true, 0) := by
        rw [bareKeyUsage_eq_some.mpr rfl]
        simp [hn0]
      rw [normalise, if_neg hne]
      simp [ofKeyUsage, Extension.normalise, ExtensionValue.normalise, hzero, hn0]
  rw [encodeKeyUsage, i32TryFrom_eq hn, hnormalise]
  refine writes_peek (starts_criticalI32 hnonneg critical) (t := .u8) rfl fun t ht => ?_
  have hstep := Writes.map (g := fun x => ofKeyUsage x.2 x.1) (writes_criticalI32 hnonneg critical)
  rw [UInt32.toUInt32_toInt32] at hstep
  cases t <;> first | exact hstep | cases ht

/-- **A list that can be written is read back normalised.** -/
theorem writes [LawfulOid] {v : Extensions} (hv : v.Valid .readBack) (hfits : v.Encodable) :
    Writes v.encode decode v.normalise := by
  unfold encode
  cases hbare : v.bareKeyUsage with
  | some x =>
      obtain ⟨critical, n⟩ := x
      obtain rfl := bareKeyUsage_eq_some.mp hbare
      exact writes_keyUsage (hfits.2 critical n hbare)
  | none =>
      rw [normalise, if_neg (by rw [hbare]; simp)]
      refine writes_peek_eq (starts_array _).bind (Writes.map ?_)
      exact writes_decodeGroups (g := Extension.normalise) (by decide) hv.1
        (yields_withCapacity .extensions) fun e he => Extension.writes (hv.2 e he) (hfits.1 e he)

theorem logs : Logs decode Reserve.Computed := by
  have hlist : Logs decodeList Reserve.Computed :=
    Logs.bind (logs_decodeGroups (logs_withCapacity rfl) Extension.logs) fun _ => Logs.pure _
  refine Logs.bind (logs_lift _) fun t => ?_
  split
  · exact hlist
  · exact hlist
  · exact Logs.bind logs_criticalMagnitude fun _ => Logs.pure _

end Extensions

end C509
