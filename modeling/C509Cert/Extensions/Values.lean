/-
The smaller extension values (`basic_constraints.rs`, `ext_key_usage.rs`,
`access_description.rs`, `distribution_point.rs`, `policy/`,
`subject_directory_attributes.rs`).

Most are flattened arrays of pairs under one header.  Three have a shorter form for one
element, which the decoder tells from the array by its CBOR type.
-/
import C509Cert.Name

namespace C509

open Cbor Codec

/-! ### `BasicConstraints` -/

/-- `BasicConstraints` -/
inductive BasicConstraints
  | notCa
  | ca (pathLen : Option UInt32)
  deriving DecidableEq

namespace BasicConstraints

variable [Minicbor]

/-- -2 is not a CA, -1 a CA without a path length, and the rest the path length. -/
def decode : Dec BasicConstraints := do
  let v ← Decoder.i32
  if v = -2 then return .notCa
  else if v = -1 then return .ca none
  else if 0 ≤ v then return .ca (some v.toUInt32)
  else malformed "invalid basicConstraints value"

def encode : BasicConstraints → Enc
  | .notCa => Encoder.i32 (-2)
  | .ca none => Encoder.i32 (-1)
  | .ca (some n) =>
      match i32TryFrom n with
      | some n => Encoder.i32 n
      | none => refuse "pathLenConstraint too large to encode as a signed CBOR int"

/-- A path length fits the non-negative half of an `i32`. -/
def Valid : BasicConstraints → Prop
  | .ca (some n) => n.toNat < 2 ^ 31
  | _ => True

variable [LawfulMinicbor] {X : Bytes → Prop}

theorem reads : Reads X 1 decode Valid := by
  refine Reads.bind (j := 0) reads_i32 fun v _ => ?_
  split
  · exact Reads.pure trivial
  split
  · exact Reads.pure trivial
  split
  · rename_i hv
    have hv' : 0 ≤ v.toInt := Int32.le_iff_toInt_le.mp hv
    have hlt := v.toInt_lt
    refine Reads.pure ?_
    show v.toUInt32.toNat < 2 ^ 31
    rw [toNat_toUInt32 hv']
    omega
  · exact Reads.fail _

theorem writes {v : BasicConstraints} (hv : v.Valid) : Writes v.encode decode v := by
  match v, hv with
  | .notCa, _ =>
      obtain ⟨c, hc, hy⟩ := writes_i32 (-2)
      exact ⟨c, hc, fun r => by rw [decode, Parser.run_bind_of_ok (hy r)]; rfl⟩
  | .ca none, _ =>
      obtain ⟨c, hc, hy⟩ := writes_i32 (-1)
      exact ⟨c, hc, fun r => by rw [decode, Parser.run_bind_of_ok (hy r)]; rfl⟩
  | .ca (some n), hv =>
      have hn : n.toNat < 2 ^ 31 := hv
      have htoInt := toInt_toInt32 hn
      have hneg2 : n.toInt32 ≠ -2 := by
        intro h
        rw [h] at htoInt
        have : (-2 : Int32).toInt = -2 := rfl
        omega
      have hneg1 : n.toInt32 ≠ -1 := by
        intro h
        rw [h] at htoInt
        have : (-1 : Int32).toInt = -1 := rfl
        omega
      have hnonneg : 0 ≤ n.toInt32 := by
        rw [Int32.le_iff_toInt_le, htoInt]
        exact Int.natCast_nonneg _
      obtain ⟨c, hc, hy⟩ := writes_i32 n.toInt32
      refine ⟨c, ?_, fun r => ?_⟩
      · rw [encode, i32TryFrom, if_pos hn, ← toInt32_eq]
        exact hc
      · rw [decode, Parser.run_bind_of_ok (hy r), if_neg hneg2, if_neg hneg1, if_pos hnonneg]
        rfl

omit [LawfulMinicbor] in
theorem logs {E : Reserve → Prop} : Logs decode E := by
  refine Logs.bind (logs_lift _) fun v => ?_
  split
  · exact Logs.pure _
  split
  · exact Logs.pure _
  split
  · exact Logs.pure _
  · exact Logs.fail _

end BasicConstraints

/-! ### `ExtKeyUsage` -/

/-- `ExtKeyUsage` -/
structure ExtKeyUsage where
  purposes : List IntOrOid
  deriving DecidableEq

namespace ExtKeyUsage

variable [Minicbor] [OidCrate]

/-- An array, which `minicbor` decodes itself, or one purpose alone. -/
def decode : Dec ExtKeyUsage := do
  match ← Decoder.datatype with
  | .array | .arrayIndef => return ⟨← Decoder.vec IntOrOid.minicborDecode⟩
  | _ => return ⟨[← IntOrOid.decode]⟩

def encode (v : ExtKeyUsage) : Enc :=
  match v.purposes with
  | [single] => single.encode
  | purposes => do
      Encoder.array (UInt64.ofNat purposes.length)
      forM purposes IntOrOid.encode

def Valid (D : Demands) (v : ExtKeyUsage) : Prop :=
  v.purposes.length < 2 ^ 64 ∧ ∀ p ∈ v.purposes, p.Valid D

omit [Minicbor] [OidCrate] in
theorem Valid.mono {D E : Demands} (h : D.Meet E) {v : ExtKeyUsage} (hv : v.Valid D) :
    v.Valid E := ⟨hv.1, fun p hp => (hv.2 p hp).mono h⟩

theorem minicborDecode_run_ok {b r : Bytes} {p : IntOrOid} :
    (Decoder.lift IntOrOid.minicborDecode).run b = .ok (p, r) ↔
      IntOrOid.decode.run b = .ok (p, r) := by
  rw [Decoder.lift_run_ok]
  unfold IntOrOid.minicborDecode
  cases IntOrOid.decode.run b with
  | ok v =>
      constructor
      · rintro ⟨⟩
        rfl
      · rintro ⟨⟩
        rfl
  | error e =>
      constructor
      · rintro ⟨⟩
      · rintro ⟨⟩

variable [LawfulMinicbor] {X : Bytes → Prop}

theorem reads_minicborDecode [LawfulOid] :
    Reads X 1 (Decoder.lift IntOrOid.minicborDecode) (IntOrOid.Valid .decoded) := by
  intro b p r hrun
  obtain ⟨c, rfl, hc, hp, hy⟩ := IntOrOid.reads b p r (minicborDecode_run_ok.mp hrun)
  exact ⟨c, rfl, hc, hp, fun r' => minicborDecode_run_ok.mpr (hy r')⟩

theorem writes_minicborDecode {p : IntOrOid} (hp : p.Valid .readBack) :
    Writes p.encode (Decoder.lift IntOrOid.minicborDecode) p := by
  obtain ⟨c, hc, hy⟩ := IntOrOid.writes hp
  exact ⟨c, hc, fun r => minicborDecode_run_ok.mpr (hy r)⟩

theorem reads [LawfulOid] : Reads X 1 decode (Valid .decoded) := by
  have harray : Reads X 1 (do return ⟨← Decoder.vec IntOrOid.minicborDecode⟩ : Dec ExtKeyUsage)
      (Valid .decoded) := Reads.map (reads_vec reads_minicborDecode) fun _ h => h
  refine reads_peek fun t => ?_
  split
  · exact harray
  · exact harray
  · refine Reads.map IntOrOid.reads fun p hp => ⟨by simp, fun q hq => ?_⟩
    rw [List.mem_singleton] at hq
    rwa [hq]

/-- The types a single purpose is written as. -/
theorem starts_single {p : IntOrOid} (hp : p.Valid .readBack) :
    Starts p.encode fun t => t.isInt = true ∨ t = .bytes := by
  cases p with
  | int n => exact (starts_i32 n).weaken fun _ => Or.inl
  | oid o => exact (starts_oid hp).weaken fun _ => Or.inr

theorem writes [LawfulOid] {v : ExtKeyUsage} (hv : v.Valid .readBack) :
    Writes v.encode decode v := by
  obtain ⟨purposes⟩ := v
  obtain ⟨hlen, hpurposes⟩ := hv
  have harray : Writes (do
      Encoder.array (UInt64.ofNat purposes.length)
      forM purposes IntOrOid.encode) decode ⟨purposes⟩ := by
    refine writes_peek_eq (starts_array _).bind (Writes.map ?_)
    exact writes_vec reads_minicborDecode hlen fun p hp => writes_minicborDecode (hpurposes p hp)
  match purposes, hpurposes, harray with
  | [], _, harray => exact harray
  | [single], hpurposes, _ =>
      have hsingle : single.Valid .readBack := hpurposes single (by simp)
      refine writes_peek (starts_single hsingle) (t := .bytes) (Or.inr rfl) fun t ht => ?_
      have hw := Writes.map (g := fun p => (⟨[p]⟩ : ExtKeyUsage)) (IntOrOid.writes hsingle)
      rcases ht with ht | rfl
      · cases t <;> first | exact hw | cases ht
      · exact hw
  | _ :: _ :: _, _, harray => exact harray

omit [LawfulMinicbor] in
theorem logs {E : Reserve → Prop} : Logs decode E := by
  refine Logs.bind (logs_lift _) fun t => ?_
  split
  · exact Logs.bind (logs_lift _) fun _ => Logs.pure _
  · exact Logs.bind (logs_lift _) fun _ => Logs.pure _
  · exact Logs.bind IntOrOid.logs fun _ => Logs.pure _

end ExtKeyUsage

/-! ### `AccessDescription` -/

/-- `AccessDescription` -/
structure AccessDescription where
  accessMethod : IntOrOid
  uri : String
  deriving DecidableEq

namespace AccessDescription

variable [Minicbor] [OidCrate]

def decodeOne : Dec AccessDescription := do
  let accessMethod ← IntOrOid.decode
  let uri ← Decoder.str
  return { accessMethod, uri }

def decode : Dec (List AccessDescription) :=
  decodeGroups (withCapacity .accessDescriptions) 2
    "AccessDescription array must have an even number of elements" decodeOne

def encodeOne (ad : AccessDescription) : Enc := do
  ad.accessMethod.encode
  Encoder.str ad.uri

def encode (v : List AccessDescription) : Enc := encodeGroups 2 v encodeOne

def Valid (D : Demands) (ad : AccessDescription) : Prop :=
  ad.accessMethod.Valid D ∧ (utf8 ad.uri).length < 2 ^ 64

def ListValid (D : Demands) (v : List AccessDescription) : Prop :=
  v.length * 2 < 2 ^ 64 ∧ ∀ ad ∈ v, ad.Valid D

omit [Minicbor] [OidCrate] in
theorem ListValid.mono {D E : Demands} (h : D.Meet E) {v : List AccessDescription}
    (hv : ListValid D v) : ListValid E v :=
  ⟨hv.1, fun ad had => ⟨(hv.2 ad had).1.mono h, (hv.2 ad had).2⟩⟩

variable [LawfulMinicbor] {X : Bytes → Prop}

theorem reads [LawfulOid] : Reads X 1 decode (ListValid .decoded) :=
  reads_decodeGroups (reads_withCapacity _) (Reads.bind IntOrOid.reads fun _ hm =>
    Reads.map reads_str fun _ hs => ⟨hm, hs⟩)

theorem writes {v : List AccessDescription} (hv : ListValid .readBack v) :
    Writes (encode v) decode v :=
  writes_groups (by decide) hv.1 (yields_withCapacity .accessDescriptions) fun ad had =>
    Writes.bind (IntOrOid.writes (hv.2 ad had).1) (Writes.map (writes_str (hv.2 ad had).2))

omit [LawfulMinicbor] in
theorem logs : Logs decode Reserve.Computed :=
  logs_decodeGroups (logs_withCapacity rfl)
    (Logs.bind IntOrOid.logs fun _ => Logs.bind (logs_lift _) fun _ => Logs.pure _)

end AccessDescription

/-! ### `DistributionPointName` -/

/-- `DistributionPointName` -/
structure DistributionPointName where
  fullName : List String
  reasons : Option UInt32
  crlIssuer : Option Name
  deriving DecidableEq

namespace DistributionPointName

variable [Minicbor] [OidCrate]

def decodeFullName : Dec (List String) := do
  match ← Decoder.datatype with
  | .string => return [← Decoder.str]
  | _ => decodeArray (withCapacity .fullName) Decoder.str

def decodeOne : Dec DistributionPointName := do
  expectArrayLen 3
  let fullName ← decodeFullName
  let reasons ← decodeOptUint
  let crlIssuer ← Name.decodeOptional
  return { fullName, reasons, crlIssuer }

/-- Points, or the bare text of one point that is nothing but a name. -/
def decode : Dec (List DistributionPointName) := do
  match ← Decoder.datatype with
  | .string => return [{ fullName := [← Decoder.str], reasons := none, crlIssuer := none }]
  | _ => decodeArray (withCapacity .distributionPoints) decodeOne

def encodeFullName : List String → Enc
  | [single] => Encoder.str single
  | many => do
      Encoder.array (UInt64.ofNat many.length)
      forM many Encoder.str

def encodeOne (dp : DistributionPointName) : Enc := do
  Encoder.array 3
  encodeFullName dp.fullName
  encodeOptUint dp.reasons
  Name.encodeOptional dp.crlIssuer

/-- The text of points that are one point with one name and nothing else. -/
def bareText : List DistributionPointName → Option String
  | [⟨[s], none, none⟩] => some s
  | _ => none

def encode (points : List DistributionPointName) : Enc :=
  match bareText points with
  | some s => Encoder.str s
  | none => do
      Encoder.array (UInt64.ofNat points.length)
      forM points encodeOne

variable [LawfulMinicbor] {X : Bytes → Prop}

def FullNameValid (names : List String) : Prop :=
  names.length < 2 ^ 64 ∧ ∀ s ∈ names, (utf8 s).length < 2 ^ 64

def Valid (D : Demands) (dp : DistributionPointName) : Prop :=
  FullNameValid dp.fullName ∧ Name.OptionalValid D dp.crlIssuer

def ListValid (D : Demands) (points : List DistributionPointName) : Prop :=
  points.length < 2 ^ 64 ∧ ∀ dp ∈ points, dp.Valid D

omit [OidCrate] in
theorem ListValid.mono {D E : Demands} (h : D.Meet E) {points : List DistributionPointName}
    (hpoints : ListValid D points) : ListValid E points :=
  ⟨hpoints.1, fun dp hdp => ⟨(hpoints.2 dp hdp).1, (hpoints.2 dp hdp).2.mono h⟩⟩

omit [OidCrate] in
theorem reads_fullName : Reads X 1 decodeFullName FullNameValid := by
  refine reads_peek fun t => ?_
  split
  · refine Reads.map reads_str fun s hs => ⟨by simp, fun s' hs' => ?_⟩
    rw [List.mem_singleton] at hs'
    rwa [hs']
  · exact reads_decodeArray (reads_withCapacity _) reads_str

theorem reads_one [LawfulOid] : Reads X 1 decodeOne (Valid .decoded) :=
  reads_expectArray (Reads.bind reads_fullName fun _ hname => Reads.bind reads_decodeOptUint
    fun _ _ => Reads.map Name.reads_optional fun _ hissuer => ⟨hname, hissuer⟩)

theorem reads [LawfulOid] : Reads X 1 decode (ListValid .decoded) := by
  refine reads_peek fun t => ?_
  split
  · refine Reads.map reads_str fun s hs => ⟨by simp, fun dp hdp => ?_⟩
    rw [List.mem_singleton] at hdp
    subst hdp
    exact ⟨⟨by simp, by simpa using hs⟩, by simp [Name.OptionalValid]⟩
  · exact reads_decodeArray (reads_withCapacity _) reads_one

omit [OidCrate] in
theorem writes_fullName {names : List String} (h : FullNameValid names) :
    Writes (encodeFullName names) decodeFullName names := by
  have harray : Writes (do
      Encoder.array (UInt64.ofNat names.length)
      forM names Encoder.str) decodeFullName names := by
    refine writes_peek_eq (starts_array _).bind ?_
    exact writes_decodeArray h.1 (yields_withCapacity .fullName) fun s hs => writes_str (h.2 s hs)
  match names, h, harray with
  | [], _, harray => exact harray
  | [single], h, _ =>
      have hs : (utf8 single).length < 2 ^ 64 := h.2 single (by simp)
      exact writes_peek_eq (starts_str hs) (Writes.map (writes_str hs))
  | _ :: _ :: _, _, harray => exact harray

theorem writes_one {dp : DistributionPointName} (h : dp.Valid .readBack) :
    Writes dp.encodeOne decodeOne dp :=
  Writes.bind (writes_expectArray 3) (Writes.bind (writes_fullName h.1)
    (Writes.bind (writes_optUint dp.reasons) (Writes.map (Name.writes_optional h.2))))

omit [Minicbor] [OidCrate] [LawfulMinicbor] in
theorem bareText_eq_some {points : List DistributionPointName} {s : String}
    (h : bareText points = some s) :
    points = [{ fullName := [s], reasons := none, crlIssuer := none }] := by
  unfold bareText at h
  split at h
  · cases h
    rfl
  · cases h

theorem writes {points : List DistributionPointName} (h : ListValid .readBack points) :
    Writes (encode points) decode points := by
  unfold encode
  cases hbare : bareText points with
  | some s =>
      obtain rfl := bareText_eq_some hbare
      have hs : (utf8 s).length < 2 ^ 64 := (h.2 _ (List.mem_singleton_self _)).1.2 s (by simp)
      exact writes_peek_eq (starts_str hs) (Writes.map (writes_str hs))
  | none =>
      refine writes_peek_eq (starts_array _).bind ?_
      exact writes_decodeArray h.1 (yields_withCapacity .distributionPoints)
        fun dp hdp => writes_one (h.2 dp hdp)

theorem logs : Logs decode Reserve.Computed := by
  have hfull : Logs decodeFullName Reserve.Computed := by
    refine Logs.bind (logs_lift _) fun t => ?_
    split
    · exact Logs.bind (logs_lift _) fun _ => Logs.pure _
    · exact logs_decodeArray (logs_withCapacity rfl) (logs_lift _)
  have hone : Logs decodeOne Reserve.Computed :=
    Logs.bind (logs_expectArrayLen 3) fun _ => Logs.bind hfull fun _ =>
      Logs.bind logs_decodeOptUint fun _ => Logs.bind Name.logs_optional fun _ => Logs.pure _
  refine Logs.bind (logs_lift _) fun t => ?_
  split
  · exact Logs.bind (logs_lift _) fun _ => Logs.pure _
  · exact logs_decodeArray (logs_withCapacity rfl) hone

end DistributionPointName

/-! ### Policies -/

/-- `PolicyQualifierInfo` -/
structure PolicyQualifierInfo where
  id : IntOrOid
  qualifier : String
  deriving DecidableEq

namespace PolicyQualifierInfo

variable [Minicbor] [OidCrate]

def decode : Dec PolicyQualifierInfo := do
  let id ← IntOrOid.decode
  let qualifier ← Decoder.str
  return { id, qualifier }

def encode (q : PolicyQualifierInfo) : Enc := do
  q.id.encode
  Encoder.str q.qualifier

def Valid (D : Demands) (q : PolicyQualifierInfo) : Prop :=
  q.id.Valid D ∧ (utf8 q.qualifier).length < 2 ^ 64

end PolicyQualifierInfo

/-- `CertificatePolicies` -/
structure CertificatePolicies where
  policies : List (IntOrOid × List PolicyQualifierInfo)
  deriving DecidableEq

namespace CertificatePolicies

variable [Minicbor] [OidCrate]

/-- `decode_policy_qualifiers` -/
def decodePolicyQualifiers : Dec (List PolicyQualifierInfo) :=
  decodeGroups (withCapacity .policyQualifiers) 2
    "PolicyQualifierInfo array must have an even number of elements" PolicyQualifierInfo.decode

/-- `encode_policy_qualifiers` -/
def encodePolicyQualifiers (v : List PolicyQualifierInfo) : Enc :=
  encodeGroups 2 v PolicyQualifierInfo.encode

def decodeOne : Dec (IntOrOid × List PolicyQualifierInfo) := do
  let policyIdentifier ← IntOrOid.decode
  let qualifiers ← decodePolicyQualifiers
  return (policyIdentifier, qualifiers)

def decode : Dec CertificatePolicies := do
  return ⟨← decodeGroups (withCapacity .certificatePolicies) 2
    "CertificatePolicies array must have an even number of elements" decodeOne⟩

def encodeOne (policy : IntOrOid × List PolicyQualifierInfo) : Enc := do
  policy.1.encode
  encodePolicyQualifiers policy.2

def encode (v : CertificatePolicies) : Enc := encodeGroups 2 v.policies encodeOne

def PolicyValid (D : Demands) (policy : IntOrOid × List PolicyQualifierInfo) : Prop :=
  policy.1.Valid D ∧ policy.2.length * 2 < 2 ^ 64 ∧ ∀ q ∈ policy.2, q.Valid D

def Valid (D : Demands) (v : CertificatePolicies) : Prop :=
  v.policies.length * 2 < 2 ^ 64 ∧ ∀ policy ∈ v.policies, PolicyValid D policy

omit [Minicbor] [OidCrate] in
theorem Valid.mono {D E : Demands} (h : D.Meet E) {v : CertificatePolicies} (hv : v.Valid D) :
    v.Valid E := by
  refine ⟨hv.1, fun policy hpolicy => ?_⟩
  obtain ⟨hid, hlen, hqualifiers⟩ := hv.2 policy hpolicy
  exact ⟨hid.mono h, hlen, fun q hq => ⟨(hqualifiers q hq).1.mono h, (hqualifiers q hq).2⟩⟩

variable [LawfulMinicbor] {X : Bytes → Prop}

theorem reads_one [LawfulOid] : Reads X 2 decodeOne (PolicyValid .decoded) :=
  Reads.bind (j := 1) IntOrOid.reads fun _ hid => Reads.map (reads_decodeGroups
    (reads_withCapacity _) (Reads.bind IntOrOid.reads fun _ hq => Reads.map reads_str
      fun _ hs => ⟨hq, hs⟩)) fun _ hq => ⟨hid, hq⟩

theorem reads [LawfulOid] : Reads X 1 decode (Valid .decoded) :=
  Reads.map (reads_decodeGroups (reads_withCapacity _) reads_one) fun _ h => h

theorem writes_one {policy : IntOrOid × List PolicyQualifierInfo}
    (h : PolicyValid .readBack policy) :
    Writes (encodeOne policy) decodeOne policy := by
  have hqualifiers : Writes (encodePolicyQualifiers policy.2) decodePolicyQualifiers policy.2 :=
    writes_groups (by decide) h.2.1 (yields_withCapacity .policyQualifiers) fun q hq =>
      Writes.bind (IntOrOid.writes (h.2.2 q hq).1) (Writes.map (writes_str (h.2.2 q hq).2))
  exact Writes.bind (IntOrOid.writes h.1) (Writes.map hqualifiers)

theorem writes {v : CertificatePolicies} (hv : v.Valid .readBack) :
    Writes v.encode decode v := by
  refine Writes.map ?_
  exact writes_groups (by decide) hv.1 (yields_withCapacity .certificatePolicies)
    fun policy hp => writes_one (hv.2 policy hp)

omit [LawfulMinicbor] in
theorem logs : Logs decode Reserve.Computed := by
  have hqualifiers : Logs decodePolicyQualifiers Reserve.Computed :=
    logs_decodeGroups (logs_withCapacity rfl)
      (Logs.bind IntOrOid.logs fun _ => Logs.bind (logs_lift _) fun _ => Logs.pure _)
  have hone : Logs decodeOne Reserve.Computed :=
    Logs.bind IntOrOid.logs fun _ => Logs.bind hqualifiers fun _ => Logs.pure _
  exact Logs.bind (logs_decodeGroups (logs_withCapacity rfl) hone) fun _ => Logs.pure _

end CertificatePolicies

/-- `PolicyConstraints` -/
structure PolicyConstraints where
  requireExplicitPolicy : Option UInt32
  inhibitPolicyMapping : Option UInt32
  deriving DecidableEq

namespace PolicyConstraints

variable [Minicbor]

def decode : Dec PolicyConstraints := do
  expectArrayLen 2
  let requireExplicitPolicy ← decodeOptUint
  let inhibitPolicyMapping ← decodeOptUint
  return { requireExplicitPolicy, inhibitPolicyMapping }

def encode (v : PolicyConstraints) : Enc := do
  Encoder.array 2
  encodeOptUint v.requireExplicitPolicy
  encodeOptUint v.inhibitPolicyMapping

variable [LawfulMinicbor] {X : Bytes → Prop}

theorem reads : Reads X 1 decode fun _ => True :=
  reads_expectArray (Reads.bind reads_decodeOptUint fun _ _ =>
    Reads.map reads_decodeOptUint fun _ _ => trivial)

theorem writes (v : PolicyConstraints) : Writes v.encode decode v :=
  Writes.bind (writes_expectArray 2)
    (Writes.bind (writes_optUint _) (Writes.map (writes_optUint _)))

omit [LawfulMinicbor] in
theorem logs {E : Reserve → Prop} : Logs decode E :=
  Logs.bind (logs_expectArrayLen 2) fun _ => Logs.bind logs_decodeOptUint fun _ =>
    Logs.bind logs_decodeOptUint fun _ => Logs.pure _

end PolicyConstraints

/-- `PolicyMappings` -/
structure PolicyMappings where
  mappings : List (IntOrOid × IntOrOid)
  deriving DecidableEq

namespace PolicyMappings

variable [Minicbor] [OidCrate]

def decodeOne : Dec (IntOrOid × IntOrOid) := do
  let issuerDomainPolicy ← IntOrOid.decode
  let subjectDomainPolicy ← IntOrOid.decode
  return (issuerDomainPolicy, subjectDomainPolicy)

def decode : Dec PolicyMappings := do
  return ⟨← decodeGroups (withCapacity .policyMappings) 2
    "PolicyMappings array must have an even number of elements" decodeOne⟩

def encodeOne (mapping : IntOrOid × IntOrOid) : Enc := do
  mapping.1.encode
  mapping.2.encode

def encode (v : PolicyMappings) : Enc := encodeGroups 2 v.mappings encodeOne

def Valid (D : Demands) (v : PolicyMappings) : Prop :=
  v.mappings.length * 2 < 2 ^ 64 ∧ ∀ p ∈ v.mappings, p.1.Valid D ∧ p.2.Valid D

omit [Minicbor] [OidCrate] in
theorem Valid.mono {D E : Demands} (h : D.Meet E) {v : PolicyMappings} (hv : v.Valid D) :
    v.Valid E :=
  ⟨hv.1, fun p hp => ⟨(hv.2 p hp).1.mono h, (hv.2 p hp).2.mono h⟩⟩

variable [LawfulMinicbor] {X : Bytes → Prop}

theorem reads [LawfulOid] : Reads X 1 decode (Valid .decoded) :=
  Reads.map (reads_decodeGroups (reads_withCapacity _) (Reads.bind IntOrOid.reads fun _ ha =>
    Reads.map IntOrOid.reads fun _ hb => ⟨ha, hb⟩)) fun _ h => h

theorem writes {v : PolicyMappings} (hv : v.Valid .readBack) : Writes v.encode decode v := by
  refine Writes.map ?_
  exact writes_groups (by decide) hv.1 (yields_withCapacity .policyMappings) fun p hp =>
    Writes.bind (IntOrOid.writes (hv.2 p hp).1) (Writes.map (IntOrOid.writes (hv.2 p hp).2))

omit [LawfulMinicbor] in
theorem logs : Logs decode Reserve.Computed :=
  Logs.bind (logs_decodeGroups (logs_withCapacity rfl)
    (Logs.bind IntOrOid.logs fun _ => Logs.bind IntOrOid.logs fun _ => Logs.pure _))
    fun _ => Logs.pure _

end PolicyMappings

/-! ### `SubjectDirectoryAttributes` -/

/-- `RdnAttributes`: the multi-valued attribute. -/
abbrev RdnAttributes := RdnAttr (List SpecialText) (List Bytes)

/-- `SubjectDirectoryAttributes` -/
structure SubjectDirectoryAttributes where
  attrs : List RdnAttributes
  deriving DecidableEq

namespace SubjectDirectoryAttributes

variable [Minicbor] [OidCrate]

def decode : Dec SubjectDirectoryAttributes := do
  return ⟨← decodeGroups (withCapacity .directoryAttributes) 2
    "SubjectDirectoryAttributes array must have an even number of elements" RdnAttr.decode⟩

def encode (v : SubjectDirectoryAttributes) : Enc := encodeGroups 2 v.attrs RdnAttr.encode

variable [LawfulMinicbor] {X : Bytes → Prop}

def Valid (D : Demands) (v : SubjectDirectoryAttributes) : Prop :=
  v.attrs.length * 2 < 2 ^ 64 ∧ ∀ a ∈ v.attrs, a.Valid D

omit [OidCrate] in
theorem Valid.mono {D E : Demands} (h : D.Meet E) {v : SubjectDirectoryAttributes}
    (hv : v.Valid D) : v.Valid E := ⟨hv.1, fun a ha => (hv.2 a ha).mono h⟩

theorem reads [LawfulOid] : Reads X 1 decode (Valid .decoded) :=
  Reads.map (reads_decodeGroups (reads_withCapacity _) RdnAttr.reads) fun _ h => h

theorem writes {v : SubjectDirectoryAttributes} (hv : v.Valid .readBack) :
    Writes v.encode decode v := by
  refine Writes.map ?_
  exact writes_groups (by decide) hv.1 (yields_withCapacity .directoryAttributes) fun a ha =>
    RdnAttr.writes (hv.2 a ha)

theorem logs : Logs decode Reserve.Computed :=
  Logs.bind (logs_decodeGroups (logs_withCapacity rfl) RdnAttr.logs) fun _ => Logs.pure _

end SubjectDirectoryAttributes

end C509
