/-
General names, and the extensions that hold them (`general_name.rs`,
`authority_key_identifier.rs`, `name_constraints.rs`).

A `GeneralName` carries its registry value beside a variant that implies one.  Only the
decoder keeps the two in step, and the encoder trusts that they are.
-/
import C509Cert.Name

namespace C509

open Cbor Codec

/-! ### Kinds -/

/-- The discriminants of `GeneralNameValue`. -/
inductive GeneralNameKind
  | otherName | hardwareModuleName | smtpUtf8Mailbox | macAddress | rfc822Name | dnsName
  | directoryName | uri | ipAddress | registeredId | raw
  deriving DecidableEq

namespace GeneralNameKind

/-- The registry value; that of `raw` is a sentinel no registry entry has. -/
def repr : GeneralNameKind → Int32
  | otherName => 0
  | hardwareModuleName => -1
  | smtpUtf8Mailbox => -2
  | macAddress => -3
  | rfc822Name => 1
  | dnsName => 2
  | directoryName => 4
  | uri => 6
  | ipAddress => 7
  | registeredId => 8
  | raw => Int32.minValue

def all : List GeneralNameKind :=
  [otherName, hardwareModuleName, smtpUtf8Mailbox, macAddress, rfc822Name, dnsName,
    directoryName, uri, ipAddress, registeredId, raw]

/-- `GeneralNameKind::from_repr` -/
def fromRepr (n : Int32) : Option GeneralNameKind := all.find? fun k => k.repr = n

theorem fromRepr_repr (k : GeneralNameKind) : fromRepr k.repr = some k := by
  cases k <;> decide

theorem repr_of_fromRepr {n : Int32} {k : GeneralNameKind} (h : fromRepr n = some k) :
    k.repr = n := by
  simpa using List.find?_some h

end GeneralNameKind

/-! ### Values -/

/-- `GeneralNameValue` -/
inductive GeneralNameValue
  | otherName (typeId : ObjectIdentifier) (value : Bytes)
  | hardwareModuleName (hwType : ObjectIdentifier) (hwSerialNum : Bytes)
  | smtpUtf8Mailbox (s : String)
  | macAddress (mac : MacAddr)
  | rfc822Name (s : String)
  | dnsName (s : String)
  | directoryName (name : Name)
  | uri (s : String)
  | ipAddress (b : Bytes)
  | registeredId (oid : ObjectIdentifier)
  /-- a type the crate does not decode: the raw item -/
  | raw (item : Bytes)
  deriving DecidableEq

namespace GeneralNameValue

def kind : GeneralNameValue → GeneralNameKind
  | otherName .. => .otherName
  | hardwareModuleName .. => .hardwareModuleName
  | smtpUtf8Mailbox _ => .smtpUtf8Mailbox
  | macAddress _ => .macAddress
  | rfc822Name _ => .rfc822Name
  | dnsName _ => .dnsName
  | directoryName _ => .directoryName
  | uri _ => .uri
  | ipAddress _ => .ipAddress
  | registeredId _ => .registeredId
  | raw _ => .raw

variable [Minicbor] [OidCrate]

/-- The form `[ ~oid, bytes ]` of the two `otherName` kinds. -/
def decodeTyped (make : ObjectIdentifier → Bytes → GeneralNameValue) : Dec GeneralNameValue := do
  expectArrayLen 2
  let oid ← decodeOid
  let value ← Decoder.bytes
  return make oid value

/-- The value of a name of the given kind; a kind without a registry value is kept raw. -/
def decode : Option GeneralNameKind → Dec GeneralNameValue
  | some .macAddress => do return macAddress (← macBytes)
  | some .smtpUtf8Mailbox => do return smtpUtf8Mailbox (← Decoder.str)
  | some .hardwareModuleName => decodeTyped hardwareModuleName
  | some .otherName => decodeTyped otherName
  | some .rfc822Name => do return rfc822Name (← Decoder.str)
  | some .dnsName => do return dnsName (← Decoder.str)
  | some .directoryName => do return directoryName (← Name.decode)
  | some .uri => do return uri (← Decoder.str)
  | some .ipAddress => do return ipAddress (← Decoder.bytes)
  | some .registeredId => do return registeredId (← decodeOid)
  | some .raw | none => do return raw (← rawItem)

def encodeTyped (oid : ObjectIdentifier) (value : Bytes) : Enc := do
  Encoder.array 2
  Encoder.bytes (oidBytes oid)
  Encoder.bytes value

def encode : GeneralNameValue → Enc
  | macAddress mac => Encoder.bytes mac.bytes
  | smtpUtf8Mailbox s => Encoder.str s
  | hardwareModuleName hwType hwSerialNum => encodeTyped hwType hwSerialNum
  | otherName typeId value => encodeTyped typeId value
  | rfc822Name s | dnsName s | uri s => Encoder.str s
  | directoryName name => name.encode
  | ipAddress b => Encoder.bytes b
  | registeredId oid => Encoder.bytes (oidBytes oid)
  | raw item => writeRaw item

variable [LawfulMinicbor]

def Valid (D : Demands) : GeneralNameValue → Prop
  | otherName oid value | hardwareModuleName oid value => D.oid oid ∧ value.length < 2 ^ 64
  | smtpUtf8Mailbox s | rfc822Name s | dnsName s | uri s => (utf8 s).length < 2 ^ 64
  | macAddress _ => True
  | directoryName name => name.Valid D
  | ipAddress b => b.length < 2 ^ 64
  | registeredId oid => D.oid oid
  | raw item => D.raw item

omit [OidCrate] in
theorem Valid.mono {D E : Demands} (h : D.Meet E) {v : GeneralNameValue} (hv : v.Valid D) :
    v.Valid E := by
  cases v with
  | otherName oid value => exact ⟨h.oid hv.1, hv.2⟩
  | hardwareModuleName oid value => exact ⟨h.oid hv.1, hv.2⟩
  | smtpUtf8Mailbox s | rfc822Name s | dnsName s | uri s => exact hv
  | macAddress _ => trivial
  | directoryName name => exact Name.Valid.mono h hv
  | ipAddress b => exact hv
  | registeredId oid => exact h.oid hv
  | raw item => exact h.raw hv

theorem reads_decodeTyped [LawfulOid] {X : Bytes → Prop}
    {make : ObjectIdentifier → Bytes → GeneralNameValue} {P : GeneralNameValue → Prop}
    (hmake : ∀ oid value, oid.Read → value.length < 2 ^ 64 → P (make oid value)) :
    Reads X 1 (decodeTyped make) P :=
  reads_expectArray (Reads.bind reads_decodeOid fun oid hoid =>
    Reads.map reads_bytes fun value hvalue => hmake oid value hoid hvalue)

/-- A value of the kind asked for is read, and a raw one where none was. -/
theorem reads [LawfulOid] (k : Option GeneralNameKind) :
    Reads Skipped 1 (decode k) fun v => v.kind = k.getD .raw ∧ v.Valid .decoded := by
  match k with
  | some .macAddress => exact Reads.map reads_macBytes fun _ h => ⟨rfl, h⟩
  | some .smtpUtf8Mailbox | some .rfc822Name | some .dnsName | some .uri =>
      exact Reads.map reads_str fun _ h => ⟨rfl, h⟩
  | some .hardwareModuleName | some .otherName =>
      exact reads_decodeTyped fun _ _ ho hv => ⟨rfl, ho, hv⟩
  | some .directoryName => exact Reads.map Name.reads fun _ h => ⟨rfl, h⟩
  | some .ipAddress => exact Reads.map reads_bytes fun _ h => ⟨rfl, h⟩
  | some .registeredId => exact Reads.map reads_decodeOid fun _ h => ⟨rfl, h⟩
  | some .raw | none => exact Reads.map reads_rawItem fun _ h => ⟨rfl, h⟩

theorem writes_typed {make : ObjectIdentifier → Bytes → GeneralNameValue} {oid : ObjectIdentifier}
    {value : Bytes} (ho : oid.Valid) (hv : value.length < 2 ^ 64) :
    Writes (encodeTyped oid value) (decodeTyped make) (make oid value) :=
  Writes.bind (writes_expectArray 2) (Writes.bind (writes_oid ho) (Writes.map (writes_bytes hv)))

theorem writes {v : GeneralNameValue} (hv : v.Valid .readBack) {k : Option GeneralNameKind}
    (hk : k.getD .raw = v.kind) : Writes v.encode (decode k) v := by
  have hdecode : decode k = decode (some v.kind) := by
    rw [← hk]
    rcases k with _ | k <;> rfl
  rw [hdecode]
  cases v with
  | otherName oid value => exact writes_typed hv.1 hv.2
  | hardwareModuleName oid value => exact writes_typed hv.1 hv.2
  | smtpUtf8Mailbox s | rfc822Name s | dnsName s | uri s => exact Writes.map (writes_str hv)
  | macAddress mac => exact Writes.map (writes_mac mac)
  | directoryName name => exact Writes.map (Name.writes hv)
  | ipAddress b => exact Writes.map (writes_bytes hv)
  | registeredId oid => exact Writes.map (writes_oid hv)
  | raw item => exact Writes.map (writes_raw hv)

omit [LawfulMinicbor] in
theorem logs_decodeTyped {E : Reserve → Prop}
    (make : ObjectIdentifier → Bytes → GeneralNameValue) : Logs (decodeTyped make) E :=
  Logs.bind (logs_expectArrayLen 2) fun _ => Logs.bind logs_decodeOid fun _ =>
    Logs.bind (logs_lift _) fun _ => Logs.pure _

theorem logs (k : Option GeneralNameKind) : Logs (decode k) Reserve.Computed := by
  match k with
  | some .macAddress => exact Logs.bind logs_macBytes fun _ => Logs.pure _
  | some .smtpUtf8Mailbox | some .rfc822Name | some .dnsName | some .uri | some .ipAddress =>
      exact Logs.bind (logs_lift _) fun _ => Logs.pure _
  | some .hardwareModuleName | some .otherName => exact logs_decodeTyped _
  | some .directoryName => exact Logs.bind Name.logs fun _ => Logs.pure _
  | some .registeredId => exact Logs.bind logs_decodeOid fun _ => Logs.pure _
  | some .raw | none => exact Logs.bind logs_rawItem fun _ => Logs.pure _

end GeneralNameValue

/-! ### General names -/

/-- `GeneralName` -/
structure GeneralName where
  kind : Int32
  value : GeneralNameValue
  deriving DecidableEq

namespace GeneralName

/-- The kind is the registry value of the variant, or the value is raw and the kind is
not in the registry. -/
def KindAgrees (g : GeneralName) : Prop :=
  (g.value.kind ≠ .raw ∧ g.kind = g.value.kind.repr) ∨
    (g.value.kind = .raw ∧ ∀ k : GeneralNameKind, k ≠ .raw → g.kind ≠ k.repr)

/-- The kind and the variant agree where the decoder would pick the variant. -/
theorem kindAgrees_iff {g : GeneralName} :
    g.KindAgrees ↔ (GeneralNameKind.fromRepr g.kind).getD .raw = g.value.kind := by
  constructor
  · rintro (⟨-, hkind⟩ | ⟨hraw, hkind⟩)
    · rw [hkind, GeneralNameKind.fromRepr_repr]
      rfl
    · rw [hraw]
      cases hfrom : GeneralNameKind.fromRepr g.kind with
      | none => rfl
      | some k =>
          by_contra hne
          exact hkind k hne (GeneralNameKind.repr_of_fromRepr hfrom).symm
  · intro h
    by_cases hraw : g.value.kind = .raw
    · refine Or.inr ⟨hraw, fun k hk heq => hk ?_⟩
      rw [heq, GeneralNameKind.fromRepr_repr] at h
      exact h.trans hraw
    · refine Or.inl ⟨hraw, ?_⟩
      cases hfrom : GeneralNameKind.fromRepr g.kind with
      | none =>
          rw [hfrom] at h
          exact absurd h.symm hraw
      | some k =>
          rw [hfrom] at h
          rw [← h]
          exact (GeneralNameKind.repr_of_fromRepr hfrom).symm

variable [Minicbor] [OidCrate]

def decode : Dec GeneralName := do
  let kind ← Decoder.i32
  let value ← GeneralNameValue.decode (GeneralNameKind.fromRepr kind)
  return { kind, value }

def encode (g : GeneralName) : Enc := do
  Encoder.i32 g.kind
  g.value.encode

variable [LawfulMinicbor]

def Valid (D : Demands) (g : GeneralName) : Prop := g.KindAgrees ∧ g.value.Valid D

omit [OidCrate] in
theorem Valid.mono {D E : Demands} (h : D.Meet E) {g : GeneralName} (hg : g.Valid D) :
    g.Valid E := ⟨hg.1, hg.2.mono h⟩

theorem reads [LawfulOid] : Reads Skipped 2 decode (Valid .decoded) :=
  Reads.bind reads_i32 fun _ _ => Reads.map (GeneralNameValue.reads _) fun _ h =>
    ⟨kindAgrees_iff.mpr h.1.symm, h.2⟩

theorem writes {g : GeneralName} (hg : g.Valid .readBack) : Writes g.encode decode g :=
  Writes.bind (writes_i32 g.kind)
    (Writes.map (GeneralNameValue.writes hg.2 (kindAgrees_iff.mp hg.1)))

theorem logs : Logs decode Reserve.Computed :=
  Logs.bind (logs_lift _) fun _ => Logs.bind (GeneralNameValue.logs _) fun _ => Logs.pure _

end GeneralName

/-! ### Lists of general names -/

section Lists

variable [Minicbor] [OidCrate]

/-- `decode_general_names` -/
def decodeGeneralNames : Dec (List GeneralName) :=
  decodeGroups (withCapacity .generalNames) 2
    "GeneralNames array must have an even number of elements" GeneralName.decode

/-- `encode_general_names` -/
def encodeGeneralNames (names : List GeneralName) : Enc := encodeGroups 2 names GeneralName.encode

/-- `decode_alt_name`: general names, or the bare text of one DNS name. -/
def decodeAltName : Dec (List GeneralName) := do
  match ← Decoder.datatype with
  | .string => return [{ kind := 2, value := .dnsName (← Decoder.str) }]
  | _ => decodeGeneralNames

/-- The text of names that are one DNS name. -/
def bareDnsName : List GeneralName → Option String
  | [⟨kind, .dnsName s⟩] => if kind = 2 then some s else none
  | _ => none

/-- `encode_alt_name` -/
def encodeAltName (names : List GeneralName) : Enc :=
  match bareDnsName names with
  | some s => Encoder.str s
  | none => encodeGeneralNames names

variable [LawfulMinicbor]

def GeneralNamesValid (D : Demands) (names : List GeneralName) : Prop :=
  names.length * 2 < 2 ^ 64 ∧ ∀ g ∈ names, g.Valid D

omit [OidCrate] in
theorem GeneralNamesValid.mono {D E : Demands} (h : D.Meet E) {names : List GeneralName}
    (hnames : GeneralNamesValid D names) : GeneralNamesValid E names :=
  ⟨hnames.1, fun g hg => (hnames.2 g hg).mono h⟩

theorem reads_generalNames [LawfulOid] :
    Reads Skipped 1 decodeGeneralNames (GeneralNamesValid .decoded) :=
  reads_decodeGroups (reads_withCapacity _) GeneralName.reads

theorem writes_generalNames {names : List GeneralName} (h : GeneralNamesValid .readBack names) :
    Writes (encodeGeneralNames names) decodeGeneralNames names :=
  writes_groups (by decide) h.1 (yields_withCapacity .generalNames) fun g hg =>
    GeneralName.writes (h.2 g hg)

theorem starts_generalNames (names : List GeneralName) :
    Starts (encodeGeneralNames names) (fun t => t = .array) := (starts_array _).bind

theorem reads_altName [LawfulOid] :
    Reads Skipped 1 decodeAltName (GeneralNamesValid .decoded) := by
  refine reads_peek fun t => ?_
  split
  · refine Reads.map reads_str fun s hs => ⟨by simp, fun g hg => ?_⟩
    rw [List.mem_singleton] at hg
    subst hg
    exact ⟨GeneralName.kindAgrees_iff.mpr rfl, hs⟩
  · exact reads_generalNames

omit [Minicbor] [OidCrate] [LawfulMinicbor] in
theorem bareDnsName_eq_some {names : List GeneralName} {s : String}
    (h : bareDnsName names = some s) : names = [{ kind := 2, value := .dnsName s }] := by
  unfold bareDnsName at h
  split at h
  · split at h
    · cases h
      rename_i hkind
      rw [hkind]
    · cases h
  · cases h

theorem writes_altName {names : List GeneralName} (h : GeneralNamesValid .readBack names) :
    Writes (encodeAltName names) decodeAltName names := by
  unfold encodeAltName
  cases hbare : bareDnsName names with
  | some s =>
      obtain rfl := bareDnsName_eq_some hbare
      have hs : (utf8 s).length < 2 ^ 64 := (h.2 _ (List.mem_singleton_self _)).2
      exact writes_peek_eq (starts_str hs) (Writes.map (writes_str hs))
  | none => exact writes_peek_eq (starts_generalNames names) (writes_generalNames h)

theorem logs_generalNames : Logs decodeGeneralNames Reserve.Computed :=
  logs_decodeGroups (logs_withCapacity rfl) GeneralName.logs

theorem logs_altName : Logs decodeAltName Reserve.Computed := by
  refine Logs.bind (logs_lift _) fun t => ?_
  split
  · exact Logs.bind (logs_lift _) fun _ => Logs.pure _
  · exact logs_generalNames

end Lists

/-! ### `AuthorityKeyIdentifier` -/

/-- `AuthorityKeyIdentifier` -/
structure AuthorityKeyIdentifier where
  keyIdentifier : Bytes
  certIssuer : Option (List GeneralName)
  certSerial : Option BigUint
  deriving DecidableEq

namespace AuthorityKeyIdentifier

variable [Minicbor] [OidCrate]

/-- The form with issuer and serial number. -/
def decodeFull : Dec AuthorityKeyIdentifier := do
  expectArrayLen 3
  let keyIdentifier ← Decoder.bytes
  let certIssuer ← decodeGeneralNames
  let certSerial ← readBiguint
  return { keyIdentifier, certIssuer := some certIssuer, certSerial := some certSerial }

def decode : Dec AuthorityKeyIdentifier := do
  match ← Decoder.datatype with
  | .bytes =>
      return { keyIdentifier := ← Decoder.bytes, certIssuer := none, certSerial := none }
  | _ => decodeFull

def encode (v : AuthorityKeyIdentifier) : Enc :=
  match v.certIssuer, v.certSerial with
  | none, none => Encoder.bytes v.keyIdentifier
  | some issuer, some serial => do
      Encoder.array 3
      Encoder.bytes v.keyIdentifier
      encodeGeneralNames issuer
      Encoder.bytes (biguintBytes serial)
  | _, _ =>
      refuse "AuthorityKeyIdentifier requires both cert_issuer and cert_serial, or neither"

variable [LawfulMinicbor]

/-- Issuer and serial number are given together or not at all. -/
def Valid (D : Demands) (v : AuthorityKeyIdentifier) : Prop :=
  v.keyIdentifier.length < 2 ^ 64 ∧ v.certIssuer.isSome = v.certSerial.isSome ∧
    (∀ names ∈ v.certIssuer, GeneralNamesValid D names) ∧ ∀ n ∈ v.certSerial, BigUint.Valid n

omit [OidCrate] in
theorem Valid.mono {D E : Demands} (h : D.Meet E) {v : AuthorityKeyIdentifier}
    (hv : v.Valid D) : v.Valid E :=
  ⟨hv.1, hv.2.1, fun names hnames => (hv.2.2.1 names hnames).mono h, hv.2.2.2⟩

theorem reads_decodeFull [LawfulOid] : Reads Skipped 1 decodeFull (Valid .decoded) :=
  reads_expectArray (Reads.bind reads_bytes fun _ hkey => Reads.bind reads_generalNames
    fun _ hissuer => Reads.map reads_readBiguint fun _ hserial =>
      ⟨hkey, rfl, by simpa using hissuer, by simpa using hserial⟩)

theorem reads [LawfulOid] : Reads Skipped 1 decode (Valid .decoded) := by
  refine reads_peek fun t => ?_
  split
  · exact Reads.map reads_bytes fun _ hkey => ⟨hkey, rfl, by simp, by simp⟩
  · exact reads_decodeFull

theorem writes {v : AuthorityKeyIdentifier} (hv : v.Valid .readBack) :
    Writes v.encode decode v := by
  obtain ⟨key, issuer, serial⟩ := v
  obtain ⟨hkey, htogether, hissuer, hserial⟩ := hv
  match issuer, serial, htogether with
  | none, none, _ => exact writes_peek_eq (starts_bytes hkey) (Writes.map (writes_bytes hkey))
  | some issuer, some serial, _ =>
      refine writes_peek_eq (starts_array 3).bind ?_
      refine Writes.bind (writes_expectArray 3) (Writes.bind (writes_bytes hkey) ?_)
      refine Writes.bind (writes_generalNames (hissuer issuer rfl)) ?_
      exact Writes.map (writes_biguint (hserial serial rfl))

theorem logs : Logs decode Reserve.Computed := by
  refine Logs.bind (logs_lift _) fun t => ?_
  split
  · exact Logs.bind (logs_lift _) fun _ => Logs.pure _
  · exact Logs.bind (logs_expectArrayLen 3) fun _ => Logs.bind (logs_lift _) fun _ =>
      Logs.bind logs_generalNames fun _ => Logs.bind logs_readBiguint fun _ => Logs.pure _

end AuthorityKeyIdentifier

/-! ### `NameConstraints` -/

/-- `NameConstraints` -/
structure NameConstraints where
  permitted : Option (List GeneralName)
  excluded : Option (List GeneralName)
  deriving DecidableEq

namespace NameConstraints

variable [Minicbor] [OidCrate]

/-- `decode_opt_general_subtree` -/
def decodeOptGeneralSubtree : Dec (Option (List GeneralName)) := do
  if (← Decoder.datatype) = .null then
    Decoder.null
    return none
  else
    return some (← decodeGeneralNames)

/-- `encode_opt_general_subtree` -/
def encodeOptGeneralSubtree : Option (List GeneralName) → Enc
  | some names => encodeGeneralNames names
  | none => Encoder.null

def decode : Dec NameConstraints := do
  expectArrayLen 2
  let permitted ← decodeOptGeneralSubtree
  let excluded ← decodeOptGeneralSubtree
  return { permitted, excluded }

def encode (v : NameConstraints) : Enc := do
  Encoder.array 2
  encodeOptGeneralSubtree v.permitted
  encodeOptGeneralSubtree v.excluded

variable [LawfulMinicbor]

def SubtreeValid (D : Demands) (v : Option (List GeneralName)) : Prop :=
  ∀ names ∈ v, GeneralNamesValid D names

def Valid (D : Demands) (v : NameConstraints) : Prop :=
  SubtreeValid D v.permitted ∧ SubtreeValid D v.excluded

omit [OidCrate] in
theorem Valid.mono {D E : Demands} (h : D.Meet E) {v : NameConstraints} (hv : v.Valid D) :
    v.Valid E :=
  ⟨fun names hnames => (hv.1 names hnames).mono h, fun names hnames => (hv.2 names hnames).mono h⟩

theorem reads_subtree [LawfulOid] :
    Reads Skipped 1 decodeOptGeneralSubtree (SubtreeValid .decoded) := by
  refine reads_peek fun t => ?_
  split
  · exact Reads.map reads_null fun _ _ => by simp [SubtreeValid]
  · exact Reads.map reads_generalNames fun _ h => by simpa [SubtreeValid] using h

theorem writes_subtree {v : Option (List GeneralName)} (hv : SubtreeValid .readBack v) :
    Writes (encodeOptGeneralSubtree v) decodeOptGeneralSubtree v := by
  cases v with
  | none => exact writes_peek_eq starts_null (Writes.map writes_null)
  | some names =>
      exact writes_peek_eq (starts_generalNames names) (Writes.map (writes_generalNames (hv _ rfl)))

theorem logs_subtree : Logs decodeOptGeneralSubtree Reserve.Computed := by
  refine Logs.bind (logs_lift _) fun t => ?_
  split
  · exact Logs.bind (logs_lift _) fun _ => Logs.pure _
  · exact Logs.bind logs_generalNames fun _ => Logs.pure _

theorem reads [LawfulOid] : Reads Skipped 1 decode (Valid .decoded) :=
  reads_expectArray (Reads.bind reads_subtree fun _ hp => Reads.map reads_subtree fun _ he =>
    ⟨hp, he⟩)

theorem writes {v : NameConstraints} (hv : v.Valid .readBack) : Writes v.encode decode v :=
  Writes.bind (writes_expectArray 2)
    (Writes.bind (writes_subtree hv.1) (Writes.map (writes_subtree hv.2)))

theorem logs : Logs decode Reserve.Computed :=
  Logs.bind (logs_expectArrayLen 2) fun _ => Logs.bind logs_subtree fun _ =>
    Logs.bind logs_subtree fun _ => Logs.pure _

end NameConstraints

end C509
