/-
Names and their attributes (`name.rs`, and `SpecialText` and `RdnAttr` of `common.rs`).

An attribute's string type has no field on the wire: it is the sign of the attribute's
id, so a registered attribute with id 0 cannot be a printable string.  A name of one
plain common name is written as the bare value.
-/
import C509Cert.Common

namespace C509

open Cbor Codec

/-! ### `SpecialText` -/

/-- An attribute value: text, raw bytes, or a tagged MAC address. -/
inductive SpecialText
  | text (s : String)
  | bytes (b : Bytes)
  | mac (m : MacAddr)
  deriving DecidableEq

/-- The CBOR tag of a MAC address. -/
def MAC_ADDRESS_TAG : UInt64 := 48

namespace SpecialText

variable [Minicbor]

/-- The tagged form. -/
def decodeTagged : Dec SpecialText := do
  let tag ← Decoder.tag
  ensure (tag = MAC_ADDRESS_TAG) "unexpected tag in SpecialText"
  return .mac (← macBytes)

def decode : Dec SpecialText := do
  match ← Decoder.datatype with
  | .string => return .text (← Decoder.str)
  | .bytes => return .bytes (← Decoder.bytes)
  | .tag => decodeTagged
  | _ => malformed "expected text, bytes or tag for SpecialText"

def encode : SpecialText → Enc
  | .text s => Encoder.str s
  | .bytes b => Encoder.bytes b
  | .mac m => do
      Encoder.tag MAC_ADDRESS_TAG
      Encoder.bytes m.bytes

def Valid : SpecialText → Prop
  | .text s => (utf8 s).length < 2 ^ 64
  | .bytes b => b.length < 2 ^ 64
  | .mac _ => True

/-- The types a value is written as. -/
def IsType (t : DataType) : Prop := t = .string ∨ t = .bytes ∨ t = .tag

variable [LawfulMinicbor] {X : Bytes → Prop}

theorem reads_decodeTagged : Reads X 1 decodeTagged Valid :=
  reads_tag fun _ => Reads.step (Reads.ensure _) fun _ _ =>
    Reads.map reads_macBytes fun _ _ => trivial

theorem reads : Reads X 1 decode Valid := by
  refine reads_peek fun t => ?_
  split
  · exact Reads.map reads_str fun _ h => h
  · exact Reads.map reads_bytes fun _ h => h
  · exact reads_decodeTagged
  · exact Reads.fail _

theorem starts {v : SpecialText} (hv : v.Valid) : Starts v.encode IsType := by
  cases v with
  | text s => exact (starts_str hv).weaken fun t ht => Or.inl ht
  | bytes b => exact (starts_bytes hv).weaken fun t ht => Or.inr (Or.inl ht)
  | mac m => exact (starts_tag MAC_ADDRESS_TAG).bind.weaken fun t ht => Or.inr (Or.inr ht)

theorem writes {v : SpecialText} (hv : v.Valid) : Writes v.encode decode v := by
  cases v with
  | text s => exact writes_peek_eq (starts_str hv) (Writes.map (writes_str hv))
  | bytes b => exact writes_peek_eq (starts_bytes hv) (Writes.map (writes_bytes hv))
  | mac m =>
      refine writes_peek_eq (starts_tag MAC_ADDRESS_TAG).bind ?_
      refine Writes.bind (writes_tag _) (Writes.step (a := ()) (fun _ => rfl) ?_)
      exact Writes.map (writes_mac m)

omit [LawfulMinicbor] in
theorem logs {E : Reserve → Prop} : Logs decode E := by
  refine Logs.bind (logs_lift _) fun t => ?_
  split
  · exact Logs.bind (logs_lift _) fun _ => Logs.pure _
  · exact Logs.bind (logs_lift _) fun _ => Logs.pure _
  · exact Logs.bind (logs_lift _) fun _ => Logs.bind (Logs.ensure _ _) fun _ =>
      Logs.bind logs_macBytes fun _ => Logs.pure _
  · exact Logs.fail _

end SpecialText

/-! ### Attribute values -/

section

variable [Minicbor]

/-- `RdnValue`: a value of an attribute, or an array of them. -/
class RdnValue (α : Type) where
  decode : Dec α
  encode : α → Enc

/-- An attribute value that can be read back. -/
class LawfulRdnValue (α : Type) [RdnValue α] where
  Valid : α → Prop
  reads {X : Bytes → Prop} : Reads X 1 (RdnValue.decode : Dec α) Valid
  writes {v : α} (hv : Valid v) : Writes (RdnValue.encode v) RdnValue.decode v
  logs : Logs (RdnValue.decode : Dec α) Reserve.Computed

instance : RdnValue SpecialText where
  decode := SpecialText.decode
  encode := SpecialText.encode

instance : RdnValue Bytes where
  decode := Decoder.bytes
  encode := Encoder.bytes

instance {α : Type} [RdnValue α] : RdnValue (List α) where
  decode := decodeArray (withBoundedCapacity .rdnValues) RdnValue.decode
  encode l := do
    Encoder.array (UInt64.ofNat l.length)
    forM l RdnValue.encode

variable [LawfulMinicbor]

instance : LawfulRdnValue SpecialText where
  Valid := SpecialText.Valid
  reads := SpecialText.reads
  writes := SpecialText.writes
  logs := SpecialText.logs

instance : LawfulRdnValue Bytes where
  Valid b := b.length < 2 ^ 64
  reads := reads_bytes
  writes := writes_bytes
  logs := logs_lift _

instance {α : Type} [RdnValue α] [LawfulRdnValue α] : LawfulRdnValue (List α) where
  Valid l := l.length < 2 ^ 64 ∧ ∀ v ∈ l, LawfulRdnValue.Valid v
  reads := reads_decodeArray (reads_withBoundedCapacity _) LawfulRdnValue.reads
  writes hl := writes_decodeArray hl.1 (yields_withBoundedCapacity .rdnValues)
    fun v hv => LawfulRdnValue.writes (hl.2 v hv)
  logs := logs_decodeArray (logs_withBoundedCapacity rfl) LawfulRdnValue.logs

end

/-! ### `RdnAttr` -/

/-- An attribute: a registered id or an OID, with a value of type `S` or `B`. -/
inductive RdnAttr (S B : Type)
  | registered (id : UInt16) (printableString : Bool) (value : S)
  | oid (oid : ObjectIdentifier) (value : B)
  deriving DecidableEq

/-- The attribute type on the wire: negative for a printable string. -/
def attributeType (id : UInt16) (printableString : Bool) : Int32 :=
  if printableString then -(Int32.ofNat id.toNat) else Int32.ofNat id.toNat

theorem attributeType_toInt (id : UInt16) (printableString : Bool) :
    (attributeType id printableString).toInt =
      if printableString then -(id.toNat : Int) else id.toNat := by
  have hid := id.toNat_lt
  have hof : (Int32.ofNat id.toNat).toInt = id.toNat := Int32.toInt_ofNat_of_lt (by omega)
  unfold attributeType
  cases printableString with
  | false => simpa using hof
  | true =>
      rw [if_pos rfl, if_pos rfl, Int32.neg_ofNat]
      exact Int32.toInt_ofInt_of_le (by omega) (by omega)

/-- The sign and the magnitude of an attribute type give back the attribute. -/
theorem attributeType_inv {id : UInt16} {printableString : Bool}
    (h : ¬ (id = 0 ∧ printableString = true)) :
    u16TryFrom (unsignedAbs (attributeType id printableString)) = some id ∧
      decide (attributeType id printableString < 0) = printableString := by
  have htoInt := attributeType_toInt id printableString
  have hid := id.toNat_lt
  have hzero : (0 : Int32).toInt = 0 := rfl
  constructor
  · unfold u16TryFrom
    rw [unsignedAbs_toNat, htoInt]
    have habs : (if printableString = true then -(id.toNat : Int) else id.toNat).natAbs =
        id.toNat := by
      split <;> omega
    rw [habs, if_pos hid, UInt16.ofNat_toNat]
  · cases printableString with
    | false =>
        rw [decide_eq_false_iff_not, Int32.lt_iff_toInt_lt, htoInt, hzero]
        simp
    | true =>
        have hne : id.toNat ≠ 0 := fun h0 => h ⟨UInt16.toNat_inj.mp h0, rfl⟩
        rw [decide_eq_true_eq, Int32.lt_iff_toInt_lt, htoInt, hzero, if_pos rfl]
        omega

namespace RdnAttr

variable [Minicbor] [OidCrate] {S B : Type} [RdnValue S] [RdnValue B]

def decode : Dec (RdnAttr S B) := do
  match ← Decoder.datatype with
  | .bytes =>
      let o ← decodeOid
      return .oid o (← RdnValue.decode)
  | _ =>
      let raw ← Decoder.i32
      let id ← okOr (u16TryFrom (unsignedAbs raw))
        "attributeType out of range for a registered id"
      return .registered id (decide (raw < 0)) (← RdnValue.decode)

def encode : RdnAttr S B → Enc
  | .registered id printableString value => do
      Encoder.i32 (attributeType id printableString)
      RdnValue.encode value
  | .oid o value => do
      Encoder.bytes (oidBytes o)
      RdnValue.encode value

variable [LawfulMinicbor] [LawfulRdnValue S] [LawfulRdnValue B] {X : Bytes → Prop}

/-- The string type of id 0 cannot be told from its sign. -/
def Valid (D : Demands) : RdnAttr S B → Prop
  | .registered id printableString value =>
      ¬ (id = 0 ∧ printableString = true) ∧ LawfulRdnValue.Valid value
  | .oid o value => D.oid o ∧ LawfulRdnValue.Valid value

omit [OidCrate] [LawfulMinicbor] in
theorem Valid.mono {D E : Demands} (h : D.Meet E) {a : RdnAttr S B} (ha : a.Valid D) :
    a.Valid E := by
  cases a with
  | registered id printableString value => exact ha
  | oid o value => exact ⟨h.oid ha.1, ha.2⟩

theorem reads [LawfulOid] : Reads X 2 (decode : Dec (RdnAttr S B)) (Valid .decoded) := by
  refine reads_peek fun t => ?_
  split
  · exact Reads.bind reads_decodeOid fun o ho =>
      Reads.map LawfulRdnValue.reads fun v hv => ⟨ho, hv⟩
  · refine Reads.bind (j := 1) reads_i32 fun raw _ => Reads.step (Reads.get _ _) fun id hid =>
      Reads.map LawfulRdnValue.reads fun v hv => ⟨?_, hv⟩
    rintro ⟨rfl, hneg⟩
    have hneg' : raw.toInt < 0 := Int32.lt_iff_toInt_lt.mp (of_decide_eq_true hneg)
    unfold u16TryFrom at hid
    rw [unsignedAbs_toNat] at hid
    split at hid
    · have hzero := congrArg UInt16.toNat (Option.some.inj hid)
      rw [UInt16.toNat_ofNat_of_lt' ‹_›] at hzero
      have : (0 : UInt16).toNat = 0 := rfl
      omega
    · cases hid

theorem writes {a : RdnAttr S B} (ha : a.Valid .readBack) : Writes a.encode decode a := by
  cases a with
  | registered id printableString value =>
      refine writes_peek (starts_i32 _).bind (t := .u8) rfl fun t ht => ?_
      obtain ⟨hid, hsign⟩ := attributeType_inv ha.1
      have hstep : Writes (encode (.registered id printableString value : RdnAttr S B))
          (do
            let raw ← Decoder.i32
            let id ← okOr (u16TryFrom (unsignedAbs raw))
              "attributeType out of range for a registered id"
            return .registered id (decide (raw < 0)) (← RdnValue.decode) : Dec (RdnAttr S B))
          (.registered id printableString value) := by
        refine Writes.bind (writes_i32 _) (Writes.step (a := id) (fun r => ?_) ?_)
        · rw [hid]
          rfl
        · rw [hsign]
          exact Writes.map (LawfulRdnValue.writes ha.2)
      cases t <;> first | exact hstep | cases ht
  | oid o value =>
      refine writes_peek_eq (starts_oid ha.1).bind ?_
      exact Writes.bind (writes_oid ha.1) (Writes.map (LawfulRdnValue.writes ha.2))

omit [LawfulMinicbor] in
theorem logs : Logs (decode : Dec (RdnAttr S B)) Reserve.Computed := by
  refine Logs.bind (logs_lift _) fun t => ?_
  split
  · exact Logs.bind logs_decodeOid fun _ => Logs.bind LawfulRdnValue.logs fun _ => Logs.pure _
  · exact Logs.bind (logs_lift _) fun _ => Logs.bind (Logs.get _ _) fun _ =>
      Logs.bind LawfulRdnValue.logs fun _ => Logs.pure _

end RdnAttr

/-! ### `Name` -/

/-- Registry id of `commonName`. -/
def COMMON_NAME_ID : UInt16 := 1

/-- `RdnAttribute`: the single-valued attribute of a name. -/
abbrev RdnAttribute := RdnAttr SpecialText Bytes

/-- A sequence of attributes. -/
structure Name where
  attrs : List RdnAttribute
  deriving DecidableEq

namespace Name

/-- The value of a name that is one plain common name. -/
def bareValue (name : Name) : Option SpecialText :=
  match name.attrs with
  | [.registered id false value] => if id = COMMON_NAME_ID then some value else none
  | _ => none

theorem bareValue_eq_some {name : Name} {value : SpecialText} (h : name.bareValue = some value) :
    name = ⟨[.registered COMMON_NAME_ID false value]⟩ := by
  obtain ⟨attrs⟩ := name
  unfold bareValue at h
  split at h
  · rename_i id v hattrs
    split at h
    · cases h
      simp only at hattrs
      rw [hattrs, ‹id = COMMON_NAME_ID›]
    · cases h
  · cases h

variable [Minicbor] [OidCrate]

/-- The form `[ * RDNAttribute ]`. -/
def decodeAttributes : Dec Name := do
  return ⟨← decodeGroups (withCapacity .name) 2
    "Name array must have an even number of elements" RdnAttr.decode⟩

def decode : Dec Name := do
  match ← Decoder.datatype with
  | .array | .arrayIndef => decodeAttributes
  -- a single common name, as the bare value
  | _ => return ⟨[.registered COMMON_NAME_ID false (← SpecialText.decode)]⟩

/-- `Name / null`, where `null` says the name is left out. -/
def decodeOptional : Dec (Option Name) := do
  if (← Decoder.datatype) = .null then
    Decoder.null
    return none
  else
    return some (← Name.decode)

def encode (name : Name) : Enc :=
  match name.bareValue with
  | some value => value.encode
  | none => encodeGroups 2 name.attrs RdnAttr.encode

def encodeOptional : Option Name → Enc
  | none => Encoder.null
  | some name => name.encode

/-- The types a name is written as. -/
def IsType (t : DataType) : Prop := t = .array ∨ SpecialText.IsType t

variable [LawfulMinicbor] {X : Bytes → Prop}

def Valid (D : Demands) (name : Name) : Prop :=
  name.attrs.length * 2 < 2 ^ 64 ∧ ∀ a ∈ name.attrs, a.Valid D

def OptionalValid (D : Demands) (name : Option Name) : Prop := ∀ n ∈ name, n.Valid D

omit [OidCrate] in
theorem Valid.mono {D E : Demands} (h : D.Meet E) {name : Name} (hname : name.Valid D) :
    name.Valid E := ⟨hname.1, fun a ha => (hname.2 a ha).mono h⟩

omit [OidCrate] in
theorem OptionalValid.mono {D E : Demands} (h : D.Meet E) {name : Option Name}
    (hname : OptionalValid D name) : OptionalValid E name := fun n hn => (hname n hn).mono h

theorem reads_decodeAttributes [LawfulOid] : Reads X 1 decodeAttributes (Valid .decoded) :=
  Reads.map (reads_decodeGroups (reads_withCapacity _) RdnAttr.reads) fun _ h => h

theorem reads [LawfulOid] : Reads X 1 decode (Valid .decoded) := by
  refine reads_peek fun t => ?_
  split
  · exact reads_decodeAttributes
  · exact reads_decodeAttributes
  · refine Reads.map SpecialText.reads fun v hv => ⟨by simp, fun a ha => ?_⟩
    rw [List.mem_singleton] at ha
    subst ha
    exact ⟨by decide, hv⟩

theorem reads_optional [LawfulOid] : Reads X 1 decodeOptional (OptionalValid .decoded) := by
  refine reads_peek fun t => ?_
  split
  · exact Reads.map reads_null fun _ _ => by simp [OptionalValid]
  · exact Reads.map reads fun _ h => by simpa [OptionalValid] using h

theorem starts {name : Name} (hname : name.Valid .readBack) : Starts name.encode IsType := by
  unfold encode
  cases hbare : name.bareValue with
  | some value =>
      obtain rfl := bareValue_eq_some hbare
      exact (SpecialText.starts (hname.2 _ (List.mem_singleton_self _)).2).weaken fun _ => Or.inr
  | none => exact (starts_array _).bind.weaken fun _ => Or.inl

theorem writes {name : Name} (hname : name.Valid .readBack) : Writes name.encode decode name := by
  unfold encode
  cases hbare : name.bareValue with
  | some value =>
      obtain rfl := bareValue_eq_some hbare
      have hv : value.Valid := (hname.2 _ (List.mem_singleton_self _)).2
      refine writes_peek (SpecialText.starts hv) (t := .string) (Or.inl rfl) fun t ht => ?_
      rcases ht with rfl | rfl | rfl <;> exact Writes.map (SpecialText.writes hv)
  | none =>
      refine writes_peek_eq (starts_array _).bind (Writes.map ?_)
      exact writes_groups (by decide) hname.1 (yields_withCapacity .name) fun a ha =>
        RdnAttr.writes (hname.2 a ha)

theorem writes_optional {name : Option Name} (hname : OptionalValid .readBack name) :
    Writes (encodeOptional name) decodeOptional name := by
  cases name with
  | none => exact writes_peek_eq starts_null (Writes.map writes_null)
  | some n =>
      have hn : n.Valid .readBack := hname n rfl
      refine writes_peek (starts hn) (t := .array) (Or.inl rfl) fun t ht => ?_
      rw [if_neg (by rintro rfl; rcases ht with h | h | h | h <;> cases h)]
      exact Writes.map (writes hn)

theorem logs : Logs decode Reserve.Computed := by
  have harray : Logs decodeAttributes Reserve.Computed :=
    Logs.bind (logs_decodeGroups (logs_withCapacity rfl) RdnAttr.logs) fun _ => Logs.pure _
  refine Logs.bind (logs_lift _) fun t => ?_
  split
  · exact harray
  · exact harray
  · exact Logs.bind SpecialText.logs fun _ => Logs.pure _

theorem logs_optional : Logs decodeOptional Reserve.Computed := by
  refine Logs.bind (logs_lift _) fun t => ?_
  split
  · exact Logs.bind (logs_lift _) fun _ => Logs.pure _
  · exact Logs.bind logs fun _ => Logs.pure _

end Name

end C509
