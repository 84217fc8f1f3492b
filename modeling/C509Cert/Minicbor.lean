/-
What the crate calls of `minicbor`, as a parameter.

`minicbor` is not part of the repository, so its decoder and encoder enter the
development as the functions of a class, and what the crate relies on as the named
laws of another: each typed read accepts the item of its type and stops at its end,
`skip` accepts every item, though not only items, and each write produces the shortest
head.  A decoder is represented by the input it has still to read; the crate only ever
moves one forwards.

A read returns the value and the remaining input.  Errors stay opaque: the laws say
when a read succeeds and with what, never what it reports otherwise.
-/
import C509Cert.Cbor.Skip

open Cbor

/-- `minicbor::data::Type` -/
inductive DataType
  | bool | null | undefined
  | u8 | u16 | u32 | u64
  | i8 | i16 | i32 | i64 | int
  | f16 | f32 | f64 | simple
  | bytes | bytesIndef | string | stringIndef
  | array | arrayIndef | map | mapIndef
  | tag | break
  | unknown (n : UInt8)
  deriving DecidableEq

/-- The width of a negative integer needs the first bit of its argument. -/
def signedType (narrow wide : DataType) : Bytes → Option DataType
  | [] => none
  | y :: _ => some (if y.toNat < 0x80 then narrow else wide)

/-- The type of a string, array or map, by the additional information of its head. -/
def sizedType (definite indefinite : DataType) (x : UInt8) (a : Nat) : DataType :=
  if a < 28 then definite else if a = 31 then indefinite else .unknown x

/-- The type of the item at the front of an input, by its first bytes. -/
def typeOf : Bytes → Option DataType
  | [] => none
  | x :: r =>
      let a := x.toNat % 32
      match x.toNat / 32 with
      | 0 =>
          if a ≤ 24 then some .u8
          else if a = 25 then some .u16
          else if a = 26 then some .u32
          else if a = 27 then some .u64
          else some (.unknown x)
      | 1 =>
          if a < 24 then some .i8
          else if a = 24 then signedType .i8 .i16 r
          else if a = 25 then signedType .i16 .i32 r
          else if a = 26 then signedType .i32 .i64 r
          else if a = 27 then signedType .i64 .int r
          else some (.unknown x)
      | 2 => some (sizedType .bytes .bytesIndef x a)
      | 3 => some (sizedType .string .stringIndef x a)
      | 4 => some (sizedType .array .arrayIndef x a)
      | 5 => some (sizedType .map .mapIndef x a)
      | 6 => some (if a < 28 then .tag else .unknown x)
      | _ =>
          match a with
          | 20 | 21 => some .bool
          | 22 => some .null
          | 23 => some .undefined
          | 25 => some .f16
          | 26 => some .f32
          | 27 => some .f64
          | 31 => some .break
          | a => some (if a ≤ 24 then .simple else .unknown x)

/-! ### What the first bytes decide

The type of an item is decided by its first byte, or its first two, and those are
part of the item.
-/

/-- Only a negative integer with an argument of its own needs a second byte. -/
theorem typeOf_cons {x : UInt8}
    (hx : x.toNat / 32 = 1 → x.toNat % 32 < 24 ∨ 28 ≤ x.toNat % 32) (r : Bytes) :
    typeOf (x :: r) = typeOf [x] := by
  by_cases hm : x.toNat / 32 = 1
  · simp only [typeOf, hm]
    rcases hx hm with hlt | hge
    · simp only [if_pos hlt]
    · rw [if_neg (by omega), if_neg (by omega), if_neg (by omega), if_neg (by omega),
        if_neg (by omega), if_neg (by omega), if_neg (by omega), if_neg (by omega),
        if_neg (by omega), if_neg (by omega)]
  · simp only [typeOf]
    split <;> first | rfl | exact absurd ‹_› hm

/-- The type of what starts with enough of a head does not depend on what follows it. -/
theorem typeOf_append {c : Bytes} (hc : Headed c) (r r' : Bytes) :
    typeOf (c ++ r) = typeOf (c ++ r') := by
  obtain ⟨x, t, rfl, hx | ht⟩ := hc
  · rw [List.cons_append, List.cons_append, typeOf_cons hx, typeOf_cons hx (t ++ r')]
  · cases t with
    | nil => exact absurd rfl ht
    | cons y t => rfl

/-- The types of integers. -/
def DataType.isInt : DataType → Bool
  | .u8 | .u16 | .u32 | .u64 | .i8 | .i16 | .i32 | .i64 | .int => true
  | _ => false

theorem signedType_isInt {narrow wide : DataType} (hn : narrow.isInt = true)
    (hw : wide.isInt = true) {b : Bytes} (hb : b ≠ []) :
    ∃ t, t.isInt = true ∧ signedType narrow wide b = some t := by
  cases b with
  | nil => exact absurd rfl hb
  | cons y b =>
      refine ⟨_, ?_, rfl⟩
      split <;> assumption

/-- An integer is seen to be one. -/
theorem typeOf_intHead {v : Int} {h : Bytes} (hh : IntHead v h) :
    ∃ t, t.isInt = true ∧ ∀ r, typeOf (h ++ r) = some t := by
  obtain ⟨m, n, hm, hh⟩ := hh.exists_head
  have hitem : Items 1 h := by simpa using Items.int hm hh Items.nil
  suffices hsome : ∃ t, t.isInt = true ∧ typeOf h = some t by
    obtain ⟨t, ht, heq⟩ := hsome
    exact ⟨t, ht, fun r => by rw [typeOf_append hitem.headed r [], List.append_nil, heq]⟩
  obtain ⟨x, t, heq, htail⟩ := hitem.headed
  obtain ⟨x', t', heq', hdiv, hmod⟩ := hh.exists_cons (by omega)
  rw [heq] at heq' ⊢
  cases heq'
  unfold typeOf
  simp only [hdiv]
  interval_cases m
  · simp only
    split_ifs <;> first | exact ⟨_, rfl, rfl⟩ | omega
  · simp only
    have ht : ¬ x.toNat % 32 < 24 → t ≠ [] := fun h => htail.resolve_left fun h' =>
      (h' hdiv).elim h (by omega)
    split_ifs with h1 h2 h3 h4 h5
    · exact ⟨_, rfl, rfl⟩
    · exact signedType_isInt rfl rfl (ht h1)
    · exact signedType_isInt rfl rfl (ht h1)
    · exact signedType_isInt rfl rfl (ht h1)
    · exact signedType_isInt rfl rfl (ht h1)
    · omega

/-- The type of the items of major types 2 to 6. -/
def majorType : Nat → DataType
  | 2 => .bytes
  | 3 => .string
  | 4 => .array
  | 5 => .map
  | _ => .tag

theorem typeOf_head {m n : Nat} {h : Bytes} (hm : 2 ≤ m) (hm' : m ≤ 6) (hh : Head m n h)
    (r : Bytes) : typeOf (h ++ r) = some (majorType m) := by
  obtain ⟨x, t, rfl, hdiv, hmod⟩ := hh.exists_cons (by omega)
  rw [List.cons_append]
  unfold typeOf
  simp only [hdiv]
  interval_cases m <;> simp only [sizedType, if_pos hmod, majorType]

/-! ### The functions and their laws -/

/-- `f` reads the elements of `l` one after the other. -/
inductive EachRead {ε α : Type} (f : Bytes → Except ε (α × Bytes)) : List α → Bytes → Bytes → Prop
  | nil {b : Bytes} : EachRead f [] b b
  | cons {x : α} {l : List α} {b b' r : Bytes} (hx : f b = .ok (x, b')) (hl : EachRead f l b' r) :
      EachRead f (x :: l) b r

/-- `f` reads the elements of `l` one after the other, and then comes a break. -/
inductive EachUntilBreak {ε α : Type} (f : Bytes → Except ε (α × Bytes)) :
    List α → Bytes → Bytes → Prop
  | nil {r : Bytes} : EachUntilBreak f [] (breakByte :: r) r
  | cons {x : α} {l : List α} {b b' r : Bytes} (hb : ∀ t, b ≠ breakByte :: t)
      (hx : f b = .ok (x, b')) (hl : EachUntilBreak f l b' r) : EachUntilBreak f (x :: l) b r

/-- The functions of `minicbor` the crate calls. -/
class Minicbor where
  /-- `decode::Error` -/
  Err : Type
  /-- `decode::Error::message` -/
  message : String → Err
  /-- `Decoder::datatype`, which does not move the decoder -/
  datatype : Bytes → Except Err DataType
  readU16 : Bytes → Except Err (UInt16 × Bytes)
  readU32 : Bytes → Except Err (UInt32 × Bytes)
  readU64 : Bytes → Except Err (UInt64 × Bytes)
  readI32 : Bytes → Except Err (Int32 × Bytes)
  /-- `Decoder::int`, an integer in `-2^64 ..= 2^64 - 1` -/
  readInt : Bytes → Except Err (Int × Bytes)
  readBytes : Bytes → Except Err (Bytes × Bytes)
  readStr : Bytes → Except Err (String × Bytes)
  /-- `Decoder::array`: the element count, or `none` for an indefinite-length array -/
  readArray : Bytes → Except Err (Option UInt64 × Bytes)
  readTag : Bytes → Except Err (UInt64 × Bytes)
  readNull : Bytes → Except Err (Unit × Bytes)
  skip : Bytes → Except Err (Unit × Bytes)
  /-- `Decode for Vec<T>`, given the `Decode` of `T` -/
  readVec {α : Type} : (Bytes → Except Err (α × Bytes)) → Bytes → Except Err (List α × Bytes)
  writeU16 : UInt16 → Bytes
  writeU32 : UInt32 → Bytes
  writeU64 : UInt64 → Bytes
  writeI32 : Int32 → Bytes
  writeInt : Int → Bytes
  writeBytes : Bytes → Bytes
  writeStr : String → Bytes
  writeArray : UInt64 → Bytes
  writeTag : UInt64 → Bytes
  writeNull : Bytes
  /-- `Encode for Vec<u32>` -/
  writeVecU32 : List UInt32 → Bytes

/-- `skip` steps over exactly `c`, whatever follows it. -/
def Skipped [Minicbor] (c : Bytes) : Prop := ∀ r, Minicbor.skip (c ++ r) = .ok ((), r)

/-- The byte that is the item `null`. -/
def nullByte : UInt8 := initial 7 22

theorem item_null : Item [nullByte] := by
  have hh : Head 7 22 [nullByte] := Head.short (by omega)
  simpa using Items.simple hh (by simp) Items.nil

/-- The documented behaviour of those functions. -/
class LawfulMinicbor [Minicbor] : Prop where
  datatype_ok {b : Bytes} {t : DataType} : Minicbor.datatype b = .ok t ↔ typeOf b = some t
  readU16_ok {b r : Bytes} {n : UInt16} :
    Minicbor.readU16 b = .ok (n, r) ↔ ∃ h, Head 0 n.toNat h ∧ b = h ++ r
  readU32_ok {b r : Bytes} {n : UInt32} :
    Minicbor.readU32 b = .ok (n, r) ↔ ∃ h, Head 0 n.toNat h ∧ b = h ++ r
  readU64_ok {b r : Bytes} {n : UInt64} :
    Minicbor.readU64 b = .ok (n, r) ↔ ∃ h, Head 0 n.toNat h ∧ b = h ++ r
  readI32_ok {b r : Bytes} {n : Int32} :
    Minicbor.readI32 b = .ok (n, r) ↔ ∃ h, IntHead n.toInt h ∧ b = h ++ r
  readInt_ok {b r : Bytes} {v : Int} :
    Minicbor.readInt b = .ok (v, r) ↔ ∃ h, IntHead v h ∧ b = h ++ r
  readBytes_ok {b s r : Bytes} :
    Minicbor.readBytes b = .ok (s, r) ↔ ∃ h, Head 2 s.length h ∧ b = h ++ s ++ r
  readStr_ok {b r : Bytes} {s : String} :
    Minicbor.readStr b = .ok (s, r) ↔ ∃ h, Head 3 (utf8 s).length h ∧ b = h ++ utf8 s ++ r
  readArray_some {b r : Bytes} {n : UInt64} :
    Minicbor.readArray b = .ok (some n, r) ↔ ∃ h, Head 4 n.toNat h ∧ b = h ++ r
  readArray_none {b r : Bytes} : Minicbor.readArray b = .ok (none, r) ↔ b = initial 4 31 :: r
  readTag_ok {b r : Bytes} {n : UInt64} :
    Minicbor.readTag b = .ok (n, r) ↔ ∃ h, Head 6 n.toNat h ∧ b = h ++ r
  readNull_ok {b r : Bytes} : Minicbor.readNull b = .ok ((), r) ↔ b = nullByte :: r
  /-- `skip` steps over every item. -/
  skip_item {c : Bytes} (hc : Item c) : Skipped c
  /-- It steps over other bytes too, a lone break say, but the bytes alone decide. -/
  skip_skipped {b r : Bytes} (h : Minicbor.skip b = .ok ((), r)) : ∃ c, b = c ++ r ∧ Skipped c
  /-- A definite-length array of elements, or an indefinite-length one and its break, as
  long as the elements are read by something that moves on.  No vector holds `2^64`
  elements, so an indefinite-length array of that many is never read to its end. -/
  readVec_ok {α : Type} {f : Bytes → Except Minicbor.Err (α × Bytes)} {b r : Bytes} {l : List α}
    (hf : ∀ b' x r', f b' = .ok (x, r') → r'.length < b'.length) :
    Minicbor.readVec f b = .ok (l, r) ↔
      (∃ h r', Head 4 l.length h ∧ b = h ++ r' ∧ EachRead f l r' r) ∨
        l.length < 2 ^ 64 ∧ ∃ r', b = initial 4 31 :: r' ∧ EachUntilBreak f l r' r
  writeU16_eq (n : UInt16) : Minicbor.writeU16 n = shortHead 0 n.toNat
  writeU32_eq (n : UInt32) : Minicbor.writeU32 n = shortHead 0 n.toNat
  writeU64_eq (n : UInt64) : Minicbor.writeU64 n = shortHead 0 n.toNat
  writeI32_eq (n : Int32) : Minicbor.writeI32 n = shortInt n.toInt
  writeInt_eq {v : Int} (hlo : -2 ^ 64 ≤ v) (hhi : v < 2 ^ 64) : Minicbor.writeInt v = shortInt v
  writeBytes_eq {s : Bytes} (hs : s.length < 2 ^ 64) :
    Minicbor.writeBytes s = shortHead 2 s.length ++ s
  writeStr_eq {s : String} (hs : (utf8 s).length < 2 ^ 64) :
    Minicbor.writeStr s = shortHead 3 (utf8 s).length ++ utf8 s
  writeArray_eq (n : UInt64) : Minicbor.writeArray n = shortHead 4 n.toNat
  writeTag_eq (n : UInt64) : Minicbor.writeTag n = shortHead 6 n.toNat
  writeNull_eq : Minicbor.writeNull = [nullByte]
  writeVecU32_eq {l : List UInt32} (hl : l.length < 2 ^ 64) :
    Minicbor.writeVecU32 l = shortHead 4 l.length ++ l.flatMap fun n => shortHead 0 n.toNat

/-! ### What `skip` steps over -/

namespace Skipped

variable [Minicbor] {c d r s : Bytes}

/-- No two of them start at one place. -/
theorem unique (hc : Skipped c) (hd : Skipped d) (heq : c ++ r = d ++ s) : c = d ∧ r = s := by
  have hskip := hc r
  rw [heq, hd s] at hskip
  cases hskip
  exact ⟨List.append_cancel_right heq, rfl⟩

variable [LawfulMinicbor]

/-- The start of an item is not stepped over. -/
theorem eq_of_item (hc : Skipped c) (hitem : Item (c ++ r)) : r = [] := by
  have hskip := hc r
  have hall := LawfulMinicbor.skip_item hitem []
  rw [List.append_nil, hskip] at hall
  cases hall
  rfl

theorem headed (hc : Skipped c) : Headed c := by
  cases c with
  | nil =>
      have hzero : Head 0 0 [initial 0 0] := Head.short (by omega)
      cases hc.eq_of_item (r := [initial 0 0]) (hzero.item (by omega))
  | cons x t =>
      refine ⟨x, t, rfl, ?_⟩
      by_contra hno
      obtain ⟨hx, ht⟩ := not_or.mp hno
      obtain ⟨hm, ha⟩ := Classical.not_imp.mp hx
      obtain rfl : t = [] := not_not.mp ht
      -- one byte of a negative integer that has more
      obtain ⟨w, hw, hxw⟩ : ∃ w, w < 4 ∧ x.toNat % 32 = 24 + w :=
        ⟨x.toNat % 32 - 24, by omega, by omega⟩
      have hinitial : x = initial 1 (24 + w) := by
        rw [← UInt8.toNat_inj, initial_toNat (by omega) (by omega)]
        omega
      have hhead : Head 1 0 (initial 1 (24 + w) :: be (2 ^ w) 0) :=
        Head.long w hw (by positivity)
      rw [← hinitial] at hhead
      have hnil := hc.eq_of_item (r := be (2 ^ w) 0) (hhead.item (by omega))
      have hlen : (be (2 ^ w) 0).length = 2 ^ w := be_length _ _
      rw [hnil] at hlen
      have hpos : 0 < 2 ^ w := by positivity
      simp only [List.length_nil] at hlen
      omega

end Skipped
