/-
A `minicbor` that can be run.

The laws of `Minicbor` are met by the obvious reader and writer: read a head, check
its major type and its range, take what it announces.  Its `skip` steps over items, and
over a lone break as well.  Results that need a concrete decoder, to run one on an input,
use this one.
-/
import C509Cert.Minicbor

namespace Minicbor

namespace Reference

open Cbor

/-! ### Reads -/

/-- The argument of a head of major type `m`. -/
def argument (m : Nat) (b : Bytes) : Option (Nat × Bytes) :=
  match readHead b with
  | some (m', n, r) => if m' = m then some (n, r) else none
  | none => none

theorem argument_iff {m n : Nat} {b r : Bytes} (hm : m < 8) :
    argument m b = some (n, r) ↔ ∃ h, Head m n h ∧ b = h ++ r := by
  unfold argument
  constructor
  · intro h
    split at h
    · rename_i m' n' r' hread
      split at h
      · rename_i heq
        cases h
        subst heq
        exact (head_of_readHead hread).2
      · cases h
    · cases h
  · rintro ⟨h, hh, rfl⟩
    rw [readHead_head hm hh]
    simp

/-- An unsigned integer below `size`. -/
def readUint {α : Type} (size : Nat) (ofNat : Nat → α) (b : Bytes) : Except String (α × Bytes) :=
  match argument 0 b with
  | some (n, r) => if n < size then .ok (ofNat n, r) else .error "out of range"
  | none => .error "unexpected type"

theorem readUint_iff {α : Type} {size : Nat} {ofNat : Nat → α} {toNat : α → Nat}
    (hto : ∀ n, n < size → toNat (ofNat n) = n) (hof : ∀ x, ofNat (toNat x) = x)
    (hlt : ∀ x, toNat x < size) {b r : Bytes} {x : α} :
    readUint size ofNat b = .ok (x, r) ↔ ∃ h, Head 0 (toNat x) h ∧ b = h ++ r := by
  rw [← argument_iff (by omega)]
  unfold readUint
  constructor
  · intro h
    split at h
    · rename_i n r' harg
      split at h
      · rename_i hn
        cases h
        rw [hto n hn, harg]
      · cases h
    · cases h
  · intro h
    simp [h, hlt, hof]

/-- An integer of either sign. -/
def readInt (b : Bytes) : Except String (Int × Bytes) :=
  match readHead b with
  | some (0, n, r) => .ok ((n : Int), r)
  | some (1, n, r) => .ok (-1 - (n : Int), r)
  | _ => .error "unexpected type"

theorem readInt_iff {b r : Bytes} {v : Int} :
    readInt b = .ok (v, r) ↔ ∃ h, IntHead v h ∧ b = h ++ r := by
  unfold readInt
  constructor
  · intro h
    split at h
    · rename_i n r' hread
      cases h
      obtain ⟨-, hd, hh, hb⟩ := head_of_readHead hread
      exact ⟨hd, Or.inl ⟨by omega, by simpa using hh⟩, hb⟩
    · rename_i n r' hread
      cases h
      obtain ⟨-, hd, hh, hb⟩ := head_of_readHead hread
      refine ⟨hd, Or.inr ⟨by omega, ?_⟩, hb⟩
      rwa [show (-1 - (-1 - (n : Int))).toNat = n by omega]
    · cases h
  · rintro ⟨hd, ⟨hv, hh⟩ | ⟨hv, hh⟩, rfl⟩
    · rw [readHead_head (by omega) hh]
      simp [Int.toNat_of_nonneg hv]
    · rw [readHead_head (by omega) hh]
      simp only [Except.ok.injEq, Prod.mk.injEq, and_true]
      omega

/-- An integer that fits `i32`. -/
def readI32 (b : Bytes) : Except String (Int32 × Bytes) :=
  match readInt b with
  | .ok (v, r) =>
      if -2 ^ 31 ≤ v ∧ v < 2 ^ 31 then .ok (Int32.ofInt v, r) else .error "out of range"
  | .error e => .error e

theorem readI32_iff {b r : Bytes} {n : Int32} :
    readI32 b = .ok (n, r) ↔ ∃ h, IntHead n.toInt h ∧ b = h ++ r := by
  rw [← readInt_iff]
  unfold readI32
  constructor
  · intro h
    split at h
    · rename_i v r' hread
      split at h
      · rename_i hv
        cases h
        rw [Int32.toInt_ofInt_of_le hv.1 hv.2, hread]
      · cases h
    · cases h
  · intro h
    have hlo := n.le_toInt
    have hhi := n.toInt_lt
    simp only [h, Int32.ofInt_toInt, if_pos (And.intro hlo hhi)]

/-- A string of major type `m`, taken as bytes. -/
def readString (m : Nat) (b : Bytes) : Except String (Bytes × Bytes) :=
  match argument m b with
  | some (n, r) => if n ≤ r.length then .ok (r.take n, r.drop n) else .error "end of input"
  | none => .error "unexpected type"

theorem readString_iff {m : Nat} (hm : m < 8) {b s r : Bytes} :
    readString m b = .ok (s, r) ↔ ∃ h, Head m s.length h ∧ b = h ++ s ++ r := by
  unfold readString
  constructor
  · intro h
    split at h
    · rename_i n t harg
      split at h
      · rename_i hn
        cases h
        obtain ⟨hd, hh, hb⟩ := (argument_iff hm).mp harg
        refine ⟨hd, by rwa [List.length_take_of_le hn], ?_⟩
        rw [hb, List.append_assoc, List.take_append_drop]
      · cases h
    · cases h
  · rintro ⟨hd, hh, rfl⟩
    rw [List.append_assoc, (argument_iff hm).mpr ⟨hd, hh, rfl⟩]
    simp

/-- A text string. -/
def readStr (b : Bytes) : Except String (String × Bytes) :=
  match readString 3 b with
  | .ok (s, r) =>
      match ofUtf8 s with
      | some t => .ok (t, r)
      | none => .error "invalid UTF-8"
  | .error e => .error e

theorem readStr_iff {b r : Bytes} {s : String} :
    readStr b = .ok (s, r) ↔ ∃ h, Head 3 (utf8 s).length h ∧ b = h ++ utf8 s ++ r := by
  rw [← readString_iff (by omega)]
  unfold readStr
  constructor
  · intro h
    split at h
    · rename_i t r' hread
      split at h
      · rename_i s' hs
        cases h
        rw [hread, ofUtf8_iff.mp hs]
      · cases h
    · cases h
  · intro h
    simp only [h, ofUtf8_iff.mpr rfl]

/-- The header of an array. -/
def readArray (b : Bytes) : Except String (Option UInt64 × Bytes) :=
  match argument 4 b with
  | some (n, r) => .ok (some (UInt64.ofNat n), r)
  | none =>
      match b with
      | x :: r => if x = initial 4 31 then .ok (none, r) else .error "unexpected type"
      | [] => .error "end of input"

theorem argument_lt {m n : Nat} {b r : Bytes} (hm : m < 8) (h : argument m b = some (n, r)) :
    n < 2 ^ 64 := by
  obtain ⟨hd, hh, -⟩ := (argument_iff hm).mp h
  exact hh.lt

theorem readArray_some_iff {b r : Bytes} {n : UInt64} :
    readArray b = .ok (some n, r) ↔ ∃ h, Head 4 n.toNat h ∧ b = h ++ r := by
  rw [← argument_iff (by omega)]
  unfold readArray
  constructor
  · intro h
    split at h
    · rename_i k r' harg
      cases h
      rw [UInt64.toNat_ofNat_of_lt' (argument_lt (by omega) harg), harg]
    · split at h
      · split at h <;> cases h
      · cases h
  · intro h
    simp [h]

theorem readArray_none_iff {b r : Bytes} :
    readArray b = .ok (none, r) ↔ b = initial 4 31 :: r := by
  unfold readArray
  constructor
  · intro h
    split at h
    · cases h
    · split at h
      · split at h
        · rename_i hx
          cases h
          rw [hx]
        · cases h
      · cases h
  · rintro rfl
    have harg : argument 4 (initial 4 31 :: r) = none := rfl
    simp [harg]

/-- The number of a tag. -/
def readTag (b : Bytes) : Except String (UInt64 × Bytes) :=
  match argument 6 b with
  | some (n, r) => .ok (UInt64.ofNat n, r)
  | none => .error "unexpected type"

theorem readTag_iff {b r : Bytes} {n : UInt64} :
    readTag b = .ok (n, r) ↔ ∃ h, Head 6 n.toNat h ∧ b = h ++ r := by
  rw [← argument_iff (by omega)]
  unfold readTag
  constructor
  · intro h
    split at h
    · rename_i k r' harg
      cases h
      rw [UInt64.toNat_ofNat_of_lt' (argument_lt (by omega) harg), harg]
    · cases h
  · intro h
    simp [h]

/-- The item `null`. -/
def readNull : Bytes → Except String (Unit × Bytes)
  | x :: r => if x = nullByte then .ok ((), r) else .error "unexpected type"
  | [] => .error "end of input"

theorem readNull_iff {b r : Bytes} : readNull b = .ok ((), r) ↔ b = nullByte :: r := by
  cases b with
  | nil => simp [readNull]
  | cons x t =>
      unfold readNull
      by_cases hx : x = nullByte <;> simp [hx]

/-- Step over an item, or over a break that stands alone. -/
def skip (b : Bytes) : Except String (Unit × Bytes) :=
  match Cbor.skip b with
  | some r => .ok ((), r)
  | none =>
      match b with
      | x :: r => if x = breakByte then .ok ((), r) else .error "end of input"
      | [] => .error "end of input"

theorem skip_item {c : Bytes} (hc : Item c) (r : Bytes) : skip (c ++ r) = .ok ((), r) := by
  have hskip : Cbor.skip (c ++ r) = some r := skip_iff.mpr ⟨c, hc, rfl⟩
  simp only [skip, hskip]

theorem skip_break (r : Bytes) : skip (breakByte :: r) = .ok ((), r) := by
  have hskip : Cbor.skip (breakByte :: r) = none := by
    rw [← Option.not_isSome_iff_eq_none, Option.isSome_iff_exists]
    rintro ⟨t, ht⟩
    obtain ⟨c, hc, heq⟩ := skip_iff.mp ht
    obtain ⟨x, c', rfl, hx⟩ := hc.cons_ne_break
    exact hx (List.cons.inj heq).1.symm
  simp only [skip, hskip, if_pos]

/-- What was stepped over is stepped over again, whatever follows it. -/
theorem skip_again {b r : Bytes} (h : skip b = .ok ((), r)) :
    ∃ c, b = c ++ r ∧ ∀ s, skip (c ++ s) = .ok ((), s) := by
  unfold skip at h
  split at h
  · rename_i t hskip
    cases h
    obtain ⟨c, hc, rfl⟩ := skip_iff.mp hskip
    exact ⟨c, rfl, skip_item hc⟩
  · split at h
    · split at h
      · rename_i hx
        cases h
        exact ⟨[breakByte], by rw [hx]; rfl, skip_break⟩
      · cases h
    · cases h

/-! ### Vectors -/

section Vectors

variable {α : Type} (f : Bytes → Except String (α × Bytes))

/-- Read `n` elements. -/
def readTimes : Nat → Bytes → Except String (List α × Bytes)
  | 0, b => .ok ([], b)
  | n + 1, b =>
      match f b with
      | .error e => .error e
      | .ok (x, b') =>
          match readTimes n b' with
          | .error e => .error e
          | .ok (l, r) => .ok (x :: l, r)

/-- Read elements up to a break, `fuel` bytes being left. -/
def readUntilBreak : Nat → Bytes → Except String (List α × Bytes)
  | 0, _ => .error "end of input"
  | _ + 1, [] => .error "end of input"
  | fuel + 1, y :: t =>
      if y = breakByte then .ok ([], t)
      else
        match f (y :: t) with
        | .error e => .error e
        | .ok (x, b') =>
            match readUntilBreak fuel b' with
            | .error e => .error e
            | .ok (l, r) => .ok (x :: l, r)

/-- `Decode for Vec<T>` -/
def readVec (b : Bytes) : Except String (List α × Bytes) :=
  match readArray b with
  | .error e => .error e
  | .ok (some n, r) => readTimes f n.toNat r
  | .ok (none, r) =>
      match readUntilBreak f (r.length + 1) r with
      | .error e => .error e
      | .ok (l, r') => if l.length < 2 ^ 64 then .ok (l, r') else .error "out of memory"

variable {f}

theorem readTimes_iff : ∀ {n : Nat} {b r : Bytes} {l : List α},
    readTimes f n b = .ok (l, r) ↔ l.length = n ∧ EachRead f l b r := by
  intro n
  induction n with
  | zero =>
      intro b r l
      constructor
      · intro h
        cases h
        exact ⟨rfl, EachRead.nil⟩
      · rintro ⟨hlen, h⟩
        cases h with
        | nil => rfl
        | cons hx hl => cases hlen
  | succ n ih =>
      intro b r l
      constructor
      · intro h
        rw [readTimes] at h
        split at h
        · cases h
        · rename_i x b' hx
          split at h
          · cases h
          · rename_i l' r' hrest
            cases h
            obtain ⟨hlen, hl⟩ := ih.mp hrest
            exact ⟨by simp [hlen], EachRead.cons hx hl⟩
      · rintro ⟨hlen, h⟩
        cases h with
        | nil => cases hlen
        | cons hx hl =>
            have hrest := ih.mpr ⟨Nat.succ.inj hlen, hl⟩
            simp [readTimes, hx, hrest]

theorem readUntilBreak_iff (hf : ∀ b x r, f b = .ok (x, r) → r.length < b.length) :
    ∀ {fuel : Nat} {b r : Bytes} {l : List α}, b.length < fuel →
      (readUntilBreak f fuel b = .ok (l, r) ↔ EachUntilBreak f l b r) := by
  intro fuel
  induction fuel with
  | zero => intro b r l hlt; omega
  | succ fuel ih =>
      intro b r l hlt
      constructor
      · intro h
        cases b with
        | nil => cases h
        | cons y t =>
            rw [readUntilBreak] at h
            split at h
            · rename_i hy
              cases h
              rw [hy]
              exact EachUntilBreak.nil
            · rename_i hy
              split at h
              · cases h
              · rename_i x b' hx
                have hb' := hf _ _ _ hx
                split at h
                · cases h
                · rename_i l' r' hrest
                  cases h
                  refine EachUntilBreak.cons ?_ hx ((ih (by omega)).mp hrest)
                  rintro t' heq
                  exact hy (List.cons.inj heq).1
      · intro h
        cases h with
        | nil => simp [readUntilBreak]
        | @cons x l b b' r hb hx hl =>
            have hb' := hf _ _ _ hx
            have hrest := (ih (by omega)).mpr hl
            cases b with
            | nil => simp at hb'
            | cons y t =>
                have hy : y ≠ breakByte := fun heq => hb t (by rw [heq])
                simp [readUntilBreak, hy, hx, hrest]

theorem readVec_iff (hf : ∀ b x r, f b = .ok (x, r) → r.length < b.length)
    {b r : Bytes} {l : List α} :
    readVec f b = .ok (l, r) ↔
      (∃ h r', Head 4 l.length h ∧ b = h ++ r' ∧ EachRead f l r' r) ∨
        l.length < 2 ^ 64 ∧ ∃ r', b = initial 4 31 :: r' ∧ EachUntilBreak f l r' r := by
  unfold readVec
  constructor
  · intro h
    split at h
    · cases h
    · rename_i n r' harr
      obtain ⟨hd, hh, hb⟩ := readArray_some_iff.mp harr
      obtain ⟨hlen, hl⟩ := readTimes_iff.mp h
      exact Or.inl ⟨hd, r', by rwa [hlen], hb, hl⟩
    · rename_i r' harr
      split at h
      · cases h
      · rename_i l' t huntil
        split at h
        · rename_i hlen
          cases h
          have hl := (readUntilBreak_iff hf (by omega)).mp huntil
          exact Or.inr ⟨hlen, r', readArray_none_iff.mp harr, hl⟩
        · cases h
  · rintro (⟨hd, r', hh, rfl, hl⟩ | ⟨hlen, r', rfl, hl⟩)
    · have hn : (UInt64.ofNat l.length).toNat = l.length := UInt64.toNat_ofNat_of_lt' hh.lt
      have harr : readArray (hd ++ r') = .ok (some (UInt64.ofNat l.length), r') :=
        readArray_some_iff.mpr ⟨hd, by rwa [hn], rfl⟩
      simp only [harr, hn]
      exact readTimes_iff.mpr ⟨rfl, hl⟩
    · have harr := readArray_none_iff.mpr (rfl : initial 4 31 :: r' = initial 4 31 :: r')
      have huntil := (readUntilBreak_iff hf (Nat.lt_succ_self r'.length)).mpr hl
      simp only [harr, huntil, if_pos hlen]

end Vectors

end Reference

/-! ### The instance -/

open Cbor

/-- The reference implementation. -/
@[reducible] def reference : Minicbor where
  Err := String
  message s := s
  datatype b :=
    match typeOf b with
    | some t => .ok t
    | none => .error "end of input"
  readU16 := Reference.readUint (2 ^ 16) UInt16.ofNat
  readU32 := Reference.readUint (2 ^ 32) UInt32.ofNat
  readU64 := Reference.readUint (2 ^ 64) UInt64.ofNat
  readI32 := Reference.readI32
  readInt := Reference.readInt
  readBytes := Reference.readString 2
  readStr := Reference.readStr
  readArray := Reference.readArray
  readTag := Reference.readTag
  readNull := Reference.readNull
  skip := Reference.skip
  readVec := Reference.readVec
  writeU16 n := shortHead 0 n.toNat
  writeU32 n := shortHead 0 n.toNat
  writeU64 n := shortHead 0 n.toNat
  writeI32 n := shortInt n.toInt
  writeInt := shortInt
  writeBytes s := shortHead 2 s.length ++ s
  writeStr s := shortHead 3 (utf8 s).length ++ utf8 s
  writeArray n := shortHead 4 n.toNat
  writeTag n := shortHead 6 n.toNat
  writeNull := [nullByte]
  writeVecU32 l := shortHead 4 l.length ++ l.flatMap fun n => shortHead 0 n.toNat

/-- The reference implementation meets the laws. -/
theorem reference_lawful : @LawfulMinicbor reference := by
  refine @LawfulMinicbor.mk reference ?_ ?_ ?_ ?_ ?_ ?_ ?_ ?_ ?_ ?_ ?_ ?_ ?_ ?_ ?_
    (fun _ => rfl) (fun _ => rfl) (fun _ => rfl) (fun _ => rfl) (fun _ _ => rfl) (fun _ => rfl)
    (fun _ => rfl) (fun _ => rfl) (fun _ => rfl) rfl (fun _ => rfl)
  case refine_1 =>
    intro b t
    show (match typeOf b with | some t => Except.ok t | none => _) = _ ↔ _
    cases typeOf b with
    | none => simp
    | some t' => exact ⟨fun h => congrArg some (Except.ok.inj h), by rintro ⟨⟩; rfl⟩
  case refine_2 =>
    intro b r n
    exact Reference.readUint_iff (fun n hn => UInt16.toNat_ofNat_of_lt' hn) (fun _ => by simp)
      (fun x => x.toNat_lt)
  case refine_3 =>
    intro b r n
    exact Reference.readUint_iff (fun n hn => UInt32.toNat_ofNat_of_lt' hn) (fun _ => by simp)
      (fun x => x.toNat_lt)
  case refine_4 =>
    intro b r n
    exact Reference.readUint_iff (fun n hn => UInt64.toNat_ofNat_of_lt' hn) (fun _ => by simp)
      (fun x => x.toNat_lt)
  case refine_5 => exact Reference.readI32_iff
  case refine_6 => exact Reference.readInt_iff
  case refine_7 => exact Reference.readString_iff (by omega)
  case refine_8 => exact Reference.readStr_iff
  case refine_9 => exact Reference.readArray_some_iff
  case refine_10 => exact Reference.readArray_none_iff
  case refine_11 => exact Reference.readTag_iff
  case refine_12 => exact Reference.readNull_iff
  case refine_13 => exact fun hc => Reference.skip_item hc
  case refine_14 => exact fun h => Reference.skip_again h
  case refine_15 => intro α f b r l hf; exact Reference.readVec_iff hf

end Minicbor

namespace C509.Reference

scoped instance minicbor : Minicbor := Minicbor.reference

scoped instance lawfulMinicbor : LawfulMinicbor := Minicbor.reference_lawful

end C509.Reference
