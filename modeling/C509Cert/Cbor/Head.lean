/-
Heads of CBOR data items.

Every CBOR data item starts with a head: three bits of major type and an
argument, written either inside the initial byte or in the one, two, four or
eight bytes after it.  The same argument may be written in any width that holds
it, so a head is a relation `Head m n h` between a major type, an argument and the
bytes, and `shortHead` is the one an encoder writes.

What a decoder rests on is that the relation can be read back: a head says where
it ends, and two heads at the start of one input are the same head.
-/
import Mathlib

namespace Cbor

/-- A string of bytes. -/
abbrev Bytes := List UInt8

/-! ### Big-endian numbers -/

/-- The low `w` bytes of `n`, most significant first. -/
def be : Nat → Nat → Bytes
  | 0, _ => []
  | w + 1, n => UInt8.ofNat (n / 256 ^ w) :: be w n

/-- The number a byte string spells, most significant byte first. -/
def ofBe : Bytes → Nat
  | [] => 0
  | x :: b => x.toNat * 256 ^ b.length + ofBe b

@[simp] theorem be_length (w n : Nat) : (be w n).length = w := by
  induction w with
  | zero => rfl
  | succ w ih => simp [be, ih]

theorem ofBe_lt (b : Bytes) : ofBe b < 256 ^ b.length := by
  induction b with
  | nil => simp [ofBe]
  | cons x b ih =>
      have hx : x.toNat < 256 := x.toNat_lt
      calc ofBe (x :: b) < x.toNat * 256 ^ b.length + 256 ^ b.length := by
            simpa [ofBe] using ih
        _ = (x.toNat + 1) * 256 ^ b.length := by ring
        _ ≤ 256 * 256 ^ b.length := Nat.mul_le_mul_right _ (by omega)
        _ = 256 ^ (x :: b).length := by rw [List.length_cons, pow_succ]; ring

/-- `be` reads a number only up to its width. -/
theorem be_mod (w n : Nat) : ∀ k, w ≤ k → be w (n % 256 ^ k) = be w n := by
  induction w with
  | zero => intro k _; rfl
  | succ w ih =>
      intro k hk
      obtain ⟨d, rfl⟩ : ∃ d, k = w + (d + 1) := ⟨k - w - 1, by omega⟩
      simp only [be]
      rw [ih _ (by omega)]
      congr 1
      apply UInt8.toNat_inj.mp
      have hdiv : n % 256 ^ (w + (d + 1)) / 256 ^ w = n / 256 ^ w % 256 ^ (d + 1) := by
        rw [pow_add, Nat.mod_mul_right_div_self]
      rw [UInt8.toNat_ofNat', UInt8.toNat_ofNat', hdiv]
      exact Nat.mod_mod_of_dvd _ ⟨256 ^ d, by rw [pow_succ]; ring⟩

theorem ofBe_be (w n : Nat) : ofBe (be w n) = n % 256 ^ w := by
  induction w with
  | zero => simp [be, ofBe, Nat.mod_one]
  | succ w ih =>
      have hb : (UInt8.ofNat (n / 256 ^ w)).toNat = n / 256 ^ w % 256 := UInt8.toNat_ofNat'
      simp only [be, ofBe, be_length, ih, hb]
      rw [pow_succ, Nat.mod_mul, Nat.mul_comm]
      exact Nat.add_comm _ _

theorem ofBe_be_of_lt {w n : Nat} (h : n < 256 ^ w) : ofBe (be w n) = n := by
  rw [ofBe_be, Nat.mod_eq_of_lt h]

theorem be_ofBe (b : Bytes) : be b.length (ofBe b) = b := by
  induction b with
  | nil => rfl
  | cons x b ih =>
      have hlt := ofBe_lt b
      have hpos : 0 < 256 ^ b.length := by positivity
      have hdiv : (x.toNat * 256 ^ b.length + ofBe b) / 256 ^ b.length = x.toNat := by
        rw [Nat.add_comm, Nat.add_mul_div_right _ _ hpos, Nat.div_eq_of_lt hlt, Nat.zero_add]
      have hmod : (x.toNat * 256 ^ b.length + ofBe b) % 256 ^ b.length = ofBe b := by
        rw [Nat.add_comm, Nat.add_mul_mod_self_right, Nat.mod_eq_of_lt hlt]
      simp only [List.length_cons, be, ofBe, hdiv, UInt8.ofNat_toNat]
      rw [← be_mod b.length _ b.length (Nat.le_refl _), hmod, ih]

/-! ### Heads -/

/-- The initial byte with major type `m` and additional information `a`. -/
def initial (m a : Nat) : UInt8 := UInt8.ofNat (m * 32 + a)

theorem initial_toNat {m a : Nat} (hm : m < 8) (ha : a < 32) :
    (initial m a).toNat = m * 32 + a := by
  unfold initial
  rw [UInt8.toNat_ofNat']
  omega

/-- `h` is a head of major type `m` with argument `n`, in any of the five widths. -/
inductive Head (m : Nat) : Nat → Bytes → Prop
  | short {n : Nat} (hn : n < 24) : Head m n [initial m n]
  | long {n : Nat} (w : Nat) (hw : w < 4) (hn : n < 256 ^ 2 ^ w) :
      Head m n (initial m (24 + w) :: be (2 ^ w) n)

theorem Head.lt {m n : Nat} {h : Bytes} (hh : Head m n h) : n < 2 ^ 64 := by
  cases hh with
  | short hn => omega
  | long w hw hn =>
      interval_cases w <;> norm_num at hn <;> omega

theorem Head.ne_nil {m n : Nat} {h : Bytes} (hh : Head m n h) : h ≠ [] := by
  cases hh <;> simp

theorem Head.length_pos {m n : Nat} {h : Bytes} (hh : Head m n h) : 0 < h.length :=
  List.length_pos_iff.mpr hh.ne_nil

/-- The initial byte of a head never announces an indefinite length or a break. -/
theorem Head.exists_cons {m n : Nat} {h : Bytes} (hm : m < 8) (hh : Head m n h) :
    ∃ x t, h = x :: t ∧ x.toNat / 32 = m ∧ x.toNat % 32 < 28 := by
  cases hh with
  | short hn =>
      refine ⟨_, [], rfl, ?_, ?_⟩ <;> rw [initial_toNat hm (by omega)] <;> omega
  | long w hw hn =>
      refine ⟨_, _, rfl, ?_, ?_⟩ <;> rw [initial_toNat hm (by omega)] <;> omega

/-! ### Reading a head -/

/-- Read the head at the front of an input: its major type, its argument, and the rest. -/
def readHead : Bytes → Option (Nat × Nat × Bytes)
  | [] => none
  | x :: r =>
      let m := x.toNat / 32
      let a := x.toNat % 32
      if a < 24 then some (m, a, r)
      else if a < 28 then
        let w := 2 ^ (a - 24)
        if w ≤ r.length then some (m, ofBe (r.take w), r.drop w) else none
      else none

theorem readHead_head {m n : Nat} {h : Bytes} (hm : m < 8) (hh : Head m n h) (r : Bytes) :
    readHead (h ++ r) = some (m, n, r) := by
  cases hh with
  | short hn =>
      have hi := initial_toNat hm (show n < 32 by omega)
      have h1 : (m * 32 + n) / 32 = m := by omega
      have h2 : (m * 32 + n) % 32 = n := by omega
      simp [readHead, hi, h1, h2, hn]
  | long w hw hn =>
      have hi := initial_toNat hm (show 24 + w < 32 by omega)
      have h1 : (m * 32 + (24 + w)) / 32 = m := by omega
      have h2 : (m * 32 + (24 + w)) % 32 = 24 + w := by omega
      have h3 : ¬ 24 + w < 24 := by omega
      have h4 : 24 + w < 28 := by omega
      have h5 : 24 + w - 24 = w := by omega
      simp only [List.cons_append, readHead, hi, h1, h2, if_neg h3, if_pos h4, h5]
      rw [if_pos (by simp), List.take_left' (be_length _ _), List.drop_left' (be_length _ _),
        ofBe_be_of_lt hn]

theorem head_of_readHead {b r : Bytes} {m n : Nat} (hr : readHead b = some (m, n, r)) :
    m < 8 ∧ ∃ h, Head m n h ∧ b = h ++ r := by
  cases b with
  | nil => simp [readHead] at hr
  | cons x t =>
      have hx : x.toNat < 256 := x.toNat_lt
      have hx' : initial (x.toNat / 32) (x.toNat % 32) = x := by
        unfold initial
        rw [Nat.mul_comm, Nat.div_add_mod]
        exact UInt8.ofNat_toNat
      simp only [readHead] at hr
      split at hr
      · rename_i ha
        simp only [Option.some.injEq, Prod.mk.injEq] at hr
        obtain ⟨rfl, rfl, rfl⟩ := hr
        refine ⟨by omega, [x], ?_, rfl⟩
        have := Head.short (m := x.toNat / 32) ha
        rwa [hx'] at this
      · split at hr
        · rename_i ha hb
          split at hr
          · rename_i hlen
            simp only [Option.some.injEq, Prod.mk.injEq] at hr
            obtain ⟨rfl, rfl, rfl⟩ := hr
            refine ⟨by omega, x :: t.take (2 ^ (x.toNat % 32 - 24)), ?_, by simp⟩
            have htake : (t.take (2 ^ (x.toNat % 32 - 24))).length = 2 ^ (x.toNat % 32 - 24) := by
              simpa using hlen
            have hlt := ofBe_lt (t.take (2 ^ (x.toNat % 32 - 24)))
            rw [htake] at hlt
            have := Head.long (m := x.toNat / 32) (x.toNat % 32 - 24) (by omega) hlt
            have hbe := be_ofBe (t.take (2 ^ (x.toNat % 32 - 24)))
            rw [htake] at hbe
            rwa [hbe, show 24 + (x.toNat % 32 - 24) = x.toNat % 32 by omega, hx'] at this
          · simp at hr
        · simp at hr

/-- Two heads at the front of one input are the same head. -/
theorem Head.unique {m n m' n' : Nat} {h h' r r' : Bytes} (hm : m < 8) (hm' : m' < 8)
    (hh : Head m n h) (hh' : Head m' n' h') (heq : h ++ r = h' ++ r') :
    m = m' ∧ n = n' ∧ h = h' ∧ r = r' := by
  have h1 := readHead_head hm hh r
  rw [heq, readHead_head hm' hh' r'] at h1
  simp only [Option.some.injEq, Prod.mk.injEq] at h1
  obtain ⟨rfl, rfl, rfl⟩ := h1
  exact ⟨rfl, rfl, List.append_cancel_right heq, rfl⟩

/-! ### The head an encoder writes -/

/-- The shortest head of major type `m` with argument `n`. -/
def shortHead (m n : Nat) : Bytes :=
  if n < 24 then [initial m n]
  else if n < 2 ^ 8 then initial m 24 :: be 1 n
  else if n < 2 ^ 16 then initial m 25 :: be 2 n
  else if n < 2 ^ 32 then initial m 26 :: be 4 n
  else initial m 27 :: be 8 n

theorem head_shortHead (m : Nat) {n : Nat} (hn : n < 2 ^ 64) : Head m n (shortHead m n) := by
  unfold shortHead
  split
  · exact Head.short ‹_›
  split
  · exact Head.long 0 (by omega) (by norm_num at *; omega)
  split
  · exact Head.long 1 (by omega) (by norm_num at *; omega)
  split
  · exact Head.long 2 (by omega) (by norm_num at *; omega)
  · exact Head.long 3 (by omega) (by norm_num at *; omega)

/-! ### Integers

Major type 0 carries a number, major type 1 the number `-1 - n`.
-/

/-- `h` is a head that spells the integer `v`. -/
def IntHead (v : Int) (h : Bytes) : Prop :=
  (0 ≤ v ∧ Head 0 v.toNat h) ∨ (v < 0 ∧ Head 1 (-1 - v).toNat h)

/-- The shortest head that spells `v`. -/
def shortInt (v : Int) : Bytes :=
  if 0 ≤ v then shortHead 0 v.toNat else shortHead 1 (-1 - v).toNat

theorem IntHead.exists_head {v : Int} {h : Bytes} (hh : IntHead v h) :
    ∃ m n, m < 2 ∧ Head m n h := by
  rcases hh with ⟨-, hh⟩ | ⟨-, hh⟩
  · exact ⟨0, _, by omega, hh⟩
  · exact ⟨1, _, by omega, hh⟩

theorem intHead_shortInt {v : Int} (hlo : -2 ^ 64 ≤ v) (hhi : v < 2 ^ 64) :
    IntHead v (shortInt v) := by
  unfold IntHead shortInt
  by_cases hv : 0 ≤ v
  · rw [if_pos hv]
    exact Or.inl ⟨hv, head_shortHead 0 (by omega)⟩
  · rw [if_neg hv]
    exact Or.inr ⟨by omega, head_shortHead 1 (by omega)⟩

theorem intHead_ofNat (n : Nat) (h : Bytes) : IntHead n h ↔ Head 0 n h := by
  unfold IntHead
  constructor
  · rintro (⟨-, hh⟩ | ⟨hneg, -⟩)
    · simpa using hh
    · omega
  · intro hh
    exact Or.inl ⟨by omega, by simpa using hh⟩

/-- A head spells at most one integer. -/
theorem IntHead.unique {v v' : Int} {h h' r r' : Bytes} (hh : IntHead v h)
    (hh' : IntHead v' h') (heq : h ++ r = h' ++ r') : v = v' ∧ r = r' := by
  rcases hh with ⟨hv, hh⟩ | ⟨hv, hh⟩ <;> rcases hh' with ⟨hv', hh'⟩ | ⟨hv', hh'⟩
  all_goals
    obtain ⟨hm, hn, -, hr⟩ := Head.unique (by omega) (by omega) hh hh' heq
    exact ⟨by omega, hr⟩

end Cbor
