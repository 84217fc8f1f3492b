/-
Where two grammars of CBOR part.

The words of one language that are none of another are found group by group.  A choice
parts where one of its alternatives does, as long as these start with items of different
types; a sequence where one of its groups does; an array where one of its groups does, or
where it has fewer of them than the other grammar asks for.

A parser that accepts one grammar conforms to another exactly on the inputs that start
with no word of the one that is none of the other.
-/
import C509Cert.Codec.Cddl

open Cbor

namespace Cddl

/-- `[ L ]`, of fewer than `most` groups. -/
def arrayBelow (most k : Nat) (L : Language UInt8) : Language UInt8 :=
  {c | ∃ n, n < most ∧ c ∈ array (n * k) (L ^ n)}

/-- `[ least* L ]`, with a group of `S` among those of `L`. -/
def arrayWith (least k : Nat) (L S : Language UInt8) : Language UInt8 :=
  {c | ∃ i j, least ≤ i + 1 + j ∧ c ∈ array ((i + 1 + j) * k) (L ^ i * (S * L ^ j))}

/-- A word of the language stands at the front. -/
def Starts (L : Language UInt8) (b : Bytes) : Prop := ∃ c ∈ L, c <+: b

variable {L M L₁ L₂ M₁ M₂ : Language UInt8} {b : Bytes}

theorem Starts.add_iff : Starts (L + M) b ↔ Starts L b ∨ Starts M b := by
  constructor
  · rintro ⟨c, hc, hb⟩
    exact ((Language.mem_add ..).mp hc).imp (⟨c, ·, hb⟩) (⟨c, ·, hb⟩)
  · rintro (⟨c, hc, hb⟩ | ⟨c, hc, hb⟩)
    · exact ⟨c, Or.inl hc, hb⟩
    · exact ⟨c, Or.inr hc, hb⟩

@[simp] theorem not_starts_zero : ¬ Starts 0 b := fun ⟨_, hc, _⟩ => hc

/-! ### Contents -/

theorem sub_eq_zero_of_le (h : L ≤ M) : L - M = 0 := tsub_eq_zero_of_le h

theorem sub_self (L : Language UInt8) : L - L = 0 := sub_eq_zero_of_le le_rfl

theorem int_mono {P Q : Int → Prop} (h : ∀ v, P v → Q v) : int P ≤ int Q := by
  rintro c ⟨v, hv, hc⟩
  exact ⟨v, h v hv, hc⟩

theorem uint_mono {P Q : Nat → Prop} (h : ∀ n, P n → Q n) : uint P ≤ uint Q := by
  rintro c ⟨n, hn, hc⟩
  exact ⟨n, h n hn, hc⟩

theorem bytes_mono {P Q : Bytes → Prop} (h : ∀ s, P s → Q s) : bytes P ≤ bytes Q := by
  rintro c ⟨s, hs, hc⟩
  exact ⟨s, h s hs, hc⟩

theorem int_sub_int (Q : Int → Prop) : int (fun _ => True) - int Q = int fun v => ¬ Q v := by
  ext c
  constructor
  · rintro ⟨⟨v, -, hv⟩, hnot⟩
    exact ⟨v, fun hQ => hnot ⟨v, hQ, hv⟩, hv⟩
  · rintro ⟨v, hQ, hv⟩
    refine ⟨⟨v, trivial, hv⟩, ?_⟩
    rintro ⟨w, hw, hh⟩
    obtain ⟨rfl, -⟩ := hv.unique hh (rfl : c ++ [] = c ++ [])
    exact hQ hw

theorem uint_sub_uint (Q : Nat → Prop) : uint (fun _ => True) - uint Q = uint fun n => ¬ Q n := by
  ext c
  constructor
  · rintro ⟨⟨n, -, hn⟩, hnot⟩
    exact ⟨n, fun hQ => hnot ⟨n, hQ, hn⟩, hn⟩
  · rintro ⟨n, hQ, hn⟩
    refine ⟨⟨n, trivial, hn⟩, ?_⟩
    rintro ⟨m, hm, hh⟩
    obtain ⟨-, rfl, -, -⟩ :=
      Head.unique (by omega) (by omega) hn hh (rfl : c ++ [] = c ++ [])
    exact hQ hm

theorem bytes_sub_bytes (Q : Bytes → Prop) :
    bytes (fun _ => True) - bytes Q = bytes fun s => ¬ Q s := by
  ext c
  rw [Language.mem_sub, mem_bytes, mem_bytes, mem_bytes]
  constructor
  · rintro ⟨⟨s, h, -, hh, rfl⟩, hnot⟩
    exact ⟨s, h, fun hQ => hnot ⟨s, h, hQ, hh, rfl⟩, hh, rfl⟩
  · rintro ⟨s, h, hQ, hh, rfl⟩
    refine ⟨⟨s, h, trivial, hh, rfl⟩, ?_⟩
    rintro ⟨s', h', hs', hh', heq⟩
    obtain ⟨-, -, -, rfl⟩ := Head.unique (by omega) (by omega) hh hh' heq
    exact hQ hs'

/-! ### Choices and sequences -/

/-- Alternatives that start with items of different types part on their own. -/
theorem add_sub_add {T T' : DataType → Prop} (hT : ∀ t, T t → ¬ T' t) (hL₁ : Typed T L₁)
    (hM₁ : Typed T M₁) (hL₂ : Typed T' L₂) (hM₂ : Typed T' M₂) :
    L₁ + L₂ - (M₁ + M₂) = (L₁ - M₁) + (L₂ - M₂) := by
  have happart {L M : Language UInt8} (hL : Typed T L) (hM : Typed T' M) {c : Bytes}
      (hc : c ∈ L) : c ∉ M := by
    obtain ⟨t, ht, htype⟩ := hL c hc
    have hfront := htype []
    rw [List.append_nil] at hfront
    exact hM.not_mem hfront (hT t ht)
  ext c
  simp only [Language.mem_sub, Language.mem_add, not_or]
  constructor
  · rintro ⟨hc | hc, h₁, h₂⟩
    · exact Or.inl ⟨hc, h₁⟩
    · exact Or.inr ⟨hc, h₂⟩
  · rintro (⟨hc, h₁⟩ | ⟨hc, h₂⟩)
    · exact ⟨Or.inl hc, h₁, happart hL₁ hM₂ hc⟩
    · exact ⟨Or.inr hc, fun h => happart hM₁ hL₂ h hc, h₂⟩

/-- An alternative that both have does not count. -/
theorem add_sub_add_same {T T' : DataType → Prop} {K : Language UInt8} (hT : ∀ t, T t → ¬ T' t)
    (hL : Typed T L) (hM : Typed T M) (hK : Typed T' K) : L + K - (M + K) = L - M := by
  rw [add_sub_add hT hL hM hK hK, sub_self, add_zero]

namespace Counted

variable {k : Nat}

/-- A sequence parts in what stands first or in what follows it. -/
theorem mul_sub_mul (hL : Counted k L₁) (hM : Counted k M₁) :
    L₁ * L₂ - M₁ * M₂ = (L₁ - M₁) * L₂ + L₁ * (L₂ - M₂) := by
  have hsame {c d r s : Bytes} (hc : c ∈ L₁) (hd : d ∈ M₁) (heq : c ++ r = d ++ s) :
      c = d ∧ r = s := (hL c hc).unique (hM d hd) heq
  ext c
  rw [Language.mem_sub, Language.mem_add]
  constructor
  · rintro ⟨hc, hnot⟩
    obtain ⟨d, hd, e, he, rfl⟩ := Language.mem_mul.mp hc
    by_cases hdM : d ∈ M₁
    · refine Or.inr (Language.append_mem_mul hd ⟨he, fun heM => ?_⟩)
      exact hnot (Language.append_mem_mul hdM heM)
    · exact Or.inl (Language.append_mem_mul ⟨hd, hdM⟩ he)
  · rintro (hc | hc)
    · obtain ⟨d, ⟨hd, hdM⟩, e, he, rfl⟩ := Language.mem_mul.mp hc
      refine ⟨Language.append_mem_mul hd he, fun hM' => ?_⟩
      obtain ⟨d', hd', e', -, heq⟩ := Language.mem_mul.mp hM'
      obtain ⟨rfl, -⟩ := hsame hd hd' heq.symm
      exact hdM hd'
    · obtain ⟨d, hd, e, ⟨he, heM⟩, rfl⟩ := Language.mem_mul.mp hc
      refine ⟨Language.append_mem_mul hd he, fun hM' => ?_⟩
      obtain ⟨d', hd', e', he', heq⟩ := Language.mem_mul.mp hM'
      obtain ⟨-, rfl⟩ := hsame hd hd' heq.symm
      exact heM he'

/-- A power parts in one of its groups. -/
theorem mem_pow_sub_pow (hL : Counted k L) (hM : Counted k M) {n : Nat} {c : Bytes} :
    c ∈ L ^ n - M ^ n ↔ ∃ i j, i + 1 + j = n ∧ c ∈ L ^ i * ((L - M) * L ^ j) := by
  induction n generalizing c with
  | zero =>
      rw [pow_zero, pow_zero, sub_self]
      constructor
      · rintro ⟨⟩
      · rintro ⟨i, j, hij, -⟩
        omega
  | succ n ih =>
      rw [pow_succ', pow_succ', mul_sub_mul hL hM, Language.mem_add]
      constructor
      · rintro (hc | hc)
        · refine ⟨0, n, by omega, ?_⟩
          rwa [pow_zero, one_mul]
        · obtain ⟨d, hd, e, he, rfl⟩ := Language.mem_mul.mp hc
          obtain ⟨i, j, hij, hsplit⟩ := ih.mp he
          refine ⟨i + 1, j, by omega, ?_⟩
          rw [pow_succ', mul_assoc]
          exact Language.append_mem_mul hd hsplit
      · rintro ⟨i, j, hij, hc⟩
        cases i with
        | zero =>
            obtain rfl : j = n := by omega
            rw [pow_zero, one_mul] at hc
            exact Or.inl hc
        | succ i =>
            rw [pow_succ', mul_assoc] at hc
            obtain ⟨d, hd, e, he, rfl⟩ := Language.mem_mul.mp hc
            exact Or.inr (Language.append_mem_mul hd (ih.mpr ⟨i, j, by omega, he⟩))

end Counted

/-! ### Arrays -/

theorem arrayBelow_one (k : Nat) : arrayBelow 1 k L = array 0 1 := by
  ext c
  constructor
  · rintro ⟨n, hn, hc⟩
    obtain rfl : n = 0 := by omega
    rwa [Nat.zero_mul, pow_zero] at hc
  · intro hc
    refine ⟨0, Nat.one_pos, ?_⟩
    rwa [Nat.zero_mul, pow_zero]

theorem array_sub_array (k : Nat) : array k L - array k M = array k (L - M) := by
  ext c
  constructor
  · rintro ⟨hc, hnot⟩
    obtain ⟨h, d, hh, hd, rfl⟩ := mem_head_mul.mp hc
    exact mem_head_mul.mpr
      ⟨h, d, hh, ⟨hd, fun hdM => hnot (mem_head_mul.mpr ⟨h, d, hh, hdM, rfl⟩)⟩, rfl⟩
  · intro hc
    obtain ⟨h, d, hh, ⟨hd, hdM⟩, rfl⟩ := mem_head_mul.mp hc
    refine ⟨mem_head_mul.mpr ⟨h, d, hh, hd, rfl⟩, fun hM => ?_⟩
    obtain ⟨h', d', hh', hd', heq⟩ := mem_head_mul.mp hM
    obtain ⟨-, -, -, rfl⟩ := Head.unique (by omega) (by omega) hh hh' heq
    exact hdM hd'

theorem arrayWith_zero (least k : Nat) : arrayWith least k L 0 = 0 := by
  ext c
  constructor
  · rintro ⟨i, j, -, hc⟩
    rwa [zero_mul, mul_zero, array, mul_zero] at hc
  · rintro ⟨⟩

/-- The numbers of groups are told apart by the headers of the arrays. -/
theorem mem_array_iff_of_mem {n k : Nat} (hk : 0 < k) {least : Nat} {c : Bytes}
    (hc : c ∈ array (n * k) (L ^ n)) :
    c ∈ arrayOf least k M ↔ least ≤ n ∧ c ∈ array (n * k) (M ^ n) := by
  constructor
  · rintro ⟨m, hm, hcM⟩
    obtain ⟨h, d, hh, -, rfl⟩ := mem_head_mul.mp hc
    obtain ⟨h', d', hh', -, heq⟩ := mem_head_mul.mp hcM
    obtain ⟨-, hmn, -, -⟩ := Head.unique (by omega) (by omega) hh hh' heq
    obtain rfl := Nat.eq_of_mul_eq_mul_right hk hmn
    exact ⟨hm, hcM⟩
  · rintro ⟨hle, hcM⟩
    exact ⟨n, hle, hcM⟩

/-- An array parts from another in the number of its groups or in one of them. -/
theorem mem_arrayOf_sub_arrayOf {k : Nat} (hk : 0 < k) (hL : Counted k L) (hM : Counted k M)
    {least least' : Nat} {c : Bytes} :
    c ∈ arrayOf least k L - arrayOf least' k M ↔
      (∃ n, least ≤ n ∧ n < least' ∧ c ∈ array (n * k) (L ^ n)) ∨
        c ∈ arrayWith least k L (L - M) := by
  have hgroup {n : Nat} : c ∈ array (n * k) (L ^ n) ∧ c ∉ array (n * k) (M ^ n) ↔
      ∃ i j, i + 1 + j = n ∧ c ∈ array (n * k) (L ^ i * ((L - M) * L ^ j)) := by
    rw [← Language.mem_sub, array_sub_array, array, mem_head_mul]
    constructor
    · rintro ⟨h, d, hh, hd, rfl⟩
      obtain ⟨i, j, hij, hsplit⟩ := (hL.mem_pow_sub_pow hM).mp hd
      exact ⟨i, j, hij, mem_head_mul.mpr ⟨h, d, hh, hsplit, rfl⟩⟩
    · rintro ⟨i, j, hij, hc⟩
      obtain ⟨h, d, hh, hd, rfl⟩ := mem_head_mul.mp hc
      exact ⟨h, d, hh, (hL.mem_pow_sub_pow hM).mpr ⟨i, j, hij, hd⟩, rfl⟩
  rw [Language.mem_sub]
  constructor
  · rintro ⟨⟨n, hn, hc⟩, hnot⟩
    rw [mem_array_iff_of_mem hk hc, not_and] at hnot
    rcases Nat.lt_or_ge n least' with hlt | hge
    · exact Or.inl ⟨n, hn, hlt, hc⟩
    · obtain ⟨i, j, rfl, hsplit⟩ := hgroup.mp ⟨hc, hnot hge⟩
      exact Or.inr ⟨i, j, hn, hsplit⟩
  · rintro (⟨n, hn, hlt, hc⟩ | ⟨i, j, hn, hsplit⟩)
    · refine ⟨⟨n, hn, hc⟩, ?_⟩
      rw [mem_array_iff_of_mem hk hc]
      omega
    · obtain ⟨hc, hnot⟩ := hgroup.mpr ⟨i, j, rfl, hsplit⟩
      refine ⟨⟨_, hn, hc⟩, ?_⟩
      rw [mem_array_iff_of_mem hk hc]
      exact fun h => hnot h.2

/-- Any number of groups, for a least number of other groups. -/
theorem arrayOf_zero_sub_arrayOf {k : Nat} (hk : 0 < k) (hL : Counted k L) (hM : Counted k M)
    (least : Nat) :
    arrayOf 0 k L - arrayOf least k M = arrayBelow least k L + arrayWith 0 k L (L - M) := by
  ext c
  rw [mem_arrayOf_sub_arrayOf hk hL hM, Language.mem_add]
  refine or_congr_left (exists_congr fun n => ?_)
  exact and_iff_right (Nat.zero_le n)

/-- A least number of groups, for any number of other groups. -/
theorem arrayOf_sub_arrayOf_zero {k : Nat} (hk : 0 < k) (hL : Counted k L) (hM : Counted k M)
    (least : Nat) : arrayOf least k L - arrayOf 0 k M = arrayWith least k L (L - M) := by
  ext c
  rw [mem_arrayOf_sub_arrayOf hk hL hM]
  refine or_iff_right ?_
  rintro ⟨n, -, hn, -⟩
  omega

end Cddl

/-! ### Parsers -/

namespace Codec

variable {ε σ α : Type} {m : Parser ε σ α} {L M : Language UInt8}

/-- On this input `m` succeeds if and only if a word of `L` stands at the front. -/
def Conforms (m : Parser ε σ α) (L : Language UInt8) (b : Bytes) : Prop :=
  (∃ a r, m.run b = .ok (a, r)) ↔ Cddl.Starts L b

namespace Accepts

theorem exists_run_iff (hm : Accepts m L) (b : Bytes) :
    (∃ a r, m.run b = .ok (a, r)) ↔ Cddl.Starts L b := by
  constructor
  · rintro ⟨a, r, hrun⟩
    obtain ⟨c, hc, rfl⟩ := (hm b r).mp ⟨a, hrun⟩
    exact ⟨c, hc, r, rfl⟩
  · rintro ⟨c, hc, r, rfl⟩
    obtain ⟨a, hrun⟩ := (hm (c ++ r) r).mpr ⟨c, hc, rfl⟩
    exact ⟨a, r, hrun⟩

/-- **A parser conforms to another grammar exactly off the words the two do not share.** -/
theorem conforms_iff (hm : Accepts m L) (hfree : Cddl.PrefixFree (L + M)) (b : Bytes) :
    Conforms m M b ↔ ¬ Cddl.Starts (L - M) b ∧ ¬ Cddl.Starts (M - L) b := by
  have hsame {c d : Bytes} (hc : c ∈ L) (hd : d ∈ M) (hcb : c <+: b) (hdb : d <+: b) : c = d := by
    obtain ⟨r, rfl⟩ := hcb
    obtain ⟨s, heq⟩ := hdb
    exact hfree c (Or.inl hc) d (Or.inr hd) r s heq.symm
  rw [Conforms, hm.exists_run_iff b]
  constructor
  · intro hiff
    constructor
    · rintro ⟨c, ⟨hc, hM⟩, hb⟩
      obtain ⟨d, hd, hdb⟩ := hiff.mp ⟨c, hc, hb⟩
      exact hM (hsame hc hd hb hdb ▸ hd)
    · rintro ⟨d, ⟨hd, hL⟩, hb⟩
      obtain ⟨c, hc, hcb⟩ := hiff.mpr ⟨d, hd, hb⟩
      exact hL (hsame hc hd hcb hb ▸ hc)
  · rintro ⟨hLM, hML⟩
    constructor
    · rintro ⟨c, hc, hb⟩
      exact ⟨c, by_contra fun hM => hLM ⟨c, ⟨hc, hM⟩, hb⟩, hb⟩
    · rintro ⟨d, hd, hb⟩
      exact ⟨d, by_contra fun hL => hML ⟨d, ⟨hd, hL⟩, hb⟩, hb⟩

end Accepts

end Codec
