/-
Grammars of CBOR in the manner of CDDL, and the parsers that accept them.

A type or a group of CDDL is a language of byte strings.  Its choice `/` is the sum of two
languages, one group after another their product, and a group `n` times a power.  An array
counts items in its header, so a group that is flattened into one comes with the number of
items it takes.

`Accepts m L` says that `m` succeeds exactly where the input starts with a word of `L`, and
leaves what comes after it.
-/
import C509Cert.Codec.Denotes
import C509Cert.Minicbor
import Mathlib.Computability.Language

open Cbor

/-! ### Types and groups -/

namespace Cddl

/-- The heads of major type `m` with argument `n`. -/
def head (m n : Nat) : Language UInt8 := {h | Head m n h}

/-- `int`, of the numbers in `P`. -/
def int (P : Int → Prop) : Language UInt8 := {c | ∃ v, P v ∧ IntHead v c}

/-- `uint`, of the numbers in `P`. -/
def uint (P : Nat → Prop) : Language UInt8 := {c | ∃ n, P n ∧ c ∈ head 0 n}

/-- `bytes`, of the contents in `P`. -/
def bytes (P : Bytes → Prop) : Language UInt8 := {c | ∃ s, P s ∧ c ∈ head 2 s.length * {s}}

/-- `text` -/
def text : Language UInt8 := {c | ∃ s : String, c ∈ head 3 (utf8 s).length * {utf8 s}}

/-- `null` -/
def null : Language UInt8 := {[nullByte]}

/-- `#6.n(L)` -/
def tagged (n : Nat) (L : Language UInt8) : Language UInt8 := head 6 n * L

/-- `[ L ]`, where `L` is `k` items. -/
def array (k : Nat) (L : Language UInt8) : Language UInt8 := head 4 k * L

/-- `[ least* L ]`, where `L` is `k` items. -/
def arrayOf (least k : Nat) (L : Language UInt8) : Language UInt8 :=
  {c | ∃ n, least ≤ n ∧ c ∈ array (n * k) (L ^ n)}

/-- `[ * L ]` of single items, of indefinite length. -/
def indefiniteOf (L : Language UInt8) : Language UInt8 :=
  {c | ∃ n d, n < 2 ^ 64 ∧ d ∈ L ^ n ∧ c = initial 4 31 :: (d ++ [breakByte])}

theorem mem_int {P : Int → Prop} {c : Bytes} : c ∈ int P ↔ ∃ v, P v ∧ IntHead v c := Iff.rfl

theorem mem_uint {P : Nat → Prop} {c : Bytes} : c ∈ uint P ↔ ∃ n, P n ∧ Head 0 n c := Iff.rfl

/-- A word of a product that starts with a head. -/
theorem mem_head_mul {m n : Nat} {L : Language UInt8} {c : Bytes} :
    c ∈ head m n * L ↔ ∃ h d, Head m n h ∧ d ∈ L ∧ c = h ++ d := by
  rw [Language.mem_mul]
  constructor
  · rintro ⟨h, hh, d, hd, rfl⟩
    exact ⟨h, d, hh, hd, rfl⟩
  · rintro ⟨h, d, hh, hd, rfl⟩
    exact ⟨h, hh, d, hd, rfl⟩

theorem mem_bytes {P : Bytes → Prop} {c : Bytes} :
    c ∈ bytes P ↔ ∃ s h, P s ∧ Head 2 s.length h ∧ c = h ++ s := by
  constructor
  · intro hc
    obtain ⟨s, hs, hc⟩ := hc
    obtain ⟨h, d, hh, rfl, rfl⟩ := mem_head_mul.mp hc
    exact ⟨d, h, hs, hh, rfl⟩
  · rintro ⟨s, h, hs, hh, rfl⟩
    exact ⟨s, hs, mem_head_mul.mpr ⟨h, s, hh, rfl, rfl⟩⟩

theorem mem_text {c : Bytes} :
    c ∈ text ↔ ∃ (s : String) (h : Bytes), Head 3 (utf8 s).length h ∧ c = h ++ utf8 s := by
  constructor
  · intro hc
    obtain ⟨s, hc⟩ := hc
    obtain ⟨h, d, hh, rfl, rfl⟩ := mem_head_mul.mp hc
    exact ⟨s, h, hh, rfl⟩
  · rintro ⟨s, h, hh, rfl⟩
    exact ⟨s, mem_head_mul.mpr ⟨h, utf8 s, hh, rfl, rfl⟩⟩

theorem mem_arrayOf {least k : Nat} {L : Language UInt8} {c : Bytes} :
    c ∈ arrayOf least k L ↔
      ∃ n h d, least ≤ n ∧ Head 4 (n * k) h ∧ d ∈ L ^ n ∧ c = h ++ d := by
  constructor
  · intro hc
    obtain ⟨n, hn, hc⟩ := hc
    obtain ⟨h, d, hh, hd, rfl⟩ := mem_head_mul.mp hc
    exact ⟨n, h, d, hn, hh, hd, rfl⟩
  · rintro ⟨n, h, d, hn, hh, hd, rfl⟩
    exact ⟨n, hn, mem_head_mul.mpr ⟨h, d, hh, hd, rfl⟩⟩

/-- The header of an array says how often its group stands in it. -/
theorem not_mem_arrayOf {least k n : Nat} {L : Language UInt8} {h d : Bytes} (hh : Head 4 n h)
    (hn : n < least * k) : h ++ d ∉ arrayOf least k L := by
  intro hc
  obtain ⟨n', h', d', hle, hh', -, heq⟩ := mem_arrayOf.mp hc
  obtain ⟨-, rfl, -, -⟩ := Head.unique (by omega) (by omega) hh hh' heq
  exact absurd (Nat.mul_le_mul_right k hle) (by omega)

/-! ### What a word starts with -/

/-- Every word of the language starts with an item of a type in `T`. -/
def Typed (T : DataType → Prop) (L : Language UInt8) : Prop :=
  ∀ c ∈ L, ∃ t, T t ∧ ∀ r, typeOf (c ++ r) = some t

namespace Typed

variable {T T' : DataType → Prop} {L M : Language UInt8}

theorem weaken (hL : Typed T L) (h : ∀ t, T t → T' t) : Typed T' L := by
  intro c hc
  obtain ⟨t, ht, htype⟩ := hL c hc
  exact ⟨t, h t ht, htype⟩

theorem not_mem (hL : Typed T L) {c : Bytes} {t : DataType} (hc : typeOf c = some t)
    (ht : ¬ T t) : c ∉ L := by
  intro h
  obtain ⟨t', ht', htype⟩ := hL c h
  have heq := htype []
  rw [List.append_nil, hc] at heq
  exact ht (Option.some.inj heq ▸ ht')

theorem add (hL : Typed T L) (hM : Typed T M) : Typed T (L + M) := by
  intro c hc
  rcases (Language.mem_add ..).mp hc with hc | hc
  · exact hL c hc
  · exact hM c hc

/-- What stands first decides. -/
theorem mul (hL : Typed T L) : Typed T (L * M) := by
  intro c hc
  obtain ⟨d, hd, e, -, rfl⟩ := Language.mem_mul.mp hc
  obtain ⟨t, ht, htype⟩ := hL d hd
  refine ⟨t, ht, fun r => ?_⟩
  rw [List.append_assoc]
  exact htype (e ++ r)

theorem head_mul {m n : Nat} (hm : 2 ≤ m) (hm' : m ≤ 6) :
    Typed (fun t => t = majorType m) (head m n * L) := by
  intro c hc
  obtain ⟨h, d, hh, -, rfl⟩ := mem_head_mul.mp hc
  refine ⟨_, rfl, fun r => ?_⟩
  rw [List.append_assoc]
  exact typeOf_head hm hm' hh (d ++ r)

theorem int (P : Int → Prop) : Typed (fun t => t.isInt = true) (int P) := by
  intro c hc
  obtain ⟨v, -, hh⟩ := hc
  exact typeOf_intHead hh

theorem uint (P : Nat → Prop) : Typed (fun t => t.isInt = true) (uint P) := by
  intro c hc
  obtain ⟨n, -, hh⟩ := hc
  exact typeOf_intHead ((intHead_ofNat n c).mpr hh)

theorem bytes (P : Bytes → Prop) : Typed (fun t => t = .bytes) (bytes P) := by
  intro c hc
  obtain ⟨s, -, hc⟩ := hc
  exact head_mul (m := 2) (by omega) (by omega) c hc

theorem text : Typed (fun t => t = .string) text := by
  intro c hc
  obtain ⟨s, hc⟩ := hc
  exact head_mul (m := 3) (by omega) (by omega) c hc

theorem null : Typed (fun t => t = .null) null := by
  rintro c rfl
  exact ⟨.null, rfl, fun _ => rfl⟩

theorem tagged (n : Nat) : Typed (fun t => t = .tag) (tagged n L) :=
  head_mul (by omega) (by omega)

theorem arrayOf (least k : Nat) : Typed (fun t => t = .array) (arrayOf least k L) := by
  intro c hc
  obtain ⟨n, -, hc⟩ := hc
  exact head_mul (m := 4) (by omega) (by omega) c hc

end Typed

/-! ### Words that are items -/

/-- Every word of the group is `k` items. -/
def Counted (k : Nat) (L : Language UInt8) : Prop := ∀ c ∈ L, Items k c

/-- No word is the beginning of another. -/
def PrefixFree (L : Language UInt8) : Prop := ∀ c ∈ L, ∀ d ∈ L, ∀ r s, c ++ r = d ++ s → c = d

namespace Counted

variable {j k : Nat} {L M : Language UInt8}

theorem prefixFree (hL : Counted k L) : PrefixFree L := fun c hc d hd _ _ heq =>
  ((hL c hc).unique (hL d hd) heq).1

theorem add (hL : Counted k L) (hM : Counted k M) : Counted k (L + M) := fun c hc =>
  ((Language.mem_add ..).mp hc).elim (hL c) (hM c)

theorem mul (hL : Counted k L) (hM : Counted j M) : Counted (k + j) (L * M) := by
  intro c hc
  obtain ⟨d, hd, e, he, rfl⟩ := Language.mem_mul.mp hc
  exact (hL d hd).append (hM e he)

theorem pow (hL : Counted k L) (n : Nat) : Counted (n * k) (L ^ n) := by
  induction n with
  | zero =>
      intro c hc
      rw [pow_zero] at hc
      rw [(Language.mem_one c).mp hc, Nat.zero_mul]
      exact Items.nil
  | succ n ih =>
      rw [pow_succ', Nat.succ_mul, Nat.add_comm]
      exact hL.mul ih

theorem int (P : Int → Prop) : Counted 1 (int P) := by
  intro c hc
  obtain ⟨v, -, hh⟩ := hc
  exact hh.item

theorem uint (P : Nat → Prop) : Counted 1 (uint P) := by
  intro c hc
  obtain ⟨n, -, hh⟩ := hc
  exact Head.item (by omega) hh

theorem bytes (P : Bytes → Prop) : Counted 1 (bytes P) := by
  intro c hc
  obtain ⟨s, h, -, hh, rfl⟩ := mem_bytes.mp hc
  exact hh.string_item (Or.inl rfl) (stringContent_bytes s)

theorem text : Counted 1 text := by
  intro c hc
  obtain ⟨s, h, hh, rfl⟩ := mem_text.mp hc
  exact hh.string_item (Or.inr rfl) (stringContent_utf8 3 s)

theorem null : Counted 1 null := by
  rintro c rfl
  exact item_null

theorem tagged (n : Nat) (hL : Counted 1 L) : Counted 1 (tagged n L) := by
  intro c hc
  obtain ⟨h, d, hh, hd, rfl⟩ := mem_head_mul.mp hc
  exact Items.tag hh (hL d hd)

theorem array (hL : Counted k L) : Counted 1 (array k L) := by
  intro c hc
  obtain ⟨h, d, hh, hd, rfl⟩ := mem_head_mul.mp hc
  exact hh.array_item (hL d hd)

theorem arrayOf (least : Nat) (hL : Counted k L) : Counted 1 (arrayOf least k L) := by
  intro c hc
  obtain ⟨n, h, d, -, hh, hd, rfl⟩ := mem_arrayOf.mp hc
  exact hh.array_item (hL.pow n d hd)

theorem indefiniteOf (hL : Counted 1 L) : Counted 1 (indefiniteOf L) := by
  intro c hc
  obtain ⟨n, d, -, hd, rfl⟩ := hc
  exact Items.arrayIndef (hL.pow n d hd) Items.nil

end Counted

theorem Typed.indefiniteOf {L : Language UInt8} :
    Typed (fun t => t = .arrayIndef) (indefiniteOf L) := by
  intro c hc
  obtain ⟨n, d, -, -, rfl⟩ := hc
  exact ⟨.arrayIndef, rfl, fun _ => rfl⟩

end Cddl

/-! ### What a parser accepts -/

namespace Codec

variable {ε σ α β : Type}

/-- `m` succeeds exactly where a word of `L` stands at the front, and leaves the rest. -/
def Accepts (m : Parser ε σ α) (L : Language UInt8) : Prop :=
  ∀ b r, (∃ a, m.run b = .ok (a, r)) ↔ ∃ c ∈ L, b = c ++ r

namespace Accepts

variable {m : Parser ε σ α} {f : α → Parser ε σ β} {L M : Language UInt8}

theorem congr (hm : Accepts m L) (h : ∀ c, c ∈ L ↔ c ∈ M) : Accepts m M := by
  intro b r
  rw [hm b r]
  simp only [h]

theorem of_denotes {R : Bytes → α → Prop} (hm : Denotes m R) (h : ∀ c, (∃ a, R c a) ↔ c ∈ L) :
    Accepts m L := by
  intro b r
  constructor
  · rintro ⟨a, hrun⟩
    obtain ⟨c, rfl, hR⟩ := (hm b a r).mp hrun
    exact ⟨c, (h c).mp ⟨a, hR⟩, rfl⟩
  · rintro ⟨c, hc, rfl⟩
    obtain ⟨a, hR⟩ := (h c).mpr hc
    exact ⟨a, hm.run_ok hR r⟩

theorem pure (a : α) : Accepts (Pure.pure a : Parser ε σ α) 1 := by
  intro b r
  constructor
  · rintro ⟨y, ⟨⟩⟩
    exact ⟨[], rfl, rfl⟩
  · rintro ⟨c, hc, rfl⟩
    obtain rfl := (Language.mem_one c).mp hc
    exact ⟨a, rfl⟩

/-- What is taken whole is a word of the language. -/
theorem mem (hm : Accepts m L) {c : Bytes} {a : α} (h : m.run c = .ok (a, [])) : c ∈ L := by
  obtain ⟨d, hd, rfl⟩ := (hm c []).mp ⟨a, h⟩
  rwa [List.append_nil]

theorem fail (e : ε) : Accepts (Parser.fail e : Parser ε σ α) 0 := by
  intro b r
  constructor
  · rintro ⟨a, ⟨⟩⟩
  · rintro ⟨c, ⟨⟩, -⟩

theorem bind (hm : Accepts m L) (hf : ∀ a, Accepts (f a) M) : Accepts (m >>= f) (L * M) := by
  intro b r
  constructor
  · rintro ⟨y, hrun⟩
    obtain ⟨a, b', hma, hfa⟩ := Parser.run_bind_ok_iff.mp hrun
    obtain ⟨c, hc, rfl⟩ := (hm b b').mp ⟨a, hma⟩
    obtain ⟨d, hd, rfl⟩ := (hf a b' r).mp ⟨y, hfa⟩
    exact ⟨c ++ d, Language.mem_mul.mpr ⟨c, hc, d, hd, rfl⟩, (List.append_assoc ..).symm⟩
  · rintro ⟨_, hcd, rfl⟩
    obtain ⟨c, hc, d, hd, rfl⟩ := Language.mem_mul.mp hcd
    rw [List.append_assoc]
    obtain ⟨a, hma⟩ := (hm _ (d ++ r)).mpr ⟨c, hc, rfl⟩
    obtain ⟨y, hfa⟩ := (hf a _ r).mpr ⟨d, hd, rfl⟩
    exact ⟨y, Parser.run_bind_ok_iff.mpr ⟨a, d ++ r, hma, hfa⟩⟩

/-- What comes next depends on the value. -/
theorem bind_of_denotes {R : Bytes → α → Prop} {K : α → Language UInt8} (hm : Denotes m R)
    (hf : ∀ a, Accepts (f a) (K a))
    (h : ∀ c, (∃ a d e, R d a ∧ e ∈ K a ∧ c = d ++ e) ↔ c ∈ L) : Accepts (m >>= f) L := by
  intro b r
  constructor
  · rintro ⟨y, hrun⟩
    obtain ⟨a, b', hma, hfa⟩ := Parser.run_bind_ok_iff.mp hrun
    obtain ⟨d, rfl, hR⟩ := (hm b a b').mp hma
    obtain ⟨e, he, rfl⟩ := (hf a b' r).mp ⟨y, hfa⟩
    exact ⟨d ++ e, (h _).mp ⟨a, d, e, hR, he, rfl⟩, (List.append_assoc ..).symm⟩
  · rintro ⟨c, hc, rfl⟩
    obtain ⟨a, d, e, hR, he, rfl⟩ := (h c).mpr hc
    rw [List.append_assoc]
    obtain ⟨y, hfa⟩ := (hf a (e ++ r) r).mpr ⟨e, he, rfl⟩
    exact ⟨y, Parser.run_bind_ok_iff.mpr ⟨a, e ++ r, hm.run_ok hR _, hfa⟩⟩

/-- A first step that takes nothing. -/
theorem step {a : α} (hm : Computes m (some a)) (hf : Accepts (f a) L) :
    Accepts (m >>= f) L := by
  intro b r
  rw [← hf b r]
  refine exists_congr fun y => ?_
  rw [Parser.run_bind_of_ok ((hm b a b).mpr ⟨rfl, rfl⟩)]

/-- A value that must be there. -/
theorem get {o : Option α} {e : ε} (hf : ∀ a, Accepts (f a) L) :
    Accepts (Parser.get o e >>= f) {c | o.isSome ∧ c ∈ L} := by
  cases o with
  | none =>
      intro b r
      constructor
      · rintro ⟨y, ⟨⟩⟩
      · rintro ⟨c, ⟨⟨⟩, -⟩, -⟩
  | some a =>
      have hstep : Accepts (Parser.get (some a) e >>= f) L :=
        step (Computes.get (some a) e) (hf a)
      exact hstep.congr fun c => ⟨fun hc => ⟨rfl, hc⟩, And.right⟩

/-- A condition that must hold. -/
theorem ensure {c : Prop} [Decidable c] {e : ε} {g : Unit → Parser ε σ β}
    (hg : c → Accepts (g ()) L) : Accepts (Parser.ensure c e >>= g) {d | c ∧ d ∈ L} := by
  by_cases hc : c
  · rw [Parser.ensure, if_pos hc]
    have hstep : Accepts (Pure.pure () >>= g) L := step (Computes.pure ()) (hg hc)
    exact hstep.congr fun d => ⟨fun hd => ⟨hc, hd⟩, And.right⟩
  · rw [Parser.ensure, if_neg hc]
    intro b r
    constructor
    · rintro ⟨y, ⟨⟩⟩
    · rintro ⟨d, ⟨hc', -⟩, -⟩
      exact absurd hc' hc

/-- A last step that only builds the value. -/
theorem map {g : α → β} (hm : Accepts m L) : Accepts (m >>= fun a => Pure.pure (g a)) L := by
  have h := hm.bind (f := fun a => Pure.pure (g a)) fun a => pure (g a)
  rwa [mul_one] at h

theorem times (hm : Accepts m L) (n : Nat) : Accepts (Parser.times n m) (L ^ n) := by
  induction n with
  | zero =>
      rw [pow_zero]
      exact pure []
  | succ n ih =>
      rw [pow_succ']
      exact hm.bind fun a => ih.map

end Accepts

end Codec
