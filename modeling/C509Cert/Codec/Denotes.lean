/-
What a parser accepts, exactly.

`Denotes m R` says that `m` succeeds on an input exactly where some front of it is related
to a value by `R`, that the value is what it returns, and that the rest of the input is what
it leaves.  `Reads` and `Writes` each give one half of this for the bytes a parser happens
to meet; here both halves come along every rule.

Steps that take nothing from the input are functions: `Computes m o`.  Loops run over
elements that stand one after the other, `Each W`, and the value of the loop is worked out
from the elements alone.  Where the elements can be told apart on the wire,
`Unambiguous W`, an input has only one reading.
-/
import C509Cert.Codec.Parser

namespace Codec

open Cbor

variable {ε σ α β E S : Type}

/-- `m` accepts the fronts `R` relates to a value, and returns the value. -/
def Denotes (m : Parser ε σ α) (R : Bytes → α → Prop) : Prop :=
  ∀ b a r, m.run b = .ok (a, r) ↔ ∃ c, b = c ++ r ∧ R c a

/-- `m` takes nothing, and is the value `o` or fails. -/
def Computes (m : Parser ε σ α) (o : Option α) : Prop :=
  ∀ b a r, m.run b = .ok (a, r) ↔ r = b ∧ o = some a

/-! ### Steps that take nothing -/

namespace Computes

variable {m : Parser ε σ α} {f : α → Parser ε σ β}

theorem pure (a : α) : Computes (Pure.pure a : Parser ε σ α) (some a) := by
  intro b a' r
  rw [Parser.run_pure, Except.ok.injEq, Prod.mk.injEq, Option.some.injEq]
  constructor
  · rintro ⟨rfl, rfl⟩
    exact ⟨rfl, rfl⟩
  · rintro ⟨rfl, rfl⟩
    exact ⟨rfl, rfl⟩

theorem fail (e : ε) : Computes (Parser.fail e : Parser ε σ α) none := by
  intro b a r
  simp

theorem ensure (c : Prop) [Decidable c] (e : ε) :
    Computes (Parser.ensure c e : Parser ε σ Unit) (if c then some () else none) := by
  unfold Parser.ensure
  split
  · exact pure ()
  · exact fail e

theorem get (o : Option α) (e : ε) : Computes (Parser.get o e : Parser ε σ α) o := by
  cases o with
  | none => exact fail e
  | some a => exact pure a

theorem emit (g : Bytes → σ) : Computes (Parser.emit g : Parser ε σ Unit) (some ()) := by
  intro b u r
  show Except.ok ((), b) = Except.ok (u, r) ↔ _
  rw [Except.ok.injEq, Prod.mk.injEq, Option.some.injEq, and_comm, eq_comm]

theorem bind {o : Option α} {g : α → Option β} (hm : Computes m o)
    (hf : ∀ a, Computes (f a) (g a)) : Computes (m >>= f) (o.bind g) := by
  intro b y r
  rw [Parser.run_bind_ok_iff, Option.bind_eq_some_iff]
  constructor
  · rintro ⟨a, b', hma, hfa⟩
    obtain ⟨rfl, ho⟩ := (hm b a b').mp hma
    obtain ⟨rfl, hg⟩ := (hf a b' y r).mp hfa
    exact ⟨rfl, a, ho, hg⟩
  · rintro ⟨rfl, a, ho, hg⟩
    exact ⟨a, r, (hm r a r).mpr ⟨rfl, ho⟩, (hf a r y r).mpr ⟨rfl, hg⟩⟩

end Computes

/-! ### Sequences -/

namespace Denotes

variable {m : Parser ε σ α} {f : α → Parser ε σ β} {R R' : Bytes → α → Prop}
  {Q : α → Bytes → β → Prop}

theorem congr (hm : Denotes m R) (h : ∀ c a, R c a ↔ R' c a) : Denotes m R' := by
  intro b a r
  rw [hm b a r]
  simp only [h]

theorem bind (hm : Denotes m R) (hf : ∀ a, Denotes (f a) (Q a)) :
    Denotes (m >>= f) fun c y => ∃ a c₁ c₂, c = c₁ ++ c₂ ∧ R c₁ a ∧ Q a c₂ y := by
  intro b y r
  rw [Parser.run_bind_ok_iff]
  constructor
  · rintro ⟨a, b', hma, hfa⟩
    obtain ⟨c₁, rfl, hR⟩ := (hm b a b').mp hma
    obtain ⟨c₂, rfl, hQ⟩ := (hf a b' y r).mp hfa
    exact ⟨c₁ ++ c₂, by rw [List.append_assoc], a, c₁, c₂, rfl, hR, hQ⟩
  · rintro ⟨_, rfl, a, c₁, c₂, rfl, hR, hQ⟩
    refine ⟨a, c₂ ++ r, (hm _ a _).mpr ⟨c₁, by rw [List.append_assoc], hR⟩, ?_⟩
    exact (hf a _ y r).mpr ⟨c₂, rfl, hQ⟩

/-- What comes after the bytes is worked out from their value. -/
theorem compute {g : α → Option β} (hm : Denotes m R) (hf : ∀ a, Computes (f a) (g a)) :
    Denotes (m >>= f) fun c y => ∃ a, R c a ∧ g a = some y := by
  intro b y r
  rw [Parser.run_bind_ok_iff]
  constructor
  · rintro ⟨a, b', hma, hfa⟩
    obtain ⟨c, rfl, hR⟩ := (hm b a b').mp hma
    obtain ⟨rfl, hg⟩ := (hf a b' y r).mp hfa
    exact ⟨c, rfl, a, hR, hg⟩
  · rintro ⟨c, rfl, a, hR, hg⟩
    exact ⟨a, r, (hm _ a r).mpr ⟨c, rfl, hR⟩, (hf a r y r).mpr ⟨rfl, hg⟩⟩

/-- A first step that takes nothing. -/
theorem step {o : Option α} (hm : Computes m o) (hf : ∀ a, Denotes (f a) (Q a)) :
    Denotes (m >>= f) fun c y => ∃ a, o = some a ∧ Q a c y := by
  intro b y r
  rw [Parser.run_bind_ok_iff]
  constructor
  · rintro ⟨a, b', hma, hfa⟩
    obtain ⟨rfl, ho⟩ := (hm b a b').mp hma
    obtain ⟨c, hb, hQ⟩ := (hf a b' y r).mp hfa
    exact ⟨c, hb, a, ho, hQ⟩
  · rintro ⟨c, rfl, a, ho, hQ⟩
    exact ⟨a, c ++ r, (hm _ a _).mpr ⟨rfl, ho⟩, (hf a _ y r).mpr ⟨c, rfl, hQ⟩⟩

/-- A probe settles how to go on, where the bytes that are then taken show what it sees. -/
theorem probe {p : Parser ε σ α} (hf : ∀ a, Denotes (f a) (Q a))
    (hshow : ∀ {a c y}, Q a c y → ∀ r, ∃ t, p.run (c ++ r) = .ok (a, t)) :
    Denotes (Parser.probe p >>= f) fun c y => ∃ a, Q a c y := by
  intro b y r
  rw [Parser.run_bind_ok_iff]
  constructor
  · rintro ⟨a, b', hprobe, hfa⟩
    obtain ⟨-, rfl⟩ := Parser.probe_run_ok.mp hprobe
    obtain ⟨c, hb, hQ⟩ := (hf a b' y r).mp hfa
    exact ⟨c, hb, a, hQ⟩
  · rintro ⟨c, rfl, a, hQ⟩
    have hprobe : (Parser.probe p).run (c ++ r) = .ok (a, c ++ r) :=
      Parser.probe_run_ok.mpr ⟨hshow hQ r, rfl⟩
    exact ⟨a, c ++ r, hprobe, (hf a _ y r).mpr ⟨c, rfl, hQ⟩⟩

/-- What the bytes of one value give, whatever follows them. -/
theorem run_ok (hm : Denotes m R) {c : Bytes} {a : α} (h : R c a) (r : Bytes) :
    m.run (c ++ r) = .ok (a, r) := (hm _ a r).mpr ⟨c, rfl, h⟩

end Denotes

/-! ### Elements -/

/-- The elements of a list, as `W` writes them, one after the other. -/
inductive Each (W : E → Bytes → Prop) : List E → Bytes → Prop
  | nil : Each W [] []
  | cons {e : E} {l : List E} {c d : Bytes} (he : W e c) (hl : Each W l d) :
      Each W (e :: l) (c ++ d)

theorem Each.items {W : E → Bytes → Prop} (hW : ∀ {e c}, W e c → Item c) {l : List E} {c : Bytes}
    (h : Each W l c) : Items l.length c := by
  induction h with
  | nil => exact Items.nil
  | @cons e l c d he hl ih =>
      rw [List.length_cons, Nat.add_comm]
      exact (hW he).append ih

/-- Two elements that start at one place are the same. -/
def Unambiguous (W : E → Bytes → Prop) : Prop :=
  ∀ {e e' : E} {c c' r r' : Bytes}, W e c → W e' c' → c ++ r = c' ++ r' →
    e = e' ∧ c = c' ∧ r = r'

/-- **As many elements from one place are the same.** -/
theorem Each.unique {W : E → Bytes → Prop} (hW : Unambiguous W) {l l' : List E}
    {c c' r r' : Bytes} (h : Each W l c) (h' : Each W l' c') (hlen : l.length = l'.length)
    (heq : c ++ r = c' ++ r') : l = l' ∧ c = c' ∧ r = r' := by
  induction h generalizing l' c' with
  | nil =>
      cases h' with
      | nil => exact ⟨rfl, rfl, heq⟩
      | cons he hl => cases hlen
  | cons he hl ih =>
      cases h' with
      | nil => cases hlen
      | cons he' hl' =>
          rw [List.append_assoc, List.append_assoc] at heq
          obtain ⟨rfl, rfl, hrest⟩ := hW he he' heq
          obtain ⟨rfl, rfl, hr⟩ := ih hl' (Nat.succ.inj hlen) hrest
          exact ⟨rfl, rfl, hr⟩

/-- The values of elements, each worked out from the state the last one left. -/
def accum (val : S → E → Option (α × S)) : S → List E → Option (List α)
  | _, [] => some []
  | s, e :: es => (val s e).bind fun x => (accum val x.2 es).map (x.1 :: ·)

theorem accum_length {val : S → E → Option (α × S)} :
    ∀ {s : S} {es : List E} {l : List α}, accum val s es = some l → l.length = es.length := by
  intro s es
  induction es generalizing s with
  | nil =>
      rintro l ⟨⟩
      rfl
  | cons e es ih =>
      intro l h
      obtain ⟨x, -, h⟩ := Option.bind_eq_some_iff.mp h
      obtain ⟨l', hl', rfl⟩ := Option.map_eq_some_iff.mp h
      rw [List.length_cons, List.length_cons, ih hl']

/-- Values that do not depend on the state. -/
theorem accum_const {val : E → Option α} {s : S} {es : List E} :
    accum (fun s e => (val e).map (·, s)) s es = es.mapM val := by
  induction es with
  | nil => rfl
  | cons e es ih =>
      rw [accum, List.mapM_cons, Option.bind_map]
      simp only [Function.comp_def, ih]
      simp only [Option.map_eq_bind, Option.bind_eq_bind, Option.pure_def, Function.comp_def]

namespace Denotes

variable {W : E → Bytes → Prop}

/-- **A loop over elements**, which carries a state. -/
theorem iterate {step : S → Parser ε σ (α × S)} {val : S → E → Option (α × S)}
    (hstep : ∀ s, Denotes (step s) fun c x => ∃ e, W e c ∧ val s e = some x) :
    ∀ n s, Denotes (Parser.iterate step n s) fun c l =>
      ∃ es, es.length = n ∧ Each W es c ∧ accum val s es = some l := by
  intro n
  induction n with
  | zero =>
      intro s b l r
      constructor
      · rintro ⟨⟩
        exact ⟨[], rfl, [], rfl, Each.nil, rfl⟩
      · rintro ⟨c, rfl, es, hlen, hes, hl⟩
        obtain rfl : es = [] := List.length_eq_zero_iff.mp hlen
        cases hes
        cases hl
        rfl
  | succ n ih =>
      intro s
      have hloop := (hstep s).bind fun x => (ih x.2).compute
        (f := fun l => (pure (x.1 :: l) : Parser ε σ (List α))) fun l => Computes.pure _
      refine hloop.congr fun c l => ?_
      constructor
      · rintro ⟨x, c₁, c₂, rfl, ⟨e, he, hx⟩, l', ⟨es, hlen, hes, hl'⟩, h⟩
        cases h
        refine ⟨e :: es, by rw [List.length_cons, hlen], Each.cons he hes, ?_⟩
        rw [accum, hx, Option.bind_some, hl', Option.map_some]
      · rintro ⟨es, hlen, hes, hl⟩
        cases hes with
        | nil => cases hlen
        | @cons e es c₁ c₂ he hes =>
            obtain ⟨x, hx, h⟩ := Option.bind_eq_some_iff.mp hl
            obtain ⟨l', hl', rfl⟩ := Option.map_eq_some_iff.mp h
            exact ⟨x, c₁, c₂, rfl, ⟨e, he, hx⟩, l', ⟨es, Nat.succ.inj hlen, hes, hl'⟩, rfl⟩

/-- The same of a loop without a state. -/
theorem times {m : Parser ε σ α} {val : E → Option α}
    (hm : Denotes m fun c a => ∃ e, W e c ∧ val e = some a) (n : Nat) :
    Denotes (Parser.times n m) fun c l =>
      ∃ es, es.length = n ∧ Each W es c ∧ es.mapM val = some l := by
  have hstep : ∀ s : Unit, Denotes (m >>= fun a => pure (a, s)) fun c x =>
      ∃ e, W e c ∧ (val e).map (·, s) = some x := by
    intro s
    refine (hm.compute fun a => Computes.pure (a, s)).congr fun c x => ?_
    constructor
    · rintro ⟨a, ⟨e, he, ha⟩, hx⟩
      exact ⟨e, he, by rw [ha, Option.map_some, hx]⟩
    · rintro ⟨e, he, hx⟩
      obtain ⟨a, ha, rfl⟩ := Option.map_eq_some_iff.mp hx
      exact ⟨a, ⟨e, he, ha⟩, rfl⟩
  have hloop := iterate hstep n ()
  rw [Parser.iterate_const] at hloop
  simp only [accum_const] at hloop
  exact hloop

/-- **On an input that has a reading, the parser does what the reading says.** -/
theorem run_ok_iff {m : Parser ε σ α} {val : E → Option α}
    (hm : Denotes m fun c a => ∃ e, W e c ∧ val e = some a) (hW : Unambiguous W) {e : E}
    {c r b : Bytes} {a : α} (he : W e c) :
    m.run (c ++ r) = .ok (a, b) ↔ b = r ∧ val e = some a := by
  rw [hm]
  constructor
  · rintro ⟨c', heq, e', he', ha⟩
    obtain ⟨rfl, rfl, rfl⟩ := hW he he' heq
    exact ⟨rfl, ha⟩
  · rintro ⟨rfl, ha⟩
    exact ⟨c, rfl, e, he, ha⟩

end Denotes

end Codec
