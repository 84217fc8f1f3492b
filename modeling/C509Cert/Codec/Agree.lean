/-
Two parsers compared by what they accept.

`Agree m' m` says that both succeed on the same inputs and with the same results,
whatever errors they report on the others.  `AgreeOff W m' m` says that `m'` refuses the
inputs of `W` and otherwise does what `m` does.

Both compose along `>>=`.  The inputs the second part of a sequence refuses are those that
stand `Past` what the first part takes, or `After` `k` items where that is what it takes.
-/
import C509Cert.Codec.Parser

namespace Codec

open Cbor

/-! ### Everywhere -/

variable {ε ε' σ σ' α β : Type}

/-- `m'` and `m` succeed on the same inputs, with the same results. -/
def Agree (m' : Parser ε' σ' α) (m : Parser ε σ α) : Prop :=
  ∀ b a r, m'.run b = .ok (a, r) ↔ m.run b = .ok (a, r)

namespace Agree

variable {m' : Parser ε' σ' α} {m : Parser ε σ α}
  {f' : α → Parser ε' σ' β} {f : α → Parser ε σ β}

theorem refl (m : Parser ε σ α) : Agree m m := fun _ _ _ => Iff.rfl

theorem pure (a : α) : Agree (pure a : Parser ε' σ' α) (pure a : Parser ε σ α) := by
  intro b x r
  simp only [Parser.run_pure, Except.ok.injEq]

theorem fail (e' : ε') (e : ε) :
    Agree (Parser.fail e' : Parser ε' σ' α) (Parser.fail e : Parser ε σ α) := by
  intro b x r
  simp only [Parser.run_fail, reduceCtorEq]

theorem ensure (c : Prop) [Decidable c] (e' : ε') (e : ε) :
    Agree (Parser.ensure c e' : Parser ε' σ' Unit) (Parser.ensure c e : Parser ε σ Unit) := by
  intro b x r
  rw [Parser.run_ensure_ok_iff, Parser.run_ensure_ok_iff]

theorem get (o : Option α) (e' : ε') (e : ε) :
    Agree (Parser.get o e' : Parser ε' σ' α) (Parser.get o e : Parser ε σ α) := by
  cases o with
  | none => exact fail e' e
  | some a => exact pure a

theorem emit (g' : Bytes → σ') (g : Bytes → σ) :
    Agree (Parser.emit g' : Parser ε' σ' Unit) (Parser.emit g : Parser ε σ Unit) := by
  intro b x r
  simp only [Parser.emit, Except.ok.injEq]

theorem bind (hm : Agree m' m) (hf : ∀ a, Agree (f' a) (f a)) : Agree (m' >>= f') (m >>= f) := by
  intro b y r
  rw [Parser.run_bind_ok_iff, Parser.run_bind_ok_iff]
  refine exists_congr fun a => exists_congr fun r' => ?_
  rw [hm b a r', hf a r' y r]

theorem probe (hm : Agree m' m) : Agree (Parser.probe m') (Parser.probe m) := by
  intro b a r
  rw [Parser.probe_run_ok, Parser.probe_run_ok]
  exact and_congr_left' (exists_congr fun r' => hm b a r')

theorem times (hm : Agree m' m) (n : Nat) : Agree (Parser.times n m') (Parser.times n m) := by
  induction n with
  | zero => exact pure []
  | succ n ih => exact bind hm fun a => bind ih fun l => pure (a :: l)

theorem iterate {S : Type} {step' : S → Parser ε' σ' (α × S)} {step : S → Parser ε σ (α × S)}
    (hstep : ∀ s, Agree (step' s) (step s)) (n : Nat) :
    ∀ s, Agree (Parser.iterate step' n s) (Parser.iterate step n s) := by
  induction n with
  | zero => exact fun s => pure []
  | succ n ih => exact fun s => bind (hstep s) fun x => bind (ih x.2) fun l => pure (x.1 :: l)

end Agree

/-! ### Off a set of inputs -/

/-- `m'` refuses the inputs of `W`, and on the others does what `m` does. -/
def AgreeOff (W : Bytes → Prop) (m' : Parser ε' σ' α) (m : Parser ε σ α) : Prop :=
  ∀ b a r, m'.run b = .ok (a, r) ↔ m.run b = .ok (a, r) ∧ ¬ W b

/-- What comes after `k` items is in `W`. -/
def After (k : Nat) (W : Bytes → Prop) (b : Bytes) : Prop :=
  ∃ d s, Items k d ∧ W s ∧ b = d ++ s

theorem After.zero_iff {W : Bytes → Prop} {b : Bytes} : After 0 W b ↔ W b := by
  constructor
  · intro h
    obtain ⟨d, s, hd, hW, rfl⟩ := h
    rw [hd.eq_nil]
    exact hW
  · exact fun hW => ⟨[], b, Items.nil, hW, rfl⟩

theorem After.zero {W : Bytes → Prop} : After 0 W = W := funext fun _ => propext After.zero_iff

/-- The items that come first are determined, and the rest is looked at after them. -/
theorem After.add_iff {k j : Nat} {W : Bytes → Prop} {d s : Bytes} (hd : Items k d) :
    After (k + j) W (d ++ s) ↔ After j W s := by
  constructor
  · intro h
    obtain ⟨e, s', he, hW, heq⟩ := h
    obtain ⟨d', e', rfl, hd', he'⟩ := he.splits k j rfl
    rw [List.append_assoc] at heq
    obtain ⟨rfl, rfl⟩ := hd.unique hd' heq
    exact ⟨e', s', he', hW, rfl⟩
  · intro h
    obtain ⟨e, s', he, hW, rfl⟩ := h
    exact ⟨d ++ e, s', hd.append he, hW, (List.append_assoc ..).symm⟩

theorem After.after {k j : Nat} {W : Bytes → Prop} : After k (After j W) = After (k + j) W := by
  funext b
  refine propext ⟨fun h => ?_, fun h => ?_⟩
  · obtain ⟨d, s, hd, hW, rfl⟩ := h
    exact (After.add_iff hd).mpr hW
  · obtain ⟨c, s, hc, hW, rfl⟩ := h
    obtain ⟨d, e, rfl, hd, he⟩ := hc.splits k j rfl
    exact ⟨d, e ++ s, hd, ⟨e, s, he, hW, rfl⟩, List.append_assoc ..⟩

theorem After.append_iff {k : Nat} {W : Bytes → Prop} {d s : Bytes} (hd : Items k d) :
    After k W (d ++ s) ↔ W s :=
  (After.add_iff (j := 0) hd).trans After.zero_iff

/-- The header of a definite-length array of `n` elements, and then what is in `W n`. -/
def InArray (W : Nat → Bytes → Prop) (b : Bytes) : Prop :=
  ∃ n h s, Head 4 n h ∧ W n s ∧ b = h ++ s

theorem InArray.append_iff {W : Nat → Bytes → Prop} {n : Nat} {h s : Bytes} (hh : Head 4 n h) :
    InArray W (h ++ s) ↔ W n s := by
  constructor
  · rintro ⟨n', h', s', hh', hW, heq⟩
    obtain ⟨-, rfl, -, rfl⟩ := Head.unique (by omega) (by omega) hh hh' heq
    exact hW
  · exact fun hW => ⟨n, h, s, hh, hW, rfl⟩

theorem InArray.congr {W V : Nat → Bytes → Prop} (h : ∀ n s, n < 2 ^ 64 → (W n s ↔ V n s))
    (b : Bytes) : InArray W b ↔ InArray V b := by
  refine exists_congr fun n => exists_congr fun head => exists_congr fun s => ?_
  exact and_congr_right fun hh => and_congr_left' (h n s hh.lt)

/-- What `m` leaves of the input is in `W`. -/
def Past (m : Parser ε σ α) (W : Bytes → Prop) (b : Bytes) : Prop :=
  ∃ a r, m.run b = .ok (a, r) ∧ W r

section

variable {m : Parser ε σ α} {W : Bytes → Prop} {b r : Bytes} {a : α}

theorem Past.iff_of_run (h : m.run b = .ok (a, r)) : Past m W b ↔ W r := by
  constructor
  · rintro ⟨a', r', h', hW⟩
    rw [h] at h'
    cases h'
    exact hW
  · exact fun hW => ⟨a, r, h, hW⟩

/-- A probe leaves the input where it was. -/
theorem Past.probe_iff : Past (Parser.probe m) W b ↔ Past m (fun _ => W b) b := by
  constructor
  · rintro ⟨a, r, hrun, hW⟩
    obtain ⟨⟨r', hm⟩, rfl⟩ := Parser.probe_run_ok.mp hrun
    exact ⟨a, r', hm, hW⟩
  · rintro ⟨a, r', hm, hW⟩
    exact ⟨a, b, Parser.probe_run_ok.mpr ⟨⟨r', hm⟩, rfl⟩, hW⟩

theorem Past.times_zero : Past (Parser.times 0 m) W b ↔ W b :=
  Past.iff_of_run (Parser.run_pure [] b)

/-- The rounds after the first start where the first stopped. -/
theorem Past.times_succ (h : m.run b = .ok (a, r)) (n : Nat) :
    Past (Parser.times (n + 1) m) W b ↔ Past (Parser.times n m) W r := by
  unfold Past
  constructor
  · rintro ⟨l, s, hloop, hW⟩
    rw [Parser.times, Parser.run_bind_of_ok h] at hloop
    obtain ⟨l', s', hrest, hpure⟩ := Parser.run_bind_ok_iff.mp hloop
    cases hpure
    exact ⟨l', s, hrest, hW⟩
  · rintro ⟨l, s, hrest, hW⟩
    refine ⟨a :: l, s, ?_, hW⟩
    rw [Parser.times, Parser.run_bind_of_ok h, Parser.run_bind_of_ok hrest]
    rfl

/-- What some round starts at, the first or a later one. -/
theorem Past.rounds_succ (h : m.run b = .ok (a, r)) (n : Nat) :
    (∃ i, i < n + 1 ∧ Past (Parser.times i m) W b) ↔
      W b ∨ ∃ i, i < n ∧ Past (Parser.times i m) W r := by
  constructor
  · rintro ⟨i, hi, hW⟩
    cases i with
    | zero => exact Or.inl (Past.times_zero.mp hW)
    | succ i => exact Or.inr ⟨i, by omega, (Past.times_succ h i).mp hW⟩
  · rintro (hW | ⟨i, hi, hW⟩)
    · exact ⟨0, by omega, Past.times_zero.mpr hW⟩
    · exact ⟨i + 1, by omega, (Past.times_succ h i).mpr hW⟩

/-- A round starts in `W` exactly where one of the results has the property that goes with it. -/
theorem Past.rounds_iff {P : α → Prop} (hm : ∀ b a r, m.run b = .ok (a, r) → (W b ↔ P a))
    (n : Nat) : ∀ {b r : Bytes} {l : List α}, (Parser.times n m).run b = .ok (l, r) →
      ((∃ i, i < n ∧ Past (Parser.times i m) W b) ↔ ∃ a ∈ l, P a) := by
  induction n with
  | zero =>
      intro b r l hrun
      cases hrun
      simp
  | succ n ih =>
      intro b r l hrun
      obtain ⟨a, b₁, ha, hrest⟩ := Parser.run_bind_ok_iff.mp hrun
      obtain ⟨l', b₂, hl', hpure⟩ := Parser.run_bind_ok_iff.mp hrest
      cases hpure
      rw [Past.rounds_succ ha, hm b a b₁ ha, ih hl', List.exists_mem_cons_iff]

end

namespace AgreeOff

variable {W : Bytes → Prop} {m' : Parser ε' σ' α} {m : Parser ε σ α}
  {f' : α → Parser ε' σ' β} {f : α → Parser ε σ β}

/-- The exceptions need only be known where `m` succeeds. -/
theorem congr {W' : Bytes → Prop} (hm : AgreeOff W m' m)
    (h : ∀ b a r, m.run b = .ok (a, r) → (W b ↔ W' b)) : AgreeOff W' m' m := by
  intro b a r
  rw [hm b a r]
  exact and_congr_right fun hrun => not_congr (h b a r hrun)

theorem of_agree (hm : Agree m' m) (hW : ∀ b a r, m.run b = .ok (a, r) → ¬ W b) :
    AgreeOff W m' m := by
  intro b a r
  rw [hm b a r]
  exact ⟨fun hrun => ⟨hrun, hW b a r hrun⟩, And.left⟩

/-- The exceptions of the first part are those of the sequence. -/
theorem bind_agree (hm : AgreeOff W m' m) (hf : ∀ a, Agree (f' a) (f a)) :
    AgreeOff W (m' >>= f') (m >>= f) := by
  intro b y r
  rw [Parser.run_bind_ok_iff, Parser.run_bind_ok_iff]
  constructor
  · rintro ⟨a, r', hm', hf'⟩
    obtain ⟨hrun, hW⟩ := (hm b a r').mp hm'
    exact ⟨⟨a, r', hrun, (hf a r' y r).mp hf'⟩, hW⟩
  · rintro ⟨⟨a, r', hrun, hf'⟩, hW⟩
    exact ⟨a, r', (hm b a r').mpr ⟨hrun, hW⟩, (hf a r' y r).mpr hf'⟩

/-- The exceptions of the second part are those of the sequence. -/
theorem bind {W : α → Bytes → Prop} (hm : Agree m' m) (hf : ∀ a, AgreeOff (W a) (f' a) (f a)) :
    AgreeOff (fun b => ∃ a r, m.run b = .ok (a, r) ∧ W a r) (m' >>= f') (m >>= f) := by
  intro b y r
  rw [Parser.run_bind_ok_iff, Parser.run_bind_ok_iff]
  constructor
  · rintro ⟨a, r', hm', hf'⟩
    have hrun := (hm b a r').mp hm'
    obtain ⟨hrest, hW⟩ := (hf a r' y r).mp hf'
    refine ⟨⟨a, r', hrun, hrest⟩, fun h => ?_⟩
    obtain ⟨a₁, r₁, hrun₁, hW₁⟩ := h
    rw [hrun] at hrun₁
    cases hrun₁
    exact hW hW₁
  · rintro ⟨⟨a, r', hrun, hrest⟩, hW⟩
    exact ⟨a, r', (hm b a r').mpr hrun,
      (hf a r' y r).mpr ⟨hrest, fun h => hW ⟨a, r', hrun, h⟩⟩⟩

/-- A condition both check holds of what they go on with. -/
theorem ensure {c : Prop} [Decidable c] {e' : ε'} {e : ε} {g' : Unit → Parser ε' σ' β}
    {g : Unit → Parser ε σ β} (hg : c → AgreeOff W (g' ()) (g ())) :
    AgreeOff W (Parser.ensure c e' >>= g') (Parser.ensure c e >>= g) := by
  by_cases hc : c
  · rw [Parser.ensure, Parser.ensure, if_pos hc, if_pos hc]
    exact hg hc
  · rw [Parser.ensure, Parser.ensure, if_neg hc, if_neg hc]
    intro b y r
    constructor
    · rintro ⟨⟩
    · rintro ⟨⟨⟩, -⟩

/-- They stand after what the first part takes. -/
theorem after {k : Nat} {P : α → Prop} (hm : Agree m' m) (hreads : Reads NoPieces k m P)
    (hf : ∀ a, AgreeOff W (f' a) (f a)) : AgreeOff (After k W) (m' >>= f') (m >>= f) := by
  refine (bind hm hf).congr fun b y r hrun => ?_
  obtain ⟨a, r', hm, -⟩ := Parser.run_bind_ok_iff.mp hrun
  obtain ⟨d, rfl, hd, -, -⟩ := hreads b a r' hm
  rw [After.append_iff (hd.items fun _ => False.elim)]
  constructor
  · intro h
    obtain ⟨a₁, r₁, hrun₁, hW⟩ := h
    rw [hm] at hrun₁
    cases hrun₁
    exact hW
  · exact fun hW => ⟨a, r', hm, hW⟩

theorem mapError (g' : ε' → ε') (g : ε → ε) (hm : AgreeOff W m' m) :
    AgreeOff W (Parser.mapError g' m') (Parser.mapError g m) := by
  intro b a r
  rw [Parser.mapError_run_ok, Parser.mapError_run_ok]
  exact hm b a r

/-- A loop has the exceptions of its rounds, each past the rounds before. -/
theorem times (hm : AgreeOff W m' m) (n : Nat) :
    AgreeOff (fun b => ∃ i, i < n ∧ Past (Parser.times i m) W b) (Parser.times n m')
      (Parser.times n m) := by
  induction n with
  | zero => exact of_agree (Agree.pure []) fun b a r _ h => by obtain ⟨i, hi, -⟩ := h; omega
  | succ n ih =>
      intro b l r
      rw [Parser.times, Parser.times, Parser.run_bind_ok_iff, Parser.run_bind_ok_iff]
      constructor
      · rintro ⟨a, r', hm', hrest⟩
        obtain ⟨hrun, hW⟩ := (hm b a r').mp hm'
        obtain ⟨hrest', hW'⟩ := (ih.bind_agree fun l => Agree.pure (a :: l)) r' l r |>.mp hrest
        exact ⟨⟨a, r', hrun, hrest'⟩, fun h => ((Past.rounds_succ hrun n).mp h).elim hW hW'⟩
      · rintro ⟨⟨a, r', hrun, hrest⟩, hW⟩
        have hnot := fun h => hW ((Past.rounds_succ hrun n).mpr h)
        refine ⟨a, r', (hm b a r').mpr ⟨hrun, fun h => hnot (Or.inl h)⟩, ?_⟩
        exact (ih.bind_agree fun l => Agree.pure (a :: l)) r' l r |>.mpr
          ⟨hrest, fun h => hnot (Or.inr h)⟩

end AgreeOff

end Codec
