/-
Parsers, printers, and the two rules a codec is verified with.

A `Parser` reads from the front of a byte string and either fails or returns a value
and what it left.  Beside that it keeps a log of events on the way, which its result
never depends on: the log of a sequence is the log of its first part and then, where
that succeeded, the log of the rest.  A `Printer` writes bytes and may fail.

Two judgements carry the proofs.

  * `Reads X k m P`: whenever `m` succeeds, the bytes it took are exactly `k`
    well-formed CBOR items, or pieces of `X` in the place of some, its value satisfies `P`,
    and it would have returned the same value whatever came after those bytes.
  * `Writes p m a`: `p` succeeds, and `m` reads `a` back from the bytes `p` wrote,
    whatever comes after them.

Both compose along `>>=`, so a decoder is verified by following its own text.
-/
import C509Cert.Cbor.Skip

namespace Codec

open Cbor

variable {ε σ α β : Type}

/-- A reader of bytes, with a log of events of type `σ`. -/
structure Parser (ε σ α : Type) where
  /-- The value and the rest of the input, or an error. -/
  run : Bytes → Except ε (α × Bytes)
  /-- The events on the way, in order. -/
  log : Bytes → List σ

/-- A writer of bytes. -/
structure Printer (ε α : Type) where
  /-- The value and the bytes written, or an error. -/
  run : Except ε (α × Bytes)

namespace Parser

instance : Monad (Parser ε σ) where
  pure a := ⟨fun b => .ok (a, b), fun _ => []⟩
  bind m f :=
    { run := fun b =>
        match m.run b with
        | .ok (a, r) => (f a).run r
        | .error e => .error e
      log := fun b =>
        m.log b ++
          match m.run b with
          | .ok (a, r) => (f a).log r
          | .error _ => [] }

/-- Fail. -/
def fail (e : ε) : Parser ε σ α := ⟨fun _ => .error e, fun _ => []⟩

/-- Fail unless `c` holds. -/
def ensure (c : Prop) [Decidable c] (e : ε) : Parser ε σ Unit := if c then pure () else fail e

/-- The value of an option, or fail. -/
def get (o : Option α) (e : ε) : Parser ε σ α :=
  match o with
  | some a => pure a
  | none => fail e

/-- Log an event made from the input, and read nothing. -/
def emit (f : Bytes → σ) : Parser ε σ Unit := ⟨fun b => .ok ((), b), fun b => [f b]⟩

/-- Run a parser on the input without moving on. -/
def probe (m : Parser ε σ α) : Parser ε σ α :=
  { run := fun b =>
      match m.run b with
      | .ok (a, _) => .ok (a, b)
      | .error e => .error e
    log := m.log }

/-- Run a parser, with another error where it fails. -/
def mapError (f : ε → ε) (m : Parser ε σ α) : Parser ε σ α :=
  { run := fun b =>
      match m.run b with
      | .ok v => .ok v
      | .error e => .error (f e)
    log := m.log }

/-- Run a parser `n` times, one after the other. -/
def times : Nat → Parser ε σ α → Parser ε σ (List α)
  | 0, _ => pure []
  | n + 1, m => do
      let a ← m
      let l ← times n m
      return a :: l

/-- Run a step `n` times, each continuing from the state the last one left. -/
def iterate {S : Type} (step : S → Parser ε σ (α × S)) : Nat → S → Parser ε σ (List α)
  | 0, _ => pure []
  | n + 1, s => do
      let x ← step s
      let l ← iterate step n x.2
      return x.1 :: l

@[simp] theorem run_pure (a : α) (b : Bytes) : (pure a : Parser ε σ α).run b = .ok (a, b) := rfl

@[simp] theorem log_pure (a : α) (b : Bytes) : (pure a : Parser ε σ α).log b = [] := rfl

@[simp] theorem run_fail (e : ε) (b : Bytes) : (fail e : Parser ε σ α).run b = .error e := rfl

theorem run_ensure {c : Prop} [Decidable c] (h : c) (e : ε) (b : Bytes) :
    (ensure c e : Parser ε σ Unit).run b = .ok ((), b) := by
  rw [ensure, if_pos h]
  rfl

theorem run_get_ok_iff {o : Option α} {e : ε} {b r : Bytes} {a : α} :
    (get o e : Parser ε σ α).run b = .ok (a, r) ↔ o = some a ∧ r = b := by
  cases o with
  | none => exact iff_of_false nofun (by rintro ⟨⟨⟩, -⟩)
  | some a' =>
      constructor
      · rintro ⟨⟩
        exact ⟨rfl, rfl⟩
      · rintro ⟨⟨⟩, rfl⟩
        rfl

theorem run_ensure_ok_iff {c : Prop} [Decidable c] {e : ε} {b r : Bytes} {u : Unit} :
    (ensure c e : Parser ε σ Unit).run b = .ok (u, r) ↔ c ∧ r = b := by
  constructor
  · intro h
    by_cases hc : c
    · rw [run_ensure hc] at h
      cases h
      exact ⟨hc, rfl⟩
    · rw [ensure, if_neg hc] at h
      cases h
  · rintro ⟨hc, rfl⟩
    exact run_ensure hc e r

theorem run_bind (m : Parser ε σ α) (f : α → Parser ε σ β) (b : Bytes) :
    (m >>= f).run b =
      match m.run b with
      | .ok (a, r) => (f a).run r
      | .error e => .error e := rfl

theorem log_bind (m : Parser ε σ α) (f : α → Parser ε σ β) (b : Bytes) :
    (m >>= f).log b =
      m.log b ++
        match m.run b with
        | .ok (a, r) => (f a).log r
        | .error _ => [] := rfl

theorem pure_bind (a : α) (f : α → Parser ε σ β) : (pure a >>= f) = f a := rfl

theorem bind_assoc {γ : Type} (m : Parser ε σ α) (f : α → Parser ε σ β) (g : β → Parser ε σ γ) :
    m >>= f >>= g = m >>= fun a => f a >>= g := by
  have hrun : (m >>= f >>= g).run = (m >>= fun a => f a >>= g).run := by
    funext b
    simp only [run_bind]
    cases m.run b <;> rfl
  have hlog : (m >>= f >>= g).log = (m >>= fun a => f a >>= g).log := by
    funext b
    simp only [log_bind, run_bind]
    cases m.run b with
    | error e => simp
    | ok v => simp [List.append_assoc]
  calc m >>= f >>= g = ⟨(m >>= f >>= g).run, (m >>= f >>= g).log⟩ := rfl
    _ = ⟨(m >>= fun a => f a >>= g).run, (m >>= fun a => f a >>= g).log⟩ := by rw [hrun, hlog]

theorem mapError_run_ok {f : ε → ε} {m : Parser ε σ α} {b r : Bytes} {a : α} :
    (mapError f m).run b = .ok (a, r) ↔ m.run b = .ok (a, r) := by
  unfold mapError
  simp only
  cases m.run b with
  | ok v => rfl
  | error e =>
      constructor
      · rintro ⟨⟩
      · rintro ⟨⟩

theorem probe_run_ok {m : Parser ε σ α} {b r : Bytes} {a : α} :
    (probe m).run b = .ok (a, r) ↔ (∃ r', m.run b = .ok (a, r')) ∧ r = b := by
  unfold probe
  simp only
  cases m.run b with
  | error e => simp
  | ok v =>
      obtain ⟨x, t⟩ := v
      simp only [Except.ok.injEq, Prod.mk.injEq]
      constructor
      · rintro ⟨rfl, rfl⟩
        exact ⟨⟨t, rfl, rfl⟩, rfl⟩
      · rintro ⟨⟨_, rfl, -⟩, rfl⟩
        exact ⟨rfl, rfl⟩

/-- A sequence continues from where its first part stopped. -/
theorem run_bind_of_ok {m : Parser ε σ α} {f : α → Parser ε σ β} {b r : Bytes} {a : α}
    (h : m.run b = .ok (a, r)) : (m >>= f).run b = (f a).run r := by
  rw [run_bind, h]

theorem run_bind_ok_iff {m : Parser ε σ α} {f : α → Parser ε σ β} {b r : Bytes} {y : β} :
    (m >>= f).run b = .ok (y, r) ↔ ∃ a r', m.run b = .ok (a, r') ∧ (f a).run r' = .ok (y, r) := by
  rw [run_bind]
  cases hm : m.run b with
  | error e => simp
  | ok v =>
      obtain ⟨a, r'⟩ := v
      constructor
      · intro h
        exact ⟨a, r', rfl, h⟩
      · rintro ⟨a₁, r₁, heq, h⟩
        simp only [Except.ok.injEq, Prod.mk.injEq] at heq
        obtain ⟨rfl, rfl⟩ := heq
        exact h

/-- A loop that never changes its state is a plain loop. -/
theorem iterate_const {S : Type} {m : Parser ε σ α} (s : S) :
    ∀ n, iterate (fun s => m >>= fun a => pure (a, s)) n s = times n m := by
  intro n
  induction n with
  | zero => rfl
  | succ n ih =>
      rw [iterate, times, bind_assoc]
      simp only [pure_bind, ih]

/-- A loop of one value is one round. -/
theorem times_run_singleton {m : Parser ε σ α} {n : Nat} {b r : Bytes} {a : α}
    (h : (times n m).run b = .ok ([a], r)) : n = 1 ∧ m.run b = .ok (a, r) := by
  match n, h with
  | 0, h => cases h
  | 1, h =>
      obtain ⟨a', r', hm, hpure⟩ := run_bind_ok_iff.mp h
      cases hpure
      exact ⟨rfl, hm⟩
  | n + 2, h =>
      obtain ⟨a', r', -, hrest⟩ := run_bind_ok_iff.mp h
      obtain ⟨l, r₁, htimes, hpure⟩ := run_bind_ok_iff.mp hrest
      obtain ⟨a₂, r₂, -, htail⟩ := run_bind_ok_iff.mp htimes
      obtain ⟨l₂, r₃, -, hcons⟩ := run_bind_ok_iff.mp htail
      cases hcons
      cases hpure

end Parser

namespace Printer

instance : Monad (Printer ε) where
  pure a := ⟨.ok (a, [])⟩
  bind p f :=
    { run :=
        match p.run with
        | .error e => .error e
        | .ok (a, o) =>
            match (f a).run with
            | .error e => .error e
            | .ok (b, o') => .ok (b, o ++ o') }

/-- Write bytes. -/
def put (o : Bytes) : Printer ε Unit := ⟨.ok ((), o)⟩

/-- Fail. -/
def fail (e : ε) : Printer ε α := ⟨.error e⟩

/-- The value of an option, or fail. -/
def get (o : Option α) (e : ε) : Printer ε α :=
  match o with
  | some a => pure a
  | none => fail e

/-- Write the elements of a list, each continuing from the state the last one left. -/
def iterate {S : Type} (step : S → α → Printer ε S) : List α → S → Printer ε Unit
  | [], _ => pure ()
  | x :: l, s => do
      let s ← step s x
      iterate step l s

@[simp] theorem run_pure (a : α) : (pure a : Printer ε α).run = .ok (a, []) := rfl

@[simp] theorem run_put (o : Bytes) : (put o : Printer ε Unit).run = .ok ((), o) := rfl

@[simp] theorem run_fail (e : ε) : (fail e : Printer ε α).run = .error e := rfl

theorem run_bind (p : Printer ε α) (f : α → Printer ε β) :
    (p >>= f).run =
      match p.run with
      | .error e => .error e
      | .ok (a, o) =>
          match (f a).run with
          | .error e => .error e
          | .ok (b, o') => .ok (b, o ++ o') := rfl

theorem pure_bind (a : α) (f : α → Printer ε β) : (pure a >>= f) = f a := by
  have hrun : (pure a >>= f).run = (f a).run := by
    rw [run_bind, run_pure]
    simp only
    split <;> rename_i heq <;> rw [heq]
    rfl
  calc (pure a >>= f) = ⟨(pure a >>= f).run⟩ := rfl
    _ = f a := by rw [hrun]

theorem bind_assoc {γ : Type} (p : Printer ε α) (f : α → Printer ε β) (g : β → Printer ε γ) :
    p >>= f >>= g = p >>= fun a => f a >>= g := by
  have hrun : (p >>= f >>= g).run = (p >>= fun a => f a >>= g).run := by
    simp only [run_bind]
    cases hp : p.run with
    | error e => rfl
    | ok v =>
        obtain ⟨a, o⟩ := v
        simp only
        cases hf : (f a).run with
        | error e => rfl
        | ok w =>
            obtain ⟨b, o'⟩ := w
            simp only
            cases hg : (g b).run with
            | error e => rfl
            | ok x => simp only [List.append_assoc]
  calc p >>= f >>= g = ⟨(p >>= f >>= g).run⟩ := rfl
    _ = p >>= fun a => f a >>= g := by rw [hrun]

theorem run_bind_of_ok {p : Printer ε α} {f : α → Printer ε β} {a : α} {b : β} {o o' : Bytes}
    (hp : p.run = .ok (a, o)) (hf : (f a).run = .ok (b, o')) :
    (p >>= f).run = .ok (b, o ++ o') := by
  rw [run_bind, hp]
  simp only [hf]

theorem iterate_map {S γ : Type} (step : S → β → Printer ε S) (g : γ → β) :
    ∀ (l : List γ) (s : S), iterate step (l.map g) s = iterate (fun s x => step s (g x)) l s := by
  intro l
  induction l with
  | nil => intro s; rfl
  | cons x l ih =>
      intro s
      rw [List.map_cons, iterate, iterate]
      simp only [ih]

/-- A loop that never changes its state is a plain loop. -/
theorem iterate_const {S : Type} (enc : α → Printer ε Unit) (s : S) :
    ∀ l : List α, iterate (fun s x => enc x >>= fun _ => pure s) l s = forM l enc := by
  intro l
  induction l with
  | nil => rfl
  | cons x l ih => rw [iterate, bind_assoc, List.forM_cons]; simp only [pure_bind, ih]

theorem run_bind_ok_iff {p : Printer ε α} {f : α → Printer ε β} {b : β} {o : Bytes} :
    (p >>= f).run = .ok (b, o) ↔
      ∃ a o₁ o₂, p.run = .ok (a, o₁) ∧ (f a).run = .ok (b, o₂) ∧ o = o₁ ++ o₂ := by
  constructor
  · intro h
    rw [run_bind] at h
    cases hp : p.run with
    | error e => simp [hp] at h
    | ok v =>
        obtain ⟨a, o₁⟩ := v
        simp only [hp] at h
        cases hf : (f a).run with
        | error e => simp [hf] at h
        | ok w =>
            obtain ⟨b', o₂⟩ := w
            simp only [hf, Except.ok.injEq, Prod.mk.injEq] at h
            obtain ⟨rfl, rfl⟩ := h
            exact ⟨a, o₁, o₂, rfl, hf, rfl⟩
  · rintro ⟨a, o₁, o₂, hp, hf, rfl⟩
    exact run_bind_of_ok hp hf

/-- A loop succeeds only where every round does. -/
theorem run_of_forM_ok {enc : α → Printer ε Unit} {x : α} :
    ∀ {l : List α} {o : Bytes}, (forM l enc).run = .ok ((), o) → x ∈ l →
      ∃ o', (enc x).run = .ok ((), o') := by
  intro l
  induction l with
  | nil => intro o _ hx; cases hx
  | cons y l ih =>
      intro o h hx
      rw [List.forM_cons] at h
      obtain ⟨_, o₁, o₂, hy, hl, -⟩ := run_bind_ok_iff.mp h
      rcases List.mem_cons.mp hx with rfl | hx
      · exact ⟨o₁, hy⟩
      · exact ih hl hx

end Printer

/-! ### Printers that never fail -/

/-- `p` succeeds. -/
def Printer.Total (p : Printer ε α) : Prop := ∃ a o, p.run = .ok (a, o)

namespace Printer.Total

variable {p : Printer ε α} {f : α → Printer ε β}

theorem pure (a : α) : Total (Pure.pure a : Printer ε α) := ⟨a, [], rfl⟩

theorem put (o : Bytes) : Total (Printer.put o : Printer ε Unit) := ⟨(), o, rfl⟩

theorem bind (hp : Total p) (hf : ∀ a, Total (f a)) : Total (p >>= f) := by
  obtain ⟨a, o, hrun⟩ := hp
  obtain ⟨b, o', hrun'⟩ := hf a
  exact ⟨b, o ++ o', run_bind_of_ok hrun hrun'⟩

theorem forM {enc : α → Printer ε Unit} :
    ∀ {l : List α}, (∀ x ∈ l, Total (enc x)) → Total (forM l enc : Printer ε PUnit) := by
  intro l
  induction l with
  | nil => intro _; exact pure _
  | cons x l ih =>
      intro h
      rw [List.forM_cons]
      exact bind (h x (by simp)) fun _ => ih fun y hy => h y (by simp [hy])

/-- A loop whose rounds succeed and keep an invariant of the state. -/
theorem iterate {S : Type} {step : S → α → Printer ε S} {I : S → Prop} :
    ∀ {l : List α}, (∀ s, I s → ∀ x ∈ l, ∃ s' o, (step s x).run = .ok (s', o) ∧ I s') →
      ∀ s, I s → Total (Printer.iterate step l s) := by
  intro l
  induction l with
  | nil => intro _ s _; exact pure _
  | cons x l ih =>
      intro h s hs
      obtain ⟨s', o, hrun, hs'⟩ := h s hs x (by simp)
      obtain ⟨u, o', hrun'⟩ := ih (fun s hs y hy => h s hs y (by simp [hy])) s' hs'
      exact ⟨u, o ++ o', run_bind_of_ok hrun hrun'⟩

end Printer.Total

/-! ### Reading back -/

/-- `m` reads `a` from the bytes `c`, whatever comes after them. -/
def Yields (m : Parser ε σ α) (c : Bytes) (a : α) : Prop :=
  ∀ r, m.run (c ++ r) = .ok (a, r)

theorem Yields.pure (a : α) : Yields (Pure.pure a : Parser ε σ α) [] a := fun _ => rfl

theorem Yields.bind {m : Parser ε σ α} {f : α → Parser ε σ β} {c d : Bytes} {a : α} {y : β}
    (hm : Yields m c a) (hf : Yields (f a) d y) : Yields (m >>= f) (c ++ d) y := by
  intro r
  rw [List.append_assoc, Parser.run_bind_of_ok (hm (d ++ r))]
  exact hf r

/-- Bytes a parser reads values from are no proper prefixes of each other. -/
theorem Yields.unique {m : Parser ε σ α} {c d : Bytes} {a b : α} (hc : Yields m c a)
    (hd : Yields m d b) (h : c <+: d) : c = d ∧ a = b := by
  obtain ⟨t, rfl⟩ := h
  have hrest := hd []
  rw [List.append_nil, hc t] at hrest
  cases hrest
  exact ⟨(List.append_nil c).symm, rfl⟩

/-! ### What a parser takes -/

/--
Whenever `m` succeeds it has taken exactly `k` well-formed items, or pieces of `X` in the
place of some, its value satisfies `P`, and those bytes alone decide it.
-/
def Reads (X : Bytes → Prop) (k : Nat) (m : Parser ε σ α) (P : α → Prop) : Prop :=
  ∀ b a r, m.run b = .ok (a, r) → ∃ c, b = c ++ r ∧ Units X k c ∧ P a ∧ Yields m c a

namespace Reads

variable {X : Bytes → Prop} {k j : Nat} {m : Parser ε σ α} {f : α → Parser ε σ β}
  {P P' : α → Prop} {Q : β → Prop}

theorem pure {a : α} (h : P a) : Reads X 0 (Pure.pure a : Parser ε σ α) P := by
  rintro b a' r heq
  cases heq
  exact ⟨[], rfl, Units.nil, h, Yields.pure a⟩

theorem fail (e : ε) : Reads X k (Parser.fail e : Parser ε σ α) P := by
  rintro b a r heq
  cases heq

theorem weaken (hm : Reads X k m P) (h : ∀ a, P a → P' a) : Reads X k m P' := by
  intro b a r heq
  obtain ⟨c, hb, hc, ha, hy⟩ := hm b a r heq
  exact ⟨c, hb, hc, h a ha, hy⟩

/-- A parser that takes nothing but items. -/
theorem of_items (hm : Reads NoPieces k m P) : Reads X k m P := by
  intro b a r heq
  obtain ⟨c, hb, hc, ha, hy⟩ := hm b a r heq
  exact ⟨c, hb, hc.mono fun _ => False.elim, ha, hy⟩

theorem cast (hm : Reads X k m P) (h : k = j) : Reads X j m P := h ▸ hm

/-- A parser followed by another takes the items of both. -/
theorem bind (hm : Reads X k m P) (hf : ∀ a, P a → Reads X j (f a) Q) :
    Reads X (k + j) (m >>= f) Q := by
  intro b y r heq
  obtain ⟨a, r', hma, hfa⟩ := Parser.run_bind_ok_iff.mp heq
  obtain ⟨c, rfl, hc, ha, hyc⟩ := hm b a r' hma
  obtain ⟨d, rfl, hd, hy, hyd⟩ := hf a ha r' y r hfa
  exact ⟨c ++ d, by rw [List.append_assoc], hc.append hd, hy, hyc.bind hyd⟩

/-- A first step that takes nothing. -/
theorem step (hm : Reads X 0 m P) (hf : ∀ a, P a → Reads X j (f a) Q) : Reads X j (m >>= f) Q :=
  (bind hm hf).cast (Nat.zero_add j)

/-- A last step that only builds the value. -/
theorem map {g : α → β} (hm : Reads X k m P) (hg : ∀ a, P a → Q (g a)) :
    Reads X k (m >>= fun a => Pure.pure (g a)) Q :=
  bind hm fun a ha => pure (hg a ha)

theorem ensure {c : Prop} [Decidable c] (e : ε) :
    Reads X 0 (Parser.ensure c e : Parser ε σ Unit) (fun _ => c) := by
  unfold Parser.ensure
  split
  · exact pure ‹c›
  · exact fail e

theorem get (o : Option α) (e : ε) :
    Reads X 0 (Parser.get o e : Parser ε σ α) (fun a => o = some a) := by
  cases o with
  | none => exact fail e
  | some a => exact pure rfl

theorem emit (g : Bytes → σ) : Reads X 0 (Parser.emit g : Parser ε σ Unit) (fun _ => True) := by
  rintro b a r heq
  cases heq
  exact ⟨[], rfl, Units.nil, trivial, fun _ => rfl⟩

theorem mapError {g : ε → ε} (hm : Reads X k m P) : Reads X k (Parser.mapError g m) P := by
  intro b a r hrun
  obtain ⟨c, hb, hc, ha, hy⟩ := hm b a r (Parser.mapError_run_ok.mp hrun)
  exact ⟨c, hb, hc, ha, fun r' => Parser.mapError_run_ok.mpr (hy r')⟩

/-- A loop takes the items of its rounds, and returns one value for each round. -/
theorem iterate {S : Type} {step : S → Parser ε σ (α × S)}
    (hstep : ∀ s, Reads X k (step s) fun x => P x.1) :
    ∀ n s, Reads X (n * k) (Parser.iterate step n s) (fun l => l.length = n ∧ ∀ a ∈ l, P a) := by
  intro n
  induction n with
  | zero =>
      intro s
      rw [Nat.zero_mul]
      exact pure ⟨rfl, by simp⟩
  | succ n ih =>
      intro s
      have hloop : Reads X (k + n * k) (Parser.iterate step (n + 1) s)
          (fun l => l.length = n + 1 ∧ ∀ a ∈ l, P a) := by
        refine bind (hstep s) fun x hx => map (ih x.2) fun l hl => ?_
        exact ⟨by simp [hl.1], List.forall_mem_cons.mpr ⟨hx, hl.2⟩⟩
      exact hloop.cast (by ring)

/-- The same of a loop without a state. -/
theorem times (hm : Reads X k m P) (n : Nat) :
    Reads X (n * k) (Parser.times n m) (fun l => l.length = n ∧ ∀ a ∈ l, P a) := by
  rw [← Parser.iterate_const ()]
  exact iterate (fun _ => map hm fun _ ha => ha) n ()

/-- A probe may look as far as it likes, as long as what it sees is decided by the bytes
that are then taken. -/
theorem probe (hf : ∀ a, Reads X k (f a) Q)
    (hlocal : ∀ c r a t y, Units X k c → m.run (c ++ r) = .ok (a, t) →
      (f a).run (c ++ r) = .ok (y, r) → ∀ r', ∃ t', m.run (c ++ r') = .ok (a, t')) :
    Reads X k (Parser.probe m >>= f) Q := by
  intro b y r hrun
  obtain ⟨a, b', hprobe, hfa⟩ := Parser.run_bind_ok_iff.mp hrun
  obtain ⟨⟨t, hm⟩, rfl⟩ := Parser.probe_run_ok.mp hprobe
  obtain ⟨c, rfl, hc, hy, hyc⟩ := hf a b' y r hfa
  refine ⟨c, rfl, hc, hy, fun r' => ?_⟩
  have hprobe' : (Parser.probe m).run (c ++ r') = .ok (a, c ++ r') :=
    Parser.probe_run_ok.mpr ⟨hlocal c r a t y hc hm hfa r', rfl⟩
  rw [Parser.run_bind_of_ok hprobe']
  exact hyc r'

end Reads

/-! ### The parts of an input

What a parser took can be taken out of the input, and any other bytes it would have taken put
in its place.
-/

theorem Reads.split {X : Bytes → Prop} {k : Nat} {m : Parser ε σ α} {P : α → Prop}
    (hm : Reads X k m P) {f : α → Parser ε σ β} {b r : Bytes} {y : β}
    (h : (m >>= f).run b = .ok (y, r)) :
    ∃ a c b', b = c ++ b' ∧ Yields m c a ∧ (f a).run b' = .ok (y, r) := by
  obtain ⟨a, b', hrun, hrest⟩ := Parser.run_bind_ok_iff.mp h
  obtain ⟨c, rfl, -, -, hy⟩ := hm b a b' hrun
  exact ⟨a, c, b', rfl, hy, hrest⟩

/-- A loop reads its parts, whatever they are. -/
theorem Yields.times {m : Parser ε σ α} :
    ∀ {parts : List (Bytes × α)}, (∀ x ∈ parts, Yields m x.1 x.2) →
      Yields (Parser.times parts.length m) (parts.flatMap Prod.fst) (parts.map Prod.snd) := by
  intro parts
  induction parts with
  | nil => intro _; exact Yields.pure []
  | cons x parts ih =>
      intro h
      obtain ⟨hx, hparts⟩ := List.forall_mem_cons.mp h
      have hlist : Yields (Parser.times parts.length m >>= fun l => Pure.pure (x.2 :: l))
          (parts.flatMap Prod.fst ++ []) (x.2 :: parts.map Prod.snd) :=
        (ih hparts).bind (Yields.pure _)
      rw [List.append_nil] at hlist
      exact hx.bind hlist

/-- What a loop took falls into the parts its rounds took. -/
theorem Reads.times_parts {X : Bytes → Prop} {k : Nat} {m : Parser ε σ α} {P : α → Prop}
    (hm : Reads X k m P) :
    ∀ {n : Nat} {b r : Bytes} {l : List α}, (Parser.times n m).run b = .ok (l, r) →
      ∃ parts : List (Bytes × α), parts.length = n ∧ parts.map Prod.snd = l ∧
        b = parts.flatMap Prod.fst ++ r ∧ ∀ x ∈ parts, Yields m x.1 x.2 := by
  intro n
  induction n with
  | zero =>
      intro b r l h
      cases h
      exact ⟨[], rfl, rfl, rfl, by simp⟩
  | succ n ih =>
      intro b r l h
      obtain ⟨a, c, b', rfl, hy, hrest⟩ := hm.split h
      obtain ⟨l', r', hloop, hpure⟩ := Parser.run_bind_ok_iff.mp hrest
      cases hpure
      obtain ⟨parts, rfl, rfl, rfl, hparts⟩ := ih hloop
      exact ⟨(c, a) :: parts, rfl, rfl, by simp, List.forall_mem_cons.mpr ⟨hy, hparts⟩⟩

/-! ### Local parsers

What a parser takes, it takes whatever follows, so an input cut short within those bytes
holds no others that it could take instead.
-/

/--
Where `m` succeeds having taken `k` bytes, it does the same on every input that starts with
those bytes, and fails on every prefix that has fewer.
-/
def Local (m : Parser ε σ α) : Prop :=
  ∀ b a r, m.run b = .ok (a, r) → ∃ k, k ≤ b.length ∧ r = b.drop k ∧
    (∀ b', b'.take k = b.take k → m.run b' = .ok (a, b'.drop k)) ∧
      ∀ p, p <+: b → p.length < k → ∃ e, m.run p = .error e

/-- **A parser that reads is local.** -/
theorem Reads.isLocal {X : Bytes → Prop} {k : Nat} {m : Parser ε σ α} {P : α → Prop}
    (hm : Reads X k m P) : Local m := by
  intro b a r hrun
  obtain ⟨c, rfl, -, -, hy⟩ := hm b a r hrun
  refine ⟨c.length, by simp, by simp, fun b' hb' => ?_, fun p hp hlt => ?_⟩
  · rw [List.take_left] at hb'
    have hsplit : b' = c ++ b'.drop c.length := by
      conv_lhs => rw [← List.take_append_drop c.length b', hb']
    conv_lhs => rw [hsplit]
    exact hy _
  · cases hcut : m.run p with
    | error e => exact ⟨e, rfl⟩
    | ok v =>
        -- what is taken from the prefix would be taken from the whole input
        obtain ⟨a', s⟩ := v
        obtain ⟨d, rfl, -, -, hd⟩ := hm p a' s hcut
        obtain ⟨t, ht⟩ := hp
        rw [List.append_assoc] at ht
        rw [← ht, hd (s ++ t)] at hrun
        cases hrun
        obtain rfl : d = c := List.append_cancel_right ht
        simp at hlt

/-! ### What a parser logs -/

/-- Every event `m` logs satisfies `E`. -/
def Logs (m : Parser ε σ α) (E : σ → Prop) : Prop :=
  ∀ b, ∀ e ∈ m.log b, E e

namespace Logs

variable {m : Parser ε σ α} {f : α → Parser ε σ β} {E : σ → Prop}

theorem pure (a : α) : Logs (Pure.pure a : Parser ε σ α) E := by
  intro b e he
  cases he

theorem fail (e : ε) : Logs (Parser.fail e : Parser ε σ α) E := by
  intro b e he
  cases he

theorem bind (hm : Logs m E) (hf : ∀ a, Logs (f a) E) : Logs (m >>= f) E := by
  intro b e he
  rw [Parser.log_bind] at he
  rcases List.mem_append.mp he with he | he
  · exact hm b e he
  · split at he
    · exact hf _ _ e he
    · cases he

theorem ensure (c : Prop) [Decidable c] (e : ε) :
    Logs (Parser.ensure c e : Parser ε σ Unit) E := by
  unfold Parser.ensure
  split
  · exact pure ()
  · exact fail e

theorem get (o : Option α) (e : ε) : Logs (Parser.get o e : Parser ε σ α) E := by
  cases o with
  | none => exact fail e
  | some a => exact pure a

theorem emit {g : Bytes → σ} (hg : ∀ b, E (g b)) : Logs (Parser.emit g : Parser ε σ Unit) E := by
  intro b e he
  rw [Parser.emit, List.mem_singleton] at he
  subst he
  exact hg b

theorem times (hm : Logs m E) : ∀ n, Logs (Parser.times n m) E := by
  intro n
  induction n with
  | zero => exact pure []
  | succ n ih => exact bind hm fun a => bind ih fun l => pure (a :: l)

theorem iterate {S : Type} {step : S → Parser ε σ (α × S)} (hstep : ∀ s, Logs (step s) E) :
    ∀ n s, Logs (Parser.iterate step n s) E := by
  intro n
  induction n with
  | zero => intro s; exact pure []
  | succ n ih => intro s; exact bind (hstep s) fun x => bind (ih x.2) fun l => pure (x.1 :: l)

theorem probe (hm : Logs m E) : Logs (Parser.probe m) E := hm

theorem mapError {g : ε → ε} (hm : Logs m E) : Logs (Parser.mapError g m) E := hm

end Logs

/-! ### What a printer writes -/

/-- `p` succeeds, and `m` reads `a` back from what it writes. -/
def Writes (p : Printer ε Unit) {ε' : Type} (m : Parser ε' σ α) (a : α) : Prop :=
  ∃ c, p.run = .ok ((), c) ∧ Yields m c a

namespace Writes

variable {ε' : Type} {p q : Printer ε Unit} {m : Parser ε' σ α} {f : α → Parser ε' σ β}
  {a : α} {y : β}

theorem done (a : α) : Writes (Pure.pure () : Printer ε Unit) (Pure.pure a : Parser ε' σ α) a :=
  ⟨[], rfl, Yields.pure a⟩

theorem bind (hp : Writes p m a) (hq : Writes q (f a) y) :
    Writes (p >>= fun _ => q) (m >>= f) y := by
  obtain ⟨c, hpc, hyc⟩ := hp
  obtain ⟨d, hqd, hyd⟩ := hq
  exact ⟨c ++ d, Printer.run_bind_of_ok hpc hqd, hyc.bind hyd⟩

/-- A step of the parser that takes nothing has nothing to read back. -/
theorem step (hm : Yields m [] a) (hq : Writes q (f a) y) : Writes q (m >>= f) y := by
  obtain ⟨d, hqd, hyd⟩ := hq
  exact ⟨d, hqd, by simpa using hm.bind hyd⟩

/-- What a probe sees of the bytes written is what the parser goes on with. -/
theorem probe {m : Parser ε' σ α} {f : α → Parser ε' σ β}
    (hp : ∀ c, p.run = .ok ((), c) → ∀ r, ∃ t, m.run (c ++ r) = .ok (a, t))
    (hf : Writes p (f a) y) : Writes p (Parser.probe m >>= f) y := by
  obtain ⟨c, hpc, hyc⟩ := hf
  refine ⟨c, hpc, fun r => ?_⟩
  obtain ⟨t, ht⟩ := hp c hpc r
  have hprobe : (Parser.probe m).run (c ++ r) = .ok (a, c ++ r) := by simp [Parser.probe, ht]
  rw [Parser.run_bind_of_ok hprobe]
  exact hyc r

theorem mapError {g : ε' → ε'} (hp : Writes p m a) : Writes p (Parser.mapError g m) a := by
  obtain ⟨c, hpc, hyc⟩ := hp
  exact ⟨c, hpc, fun r => Parser.mapError_run_ok.mpr (hyc r)⟩

/-- A last step of the parser that only builds the value. -/
theorem map {g : α → β} (hp : Writes p m a) : Writes p (m >>= fun a => Pure.pure (g a)) (g a) := by
  obtain ⟨c, hpc, hyc⟩ := hp
  refine ⟨c, hpc, fun r => ?_⟩
  rw [Parser.run_bind_of_ok (hyc r)]
  rfl

/-- A loop reads back, element by element, what a loop writes. -/
theorem times {m : Parser ε' σ β} {enc : α → Printer ε Unit} {g : α → β} :
    ∀ l : List α, (∀ x ∈ l, Writes (enc x) m (g x)) →
      Writes (forM l enc) (Parser.times l.length m) (l.map g) := by
  intro l
  induction l with
  | nil => intro _; exact done []
  | cons x l ih =>
      intro h
      rw [List.forM_cons]
      exact bind (h x (by simp)) (map (ih fun y hy => h y (by simp [hy])))

/--
Two loops that carry a state, in step: as long as each round of the one is read back by
a round of the other that leaves the same state, the whole is.
-/
theorem iterate {S : Type} {estep : S → α → Printer ε S} {dstep : S → Parser ε' σ (β × S)}
    {g : α → β} {I : S → Prop} :
    ∀ l : List α, (∀ s, I s → ∀ x ∈ l, ∃ s' p, I s' ∧ estep s x = (p >>= fun _ => Pure.pure s') ∧
      Writes p (dstep s) (g x, s')) →
      ∀ s, I s →
        Writes (Printer.iterate estep l s) (Parser.iterate dstep l.length s) (l.map g) := by
  intro l
  induction l with
  | nil => intro _ s _; exact done []
  | cons x l ih =>
      intro h s hs
      obtain ⟨s', p, hs', hstep, c, hc, hy⟩ := h s hs x (by simp)
      obtain ⟨d, hd, hyd⟩ := ih (fun s hs y hy => h s hs y (by simp [hy])) s' hs'
      refine ⟨c ++ d, ?_, ?_⟩
      · rw [Printer.iterate, hstep]
        have hp : (p >>= fun _ => (Pure.pure s' : Printer ε S)).run = .ok (s', c) := by
          rw [Printer.run_bind_of_ok hc (Printer.run_pure s'), List.append_nil]
        exact Printer.run_bind_of_ok hp hd
      · intro r
        show (Parser.iterate dstep (l.length + 1) s).run _ = _
        rw [List.append_assoc, Parser.iterate, Parser.run_bind_of_ok (hy (d ++ r)),
          Parser.run_bind_of_ok (hyd r)]
        rfl

end Writes

end Codec
