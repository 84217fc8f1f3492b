/-
Programs that can fault.

A program ends with a value, with an error of its own, or with a fault: a sum that leaves
its type, an index behind the end of a slice.  Its text is written twice, once with the
operations as they are on numbers and lists and once with the checks the machine makes,
and a judgement compares the two.

  * `Clean b m' m Q`: from the input `b`, the checked parser `m'` ends as `m` does, errors
    included, and `Q` holds of the value and of what is left.
  * `Written p' p Q`: the checked printer `p'` and `p` both succeed, with the same bytes and
    the same value, and `Q` holds of it.

Neither leaves room for a fault.  `Q` carries the invariant that rules the next one out.
-/
import C509Cert.Codec.Parser

namespace Codec

open Cbor

variable {ε σ α β : Type}

/-- How a program ends that returns no value. -/
inductive Failure (ε : Type)
  | error (e : ε)
  | fault

/-- The outcome of a program in which nothing faults. -/
def Failure.lift : Except ε α → Except (Failure ε) α
  | .ok a => .ok a
  | .error e => .error (.error e)

/-! ### Operations that fault -/

/-- Go on, or fault. -/
def require (c : Prop) [Decidable c] : Except (Failure ε) Unit :=
  if c then .ok () else .error .fault

/-- The result of an operation on signed numbers of `w` bits. -/
def signed (w : Nat) (n : Int) : Except (Failure ε) Int :=
  if -2 ^ (w - 1) ≤ n ∧ n < 2 ^ (w - 1) then .ok n else .error .fault

/-- The element of a slice at an index. -/
def index (l : List α) (i : Nat) : Except (Failure ε) α :=
  match l[i]? with
  | some x => .ok x
  | none => .error .fault

/-- The part of a slice from an index on. -/
def sliceFrom (l : List α) (i : Nat) : Except (Failure ε) (List α) :=
  if i ≤ l.length then .ok (l.drop i) else .error .fault

/-- The part of a slice before an index. -/
def sliceTo (l : List α) (i : Nat) : Except (Failure ε) (List α) :=
  if i ≤ l.length then .ok (l.take i) else .error .fault

/-- What a slice holds after another was copied over it. -/
def copyFromSlice (dst src : List α) : Except (Failure ε) (List α) :=
  if dst.length = src.length then .ok src else .error .fault

/-- A vector without its first element. -/
def removeFirst : List α → Except (Failure ε) (List α)
  | [] => .error .fault
  | _ :: l => .ok l

theorem require_ok {c : Prop} [Decidable c] (h : c) :
    (require c : Except (Failure ε) Unit) = .ok () := if_pos h

theorem signed_ok {w : Nat} {n : Int} (hlo : -2 ^ (w - 1) ≤ n) (hhi : n < 2 ^ (w - 1)) :
    (signed w n : Except (Failure ε) Int) = .ok n := if_pos ⟨hlo, hhi⟩

theorem sliceTo_ok {l : List α} {i : Nat} (h : i ≤ l.length) :
    (sliceTo l i : Except (Failure ε) (List α)) = .ok (l.take i) := if_pos h

theorem copyFromSlice_ok {dst src : List α} (h : dst.length = src.length) :
    (copyFromSlice dst src : Except (Failure ε) (List α)) = .ok src := if_pos h

/-! ### Parsers -/

/-- A parser in which nothing faults. -/
def Parser.lift (m : Parser ε σ α) : Parser (Failure ε) σ α :=
  { run := fun b => Failure.lift (m.run b)
    log := m.log }

/-- An outcome, taken with the error of the program. -/
def Parser.ofExcept (x : Except ε α) : Parser ε σ α :=
  match x with
  | .ok a => Pure.pure a
  | .error e => Parser.fail e

/-- From `b`, `m'` ends as `m` does, and `Q` holds of the value and of what is left. -/
def Clean (b : Bytes) (m' : Parser (Failure ε) σ α) (m : Parser ε σ α)
    (Q : α → Bytes → Prop) : Prop :=
  m'.run b = Failure.lift (m.run b) ∧ ∀ a r, m.run b = .ok (a, r) → Q a r

namespace Clean

variable {b : Bytes} {m' : Parser (Failure ε) σ α} {m : Parser ε σ α}
  {f' : α → Parser (Failure ε) σ β} {f : α → Parser ε σ β} {Q Q' : α → Bytes → Prop}
  {J : β → Bytes → Prop}

theorem weaken (h : Clean b m' m Q) (hQ : ∀ a r, Q a r → Q' a r) : Clean b m' m Q' :=
  ⟨h.1, fun a r hrun => hQ a r (h.2 a r hrun)⟩

theorem pure {a : α} (h : Q a b) :
    Clean b (Pure.pure a : Parser (Failure ε) σ α) (Pure.pure a) Q := by
  refine ⟨rfl, fun a' r hrun => ?_⟩
  cases hrun
  exact h

theorem fail (e : ε) : Clean b (Parser.fail (.error e) : Parser (Failure ε) σ α)
    (Parser.fail e) Q := by
  refine ⟨rfl, fun a r hrun => ?_⟩
  cases hrun

theorem lift (h : ∀ a r, m.run b = .ok (a, r) → Q a r) : Clean b m.lift m Q := ⟨rfl, h⟩

/-- A parser of items leaves so much less than it was given. -/
theorem lift_reads {k : Nat} {P : α → Prop} (hm : Reads NoPieces k m P) :
    Clean b m.lift m fun a r => P a ∧ r.length + k ≤ b.length := by
  refine lift fun a r hrun => ?_
  obtain ⟨c, rfl, hc, ha, -⟩ := hm b a r hrun
  have hle := hc.le_length
  rw [List.length_append]
  exact ⟨ha, by omega⟩

theorem bind (hm : Clean b m' m Q) (hf : ∀ a r, Q a r → Clean r (f' a) (f a) J) :
    Clean b (m' >>= f') (m >>= f) J := by
  constructor
  · rw [Parser.run_bind, Parser.run_bind, hm.1]
    cases hrun : m.run b with
    | error e => rfl
    | ok v => exact (hf v.1 v.2 (hm.2 v.1 v.2 hrun)).1
  · intro y r hrun
    obtain ⟨a, r', hma, hfa⟩ := Parser.run_bind_ok_iff.mp hrun
    exact (hf a r' (hm.2 a r' hma)).2 y r hfa

/-- A checked computation that has a value. -/
theorem value {γ : Type} {x : Except (Failure ε) γ} {c : γ} {g : γ → Parser (Failure ε) σ α}
    (hx : x = .ok c) (h : Clean b (g c) m Q) : Clean b (Parser.ofExcept x >>= g) m Q := by
  subst hx
  exact h

/-- A loop, of which every round keeps the invariant. -/
theorem iterate {S : Type} {step' : S → Parser (Failure ε) σ (α × S)}
    {step : S → Parser ε σ (α × S)} {I : S → Bytes → Prop}
    (hstep : ∀ s b, I s b → Clean b (step' s) (step s) fun x r => I x.2 r) :
    ∀ n s b, I s b →
      Clean b (Parser.iterate step' n s) (Parser.iterate step n s) fun _ r => ∃ s, I s r := by
  intro n
  induction n with
  | zero => exact fun s b hI => pure ⟨s, hI⟩
  | succ n ih =>
      intro s b hI
      refine bind (hstep s b hI) fun x r hx => bind (ih x.2 r hx) fun l r' hl => pure hl

theorem times {I : Bytes → Prop} (hm : ∀ b, I b → Clean b m' m fun _ r => I r) (n : Nat)
    (hI : I b) : Clean b (Parser.times n m') (Parser.times n m) fun _ r => I r := by
  rw [← Parser.iterate_const (), ← Parser.iterate_const ()]
  refine (iterate (I := fun _ r => I r) (fun _ b hI => ?_) n () b hI).weaken ?_
  · exact bind (hm b hI) fun a r hr => pure hr
  · rintro - r ⟨-, hr⟩
    exact hr

end Clean

/-! ### Printers -/

/-- A printer in which nothing faults. -/
def Printer.lift (p : Printer ε α) : Printer (Failure ε) α := ⟨Failure.lift p.run⟩

/-- An outcome, taken with the error of the program. -/
def Printer.ofExcept (x : Except ε α) : Printer ε α :=
  match x with
  | .ok a => Pure.pure a
  | .error e => Printer.fail e

/-- `p'` and `p` succeed alike, and `Q` holds of the value. -/
def Written (p' : Printer (Failure ε) α) (p : Printer ε α) (Q : α → Prop) : Prop :=
  ∃ a o, p'.run = .ok (a, o) ∧ p.run = .ok (a, o) ∧ Q a

namespace Written

variable {p' : Printer (Failure ε) α} {p : Printer ε α} {f' : α → Printer (Failure ε) β}
  {f : α → Printer ε β} {Q Q' : α → Prop} {J : β → Prop}

theorem pure {a : α} (h : Q a) : Written (Pure.pure a : Printer (Failure ε) α) (Pure.pure a) Q :=
  ⟨a, [], rfl, rfl, h⟩

theorem lift {a : α} {o : Bytes} (hrun : p.run = .ok (a, o)) (h : Q a) : Written p.lift p Q := by
  refine ⟨a, o, ?_, hrun, h⟩
  show Failure.lift p.run = _
  rw [hrun]
  rfl

theorem put (o : Bytes) : Written (Printer.put o : Printer ε Unit).lift (Printer.put o)
    fun _ => True := lift rfl trivial

/-- A checked computation that has a value. -/
theorem value {γ : Type} {x : Except (Failure ε) γ} {c : γ} {g : γ → Printer (Failure ε) α}
    (hx : x = .ok c) (h : Written (g c) p Q) : Written (Printer.ofExcept x >>= g) p Q := by
  subst hx
  show Written (Pure.pure c >>= g) p Q
  rwa [Printer.pure_bind]

theorem bind (hp : Written p' p Q) (hf : ∀ a, Q a → Written (f' a) (f a) J) :
    Written (p' >>= f') (p >>= f) J := by
  obtain ⟨a, o, hrun', hrun, ha⟩ := hp
  obtain ⟨y, o', hfun', hfun, hy⟩ := hf a ha
  exact ⟨y, o ++ o', Printer.run_bind_of_ok hrun' hfun', Printer.run_bind_of_ok hrun hfun, hy⟩

theorem forM {enc' : α → Printer (Failure ε) Unit} {enc : α → Printer ε Unit} :
    ∀ {l : List α}, (∀ x ∈ l, Written (enc' x) (enc x) fun _ => True) →
      Written (forM l enc' : Printer (Failure ε) PUnit) (forM l enc) fun _ => True := by
  intro l
  induction l with
  | nil => exact fun _ => pure trivial
  | cons x l ih =>
      intro h
      rw [List.forM_cons, List.forM_cons]
      exact bind (h x (by simp)) fun _ _ => ih fun y hy => h y (by simp [hy])

/-- A loop, of which every round keeps the invariant. -/
theorem iterate {S : Type} {step' : S → α → Printer (Failure ε) S} {step : S → α → Printer ε S}
    {I : S → Prop} :
    ∀ {l : List α}, (∀ s, I s → ∀ x ∈ l, Written (step' s x) (step s x) I) →
      ∀ s, I s → Written (Printer.iterate step' l s) (Printer.iterate step l s) fun _ => True := by
  intro l
  induction l with
  | nil => exact fun _ s _ => pure trivial
  | cons x l ih =>
      intro h s hs
      exact bind (h s hs x (by simp)) fun s' hs' =>
        ih (fun s hs y hy => h s hs y (by simp [hy])) s' hs'

end Written

end Codec
