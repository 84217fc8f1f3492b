/-
Parsers that are fed piece by piece.

A reader that has only the beginning of an input cannot tell from a failure whether to give up
or to wait for more, unless the failure says which.  `Streams S m` says that it does.  On the
beginning of an input that `m` accepts, `m` does what it does on the whole, or it fails with an
error that satisfies `S`: nothing that only more input could repair is reported as anything
else, and nothing that was decided is changed by what comes later.

The property is about what `m` has seen, not about what it has taken, so a look ahead has it as
well, and a sequence has it where its parts do.
-/
import C509Cert.Codec.Parser

namespace Codec

open Cbor

variable {ε σ α β : Type}

/-- On the beginning of an input, `m` does the same as on the whole or fails within `S`. -/
def Streams (S : ε → Prop) (m : Parser ε σ α) : Prop :=
  ∀ p s a r, m.run (p ++ s) = .ok (a, r) →
    (∃ t, r = t ++ s ∧ m.run p = .ok (a, t)) ∨ ∃ e, m.run p = .error e ∧ S e

namespace Streams

variable {S : ε → Prop} {m : Parser ε σ α} {f : α → Parser ε σ β}

/-- A parser that does not look at the input sees the same of every part of it. -/
private theorem of_blind {x : Except ε α} (hm : ∀ b, m.run b = x.map fun a => (a, b)) :
    Streams S m := by
  intro p s a r hrun
  cases x with
  | error e =>
      rw [hm] at hrun
      cases hrun
  | ok a' =>
      rw [hm] at hrun
      cases hrun
      exact Or.inl ⟨p, rfl, hm p⟩

theorem pure (a : α) : Streams S (Pure.pure a : Parser ε σ α) :=
  of_blind (x := .ok a) fun _ => rfl

theorem fail (e : ε) : Streams S (Parser.fail e : Parser ε σ α) :=
  of_blind (x := .error e) fun _ => rfl

theorem emit (g : Bytes → σ) : Streams S (Parser.emit g : Parser ε σ Unit) :=
  of_blind (x := .ok ()) fun _ => rfl

theorem ensure (c : Prop) [Decidable c] (e : ε) :
    Streams S (Parser.ensure c e : Parser ε σ Unit) := by
  unfold Parser.ensure
  split
  · exact pure ()
  · exact fail e

theorem get (o : Option α) (e : ε) : Streams S (Parser.get o e : Parser ε σ α) := by
  cases o with
  | some a => exact pure a
  | none => exact fail e

/-- The input ends within the first part, or the second continues where the first stopped. -/
theorem bind (hm : Streams S m) (hf : ∀ a, Streams S (f a)) : Streams S (m >>= f) := by
  intro p s y r hrun
  obtain ⟨a, r', hma, hfa⟩ := Parser.run_bind_ok_iff.mp hrun
  rcases hm p s a r' hma with ⟨t, rfl, hsame⟩ | ⟨e, he, hS⟩
  · rw [Parser.run_bind_of_ok hsame]
    exact hf a t s y r hfa
  · exact Or.inr ⟨e, by rw [Parser.run_bind, he], hS⟩

theorem map {g : α → β} (hm : Streams S m) : Streams S (m >>= fun a => Pure.pure (g a)) :=
  hm.bind fun a => pure (g a)

/-- A look at the input, which is not moved on. -/
theorem probe (hm : Streams S m) : Streams S (Parser.probe m) := by
  intro p s a r hrun
  obtain ⟨⟨r', hrun'⟩, rfl⟩ := Parser.probe_run_ok.mp hrun
  rcases hm p s a r' hrun' with ⟨t, -, hsame⟩ | ⟨e, he, hS⟩
  · exact Or.inl ⟨p, rfl, Parser.probe_run_ok.mpr ⟨⟨t, hsame⟩, rfl⟩⟩
  · exact Or.inr ⟨e, by simp only [Parser.probe, he], hS⟩

theorem mapError {g : ε → ε} (hg : ∀ e, S e → S (g e)) (hm : Streams S m) :
    Streams S (Parser.mapError g m) := by
  intro p s a r hrun
  rcases hm p s a r (Parser.mapError_run_ok.mp hrun) with ⟨t, ht, hsame⟩ | ⟨e, he, hS⟩
  · exact Or.inl ⟨t, ht, Parser.mapError_run_ok.mpr hsame⟩
  · exact Or.inr ⟨g e, by simp only [Parser.mapError, he], hg e hS⟩

theorem iterate {T : Type} {step : T → Parser ε σ (α × T)} (hstep : ∀ t, Streams S (step t)) :
    ∀ n t, Streams S (Parser.iterate step n t) := by
  intro n
  induction n with
  | zero => exact fun t => pure []
  | succ n ih => exact fun t => (hstep t).bind fun x => (ih x.2).map

theorem times (hm : Streams S m) (n : Nat) : Streams S (Parser.times n m) := by
  induction n with
  | zero => exact pure []
  | succ n ih => exact hm.bind fun _ => ih.map

/--
**Where the answer falls.**  The beginnings of an accepted input that hold what was taken are
accepted with the same value, and the shorter ones fail within `S`.
-/
theorem decided {X : Bytes → Prop} {k : Nat} {P : α → Prop} (hm : Streams S m)
    (hreads : Reads X k m P) {b r : Bytes} {a : α} (hrun : m.run b = .ok (a, r)) :
    ∃ n, n ≤ b.length ∧ ∀ p, p <+: b →
      (n ≤ p.length → ∃ t, m.run p = .ok (a, t)) ∧
        (p.length < n → ∃ e, m.run p = .error e ∧ S e) := by
  obtain ⟨c, rfl, -, -, hy⟩ := hreads b a r hrun
  refine ⟨c.length, by simp, fun p hp => ?_⟩
  obtain ⟨s, hs⟩ := hp
  constructor
  · intro hle
    obtain ⟨t, rfl⟩ : c <+: p := List.prefix_of_prefix_length_le ⟨r, rfl⟩ ⟨s, hs⟩ hle
    exact ⟨t, hy t⟩
  · intro hlt
    rcases hm p s a r (hs ▸ hrun) with ⟨t, rfl, -⟩ | herror
    · have hlen := congrArg List.length hs
      simp only [List.length_append] at hlen
      omega
    · exact herror

end Streams

end Codec
