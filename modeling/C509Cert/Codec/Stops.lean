/-
Computations that stop at the first fault.

A computation that checks one thing after another reports one error, whichever it meets first.
`Stops x faults` lists all the faults there are, in the order in which they would be met: `x`
returns where the list is empty, and otherwise fails with its head.  The list of a sequence is
the list of its parts, so it is found by following the text of the computation.
-/
import C509Cert.Codec.Parser

namespace Codec

variable {ε α β : Type}

/-- `x` returns where there is no fault, and fails with the first where there is one. -/
def Stops (x : Except ε α) (faults : List ε) : Prop :=
  match x with
  | .ok _ => faults = []
  | .error e => faults.head? = some e

namespace Stops

variable {x : Except ε α} {f : α → Except ε β} {l l' : List ε}

theorem ok (a : α) : Stops (.ok a : Except ε α) [] := rfl

theorem error (e : ε) : Stops (.error e : Except ε α) [e] := rfl

theorem bind (hx : Stops x l) (hf : ∀ a, Stops (f a) l') : Stops (x >>= f) (l ++ l') := by
  cases x with
  | ok a =>
      obtain rfl : l = [] := hx
      exact hf a
  | error e =>
      obtain ⟨tail, rfl⟩ := List.head?_eq_some_iff.mp hx
      exact (rfl : (e :: (tail ++ l')).head? = some e)

/-- A last step that only builds the value. -/
theorem map {g : α → β} (hx : Stops x l) : Stops (x >>= fun a => .ok (g a)) l := by
  have h := hx.bind fun a => Stops.ok (g a)
  rwa [List.append_nil] at h

theorem mapM {γ : Type} {f : γ → Except ε β} {g : γ → List ε} (hf : ∀ c, Stops (f c) (g c)) :
    ∀ cs : List γ, Stops (cs.mapM f) (cs.flatMap g) := by
  intro cs
  induction cs with
  | nil => exact ok []
  | cons c cs ih =>
      rw [List.mapM_cons, List.flatMap_cons]
      exact (hf c).bind fun _ => ih.map

theorem returns_iff (h : Stops x l) : (∃ a, x = .ok a) ↔ l = [] := by
  cases x with
  | ok a => exact iff_of_true ⟨a, rfl⟩ h
  | error e =>
      refine iff_of_false (fun ⟨_, h'⟩ => by cases h') ?_
      rintro rfl
      cases h

theorem fails_iff (h : Stops x l) {e : ε} : x = .error e ↔ l.head? = some e := by
  cases x with
  | ok a =>
      obtain rfl : l = [] := h
      exact ⟨fun h' => (by cases h'), fun h' => (by cases h')⟩
  | error e' =>
      have hhead : l.head? = some e' := h
      rw [hhead, Except.error.injEq, Option.some.injEq]

end Stops

end Codec
