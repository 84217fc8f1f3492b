/-
When a printer succeeds, exactly.

A sequence succeeds where both its parts do, a loop where every round does.  So the
condition under which a printer succeeds is read off its text.
-/
import C509Cert.Codec.Parser

namespace Codec.Printer

open Cbor

variable {ε α β S : Type}

@[simp] theorem total_pure (a : α) : Total (Pure.pure a : Printer ε α) := Total.pure a

@[simp] theorem total_put (o : Bytes) : Total (put o : Printer ε Unit) := Total.put o

@[simp] theorem total_fail (e : ε) : ¬ Total (fail e : Printer ε α) := by
  rintro ⟨a, o, h⟩
  cases h

@[simp] theorem total_get {o : Option α} {e : ε} : Total (get o e) ↔ o.isSome = true := by
  cases o with
  | none => simp [get]
  | some a => simp [get]

/-- A second part that does not depend on the first. -/
@[simp] theorem total_bind {p : Printer ε Unit} {f : Unit → Printer ε β} :
    Total (p >>= f) ↔ Total p ∧ Total (f ()) := by
  constructor
  · rintro ⟨b, o, h⟩
    obtain ⟨⟨⟩, o₁, o₂, hp, hf, -⟩ := run_bind_ok_iff.mp h
    exact ⟨⟨(), o₁, hp⟩, b, o₂, hf⟩
  · rintro ⟨hp, hf⟩
    exact Total.bind hp fun _ => hf

@[simp] theorem total_forM {enc : α → Printer ε Unit} {l : List α} :
    Total (forM l enc : Printer ε PUnit) ↔ ∀ x ∈ l, Total (enc x) := by
  constructor
  · rintro ⟨⟨⟩, o, h⟩ x hx
    obtain ⟨o', ho'⟩ := run_of_forM_ok h hx
    exact ⟨(), o', ho'⟩
  · exact Total.forM

end Codec.Printer
