/-
Which inputs make a parser log an event.

`Meets E W m` says that `m` logs an event of `E` on exactly the inputs of `W`.  It composes
along `>>=`: an event of the second part is met on the inputs that stand `Past` what the first
part takes, and of a loop on those where some round starts at one.
-/
import C509Cert.Codec.Agree

namespace Codec

open Cbor

variable {ε σ α β : Type}

/-- `m` logs no event. -/
abbrev Quiet (m : Parser ε σ α) : Prop := Logs m fun _ => False

/-- The inputs on which `m` logs an event of `E` are those of `W`. -/
def Meets (E : σ → Prop) (W : Bytes → Prop) (m : Parser ε σ α) : Prop :=
  ∀ b, (∃ e ∈ m.log b, E e) ↔ W b

namespace Meets

variable {E : σ → Prop} {W V : Bytes → Prop} {m : Parser ε σ α} {f : α → Parser ε σ β}

theorem congr (hm : Meets E W m) (h : ∀ b, W b ↔ V b) : Meets E V m := fun b => (hm b).trans (h b)

theorem quiet (hm : Quiet m) : Meets E (fun _ => False) m := fun b =>
  ⟨fun ⟨e, he, _⟩ => hm b e he, False.elim⟩

/-- The events of the first part, and those of the second past what the first takes. -/
theorem bind {V : α → Bytes → Prop} (hm : Meets E W m) (hf : ∀ a, Meets E (V a) (f a)) :
    Meets E (fun b => W b ∨ ∃ a r, m.run b = .ok (a, r) ∧ V a r) (m >>= f) := by
  intro b
  rw [Parser.log_bind]
  simp only [List.mem_append, or_and_right, exists_or]
  refine or_congr (hm b) ?_
  cases hrun : m.run b with
  | error e => simp
  | ok v =>
      obtain ⟨a, r⟩ := v
      simp only [hf a r, Except.ok.injEq, Prod.mk.injEq]
      constructor
      · intro h
        exact ⟨a, r, ⟨rfl, rfl⟩, h⟩
      · rintro ⟨_, _, ⟨rfl, rfl⟩, h⟩
        exact h

theorem both (hm : Meets E W m) (hf : ∀ a, Meets E V (f a)) :
    Meets E (fun b => W b ∨ Past m V b) (m >>= f) := bind hm hf

/-- A first part without events. -/
theorem after (hm : Quiet m) (hf : ∀ a, Meets E V (f a)) : Meets E (Past m V) (m >>= f) :=
  (both (quiet hm) hf).congr fun _ => or_iff_right id

/-- A second part without events. -/
theorem first (hm : Meets E W m) (hf : ∀ a, Quiet (f a)) : Meets E W (m >>= f) := by
  refine (both hm fun a => quiet (hf a)).congr fun b => or_iff_left ?_
  rintro ⟨a, r, -, h⟩
  exact h

/-- A last step that only builds the value. -/
theorem map {g : α → β} (hm : Meets E W m) : Meets E W (m >>= fun a => Pure.pure (g a)) :=
  first hm fun _ => Logs.pure _

theorem ensure {c : Prop} [Decidable c] {e : ε} {g : Unit → Parser ε σ β}
    (hg : Meets E W (g ())) : Meets E (fun b => c ∧ W b) (Parser.ensure c e >>= g) := by
  by_cases hc : c
  · rw [Parser.ensure, if_pos hc]
    exact hg.congr fun b => (and_iff_right hc).symm
  · rw [Parser.ensure, if_neg hc]
    exact (quiet (Logs.fail e)).congr fun b => (iff_false_intro fun h => hc h.1).symm

theorem get {γ : Type} {o : Option γ} {e : ε} {g : γ → Parser ε σ β}
    (hg : ∀ c, Meets E W (g c)) :
    Meets E (fun b => o.isSome = true ∧ W b) (Parser.get o e >>= g) := by
  cases o with
  | none => exact (quiet (Logs.fail e)).congr fun b => (iff_false_intro fun h => nomatch h.1).symm
  | some c => exact (hg c).congr fun b => (and_iff_right rfl).symm

theorem emit (g : Bytes → σ) : Meets E (fun b => E (g b)) (Parser.emit g : Parser ε σ Unit) :=
  fun b => by simp [Parser.emit]

theorem mapError {g : ε → ε} (hm : Meets E W m) : Meets E W (Parser.mapError g m) := hm

/-- A loop has the events of its rounds, each past the rounds before. -/
theorem times (hm : Meets E W m) (n : Nat) :
    Meets E (fun b => ∃ i, i < n ∧ Past (Parser.times i m) W b) (Parser.times n m) := by
  induction n with
  | zero => exact (quiet (Logs.pure [])).congr fun b => by simp
  | succ n ih =>
      refine (both hm fun a => ih.map).congr fun b => ?_
      cases hrun : m.run b with
      | ok v => rw [Past.rounds_succ hrun, Past.iff_of_run hrun]
      | error e =>
          -- no round but the first is reached
          have hpast : ∀ (V : Bytes → Prop), ¬ Past m V b := fun V ⟨a, r, h, _⟩ => by
            rw [hrun] at h
            cases h
          rw [or_iff_left (hpast _)]
          constructor
          · exact fun hW => ⟨0, by omega, Past.times_zero.mpr hW⟩
          · rintro ⟨i, -, l, r, hloop, hW⟩
            cases i with
            | zero =>
                cases hloop
                exact hW
            | succ i =>
                obtain ⟨a, r', h, -⟩ := Parser.run_bind_ok_iff.mp hloop
                exact absurd ⟨a, r', h, trivial⟩ (hpast fun _ => True)

end Meets

end Codec
