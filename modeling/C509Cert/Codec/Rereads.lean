/-
What is read of what was written, if anything is.

A value that is read back is read back whole and as it was.  Where a part of it may come back
as another value, or not at all, less can be said: whatever is read takes all that was
written, and is in some relation to it.
-/
import C509Cert.Codec.Parser

namespace Codec

variable {ε ε' σ α β γ : Type}

/-- What `m` reads of what `p` writes, if it does, takes all of it and is in `Q`. -/
def Rereads (p : Printer ε Unit) (m : Parser ε' σ α) (Q : α → Prop) : Prop :=
  ∀ c, p.run = .ok ((), c) → ∀ r a r', m.run (c ++ r) = .ok (a, r') → r' = r ∧ Q a

namespace Rereads

variable {p q : Printer ε Unit} {m : Parser ε' σ α} {f : α → Parser ε' σ β} {P : α → Prop}
  {Q : β → Prop}

/-- What is read back is read back as it was. -/
theorem of_writes {a : α} (h : Writes p m a) : Rereads p m fun a' => a' = a := by
  intro c hc r a' r' hrun
  obtain ⟨c', hc', hy⟩ := h
  obtain rfl : c' = c := (Prod.mk.inj (Except.ok.inj (hc'.symm.trans hc))).2
  cases (hy r).symm.trans hrun
  exact ⟨rfl, rfl⟩

theorem weaken {P' : α → Prop} (h : Rereads p m P) (hP : ∀ a, P a → P' a) : Rereads p m P' := by
  intro c hc r a r' hrun
  obtain ⟨hr, ha⟩ := h c hc r a r' hrun
  exact ⟨hr, hP a ha⟩

theorem done {a : α} (ha : P a) :
    Rereads (Pure.pure () : Printer ε Unit) (Pure.pure a : Parser ε' σ α) P := by
  intro c hc r a' r' hrun
  cases hc
  cases hrun
  exact ⟨rfl, ha⟩

theorem bind (hp : Rereads p m P) (hq : ∀ a, P a → Rereads q (f a) Q) :
    Rereads (p >>= fun _ => q) (m >>= f) Q := by
  intro c hc r y r' hrun
  obtain ⟨_, c₁, c₂, hc₁, hc₂, rfl⟩ := Printer.run_bind_ok_iff.mp hc
  rw [List.append_assoc] at hrun
  obtain ⟨a, r₁, hm, hf⟩ := Parser.run_bind_ok_iff.mp hrun
  obtain ⟨rfl, ha⟩ := hp c₁ hc₁ _ a r₁ hm
  exact hq a ha c₂ hc₂ r y r' hf

/-- A step of the parser that takes nothing, if it succeeds. -/
theorem step (hm : ∀ b a r, m.run b = .ok (a, r) → r = b ∧ P a)
    (hq : ∀ a, P a → Rereads q (f a) Q) : Rereads q (m >>= f) Q := by
  intro c hc r y r' hrun
  obtain ⟨a, r₁, hm₁, hf⟩ := Parser.run_bind_ok_iff.mp hrun
  obtain ⟨rfl, ha⟩ := hm _ a r₁ hm₁
  exact hq a ha c hc r y r' hf

theorem map {g : α → β} (hp : Rereads p m P) (hg : ∀ a, P a → Q (g a)) :
    Rereads p (m >>= fun a => Pure.pure (g a)) Q := by
  intro c hc r y r' hrun
  obtain ⟨a, r₁, hm, hpure⟩ := Parser.run_bind_ok_iff.mp hrun
  obtain ⟨rfl, ha⟩ := hp c hc r a r₁ hm
  cases hpure
  exact ⟨rfl, hg a ha⟩

/-- A loop reads, element by element, something of what a loop writes. -/
theorem times {m : Parser ε' σ β} {enc : γ → Printer ε Unit} {R : γ → β → Prop} :
    ∀ l : List γ, (∀ x ∈ l, Rereads (enc x) m (R x)) →
      Rereads (forM l enc) (Parser.times l.length m) (List.Forall₂ R l) := by
  intro l
  induction l with
  | nil => exact fun _ => done .nil
  | cons x l ih =>
      intro h
      rw [List.forM_cons]
      exact bind (h x (by simp)) fun a ha =>
        map (ih fun y hy => h y (by simp [hy])) fun l' hl' => .cons ha hl'

end Rereads

end Codec
