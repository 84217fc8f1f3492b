/-
What the events of a parser cost.

A parser may log an event whose cost is up to the input that is left: memory it sets
aside for what a header announces, say.  A loop over the announced elements then takes a
byte for each, so the bytes a parser takes pay for its events, `d` times over where `d`
such loops nest.  A loop that is cut short has been announced too much; as an error leaves
every open loop at once, a run has at most as many of those as loops nest, and none where
it succeeds.
-/
import C509Cert.Codec.Parser

namespace Codec

open Cbor

variable {ε σ α β : Type}

/-- The bytes a parser leaves; none where it fails. -/
def left : Except ε (α × Bytes) → Nat
  | .ok (_, r) => r.length
  | .error _ => 0

/-- What a list of events costs. -/
def total (cost : σ → Nat) (l : List σ) : Nat := (l.map cost).sum

theorem total_append (cost : σ → Nat) (l l' : List σ) :
    total cost (l ++ l') = total cost l + total cost l' := by
  simp [total]

/--
The input pays for the events of `m`, each byte `d` times; a run that succeeds has logged
nothing bad, and one that fails at most `d` bad events.
-/
structure Affords (cost : σ → Nat) (bad : σ → Bool) (d : Nat) (m : Parser ε σ α) : Prop where
  left_le : ∀ b, left (m.run b) ≤ b.length
  pays : ∀ b, total cost (m.log b) + d * left (m.run b) ≤ d * b.length
  clean : ∀ b v, m.run b = .ok v → (m.log b).countP bad = 0
  faults : ∀ b, (m.log b).countP bad ≤ d

namespace Affords

variable {X : Bytes → Prop} {cost : σ → Nat} {bad : σ → Bool} {d k : Nat} {m : Parser ε σ α}
  {f : α → Parser ε σ β}

/-- A parser that logs nothing and does not grow its input costs nothing. -/
theorem quiet (hlog : Logs m fun _ => False) (hleft : ∀ b, left (m.run b) ≤ b.length) :
    Affords cost bad d m := by
  have hnil : ∀ b, m.log b = [] := fun b => List.eq_nil_iff_forall_not_mem.mpr (hlog b)
  refine ⟨hleft, fun b => ?_, fun b _ _ => ?_, fun b => ?_⟩
  · rw [hnil, total, List.map_nil, List.sum_nil, Nat.zero_add]
    exact Nat.mul_le_mul_left d (hleft b)
  · rw [hnil, List.countP_nil]
  · rw [hnil, List.countP_nil]
    exact Nat.zero_le d

theorem left_le_of_shrinks (h : ∀ b a r, m.run b = .ok (a, r) → r.length ≤ b.length) (b : Bytes) :
    left (m.run b) ≤ b.length := by
  cases hrun : m.run b with
  | error e => exact Nat.zero_le _
  | ok v => exact h b v.1 v.2 hrun

/-- A parser of whole items takes at least a byte for each. -/
theorem shrinks_of_reads {P : α → Prop} (hm : Reads X k m P) {b r : Bytes} {a : α}
    (hrun : m.run b = .ok (a, r)) : r.length + k ≤ b.length := by
  obtain ⟨c, rfl, hc, -, -⟩ := hm b a r hrun
  have hle := hc.le_length
  rw [List.length_append]
  omega

theorem ofReads {P : α → Prop} (hlog : Logs m fun _ => False) (hm : Reads X k m P) :
    Affords cost bad d m :=
  quiet hlog (left_le_of_shrinks fun _ _ _ hrun => by
    have := shrinks_of_reads hm hrun
    omega)

theorem pure (a : α) : Affords cost bad d (Pure.pure a : Parser ε σ α) :=
  quiet (Logs.pure a) fun b => Nat.le_refl b.length

theorem fail (e : ε) : Affords cost bad d (Parser.fail e : Parser ε σ α) :=
  quiet (Logs.fail e) fun b => Nat.zero_le b.length

theorem ensure (c : Prop) [Decidable c] (e : ε) :
    Affords cost bad d (Parser.ensure c e : Parser ε σ Unit) := by
  unfold Parser.ensure
  split
  · exact pure ()
  · exact fail e

theorem get (o : Option α) (e : ε) : Affords cost bad d (Parser.get o e : Parser ε σ α) := by
  cases o with
  | none => exact fail e
  | some a => exact pure a

/-- What is left after the first part pays for the rest. -/
theorem bind (hm : Affords cost bad d m) (hf : ∀ a, Affords cost bad d (f a)) :
    Affords cost bad d (m >>= f) := by
  have hcases : ∀ b, (∃ e, m.run b = .error e ∧ (m >>= f).run b = .error e ∧
      (m >>= f).log b = m.log b) ∨
      ∃ a r, m.run b = .ok (a, r) ∧ (m >>= f).run b = (f a).run r ∧
        (m >>= f).log b = m.log b ++ (f a).log r := by
    intro b
    cases hrun : m.run b with
    | error e =>
        refine Or.inl ⟨e, rfl, by rw [Parser.run_bind, hrun], ?_⟩
        simp [Parser.log_bind, hrun]
    | ok v =>
        refine Or.inr ⟨v.1, v.2, rfl, by rw [Parser.run_bind, hrun], ?_⟩
        simp [Parser.log_bind, hrun]
  constructor
  · intro b
    rcases hcases b with ⟨e, -, hrun, -⟩ | ⟨a, r, hm', hrun, -⟩
    · rw [hrun]
      exact Nat.zero_le _
    · have hfirst := hm.left_le b
      rw [hm'] at hfirst
      rw [hrun]
      exact ((hf a).left_le r).trans hfirst
  · intro b
    have hfirst := hm.pays b
    rcases hcases b with ⟨e, hm', hrun, hlog⟩ | ⟨a, r, hm', hrun, hlog⟩
    · rw [hm'] at hfirst
      rw [hrun, hlog]
      exact hfirst
    · have hrest := (hf a).pays r
      rw [hm'] at hfirst
      rw [hrun, hlog, total_append]
      simp only [left] at hfirst
      omega
  · intro b v hv
    rcases hcases b with ⟨e, -, hrun, -⟩ | ⟨a, r, hm', hrun, hlog⟩
    · rw [hrun] at hv
      cases hv
    · rw [hrun] at hv
      rw [hlog, List.countP_append, hm.clean b _ hm', (hf a).clean r v hv]
  · intro b
    rcases hcases b with ⟨e, -, -, hlog⟩ | ⟨a, r, hm', -, hlog⟩
    · rw [hlog]
      exact hm.faults b
    · rw [hlog, List.countP_append, hm.clean b _ hm', Nat.zero_add]
      exact (hf a).faults r

theorem map {g : α → β} (hm : Affords cost bad d m) :
    Affords cost bad d (m >>= fun a => Pure.pure (g a)) := bind hm fun a => pure (g a)

theorem mapError {g : ε → ε} (hm : Affords cost bad d m) :
    Affords cost bad d (Parser.mapError g m) := by
  have hleft : ∀ b, left ((Parser.mapError g m).run b) = left (m.run b) := by
    intro b
    unfold Parser.mapError
    simp only
    cases m.run b <;> rfl
  refine ⟨fun b => ?_, fun b => ?_, fun b v hv => ?_, hm.faults⟩
  · rw [hleft]
    exact hm.left_le b
  · rw [hleft]
    exact hm.pays b
  · exact hm.clean b v (Parser.mapError_run_ok.mp hv)

/-- A look ahead that logs nothing takes nothing. -/
theorem probe (hm : Logs m fun _ => False) : Affords cost bad d (Parser.probe m) :=
  quiet hm (left_le_of_shrinks fun b a r hrun => by
    obtain ⟨-, rfl⟩ := Parser.probe_run_ok.mp hrun
    exact Nat.le_refl _)

theorem iterate {S : Type} {step : S → Parser ε σ (α × S)}
    (hstep : ∀ s, Affords cost bad d (step s)) :
    ∀ n s, Affords cost bad d (Parser.iterate step n s) := by
  intro n
  induction n with
  | zero => intro s; exact pure []
  | succ n ih => intro s; exact bind (hstep s) fun x => map (ih x.2)

theorem times (hm : Affords cost bad d m) (n : Nat) : Affords cost bad d (Parser.times n m) := by
  rw [← Parser.iterate_const ()]
  exact iterate (fun _ => map hm) n ()

theorem weaken {d' : Nat} (hm : Affords cost bad d m) (h : d ≤ d') : Affords cost bad d' m := by
  obtain ⟨e, rfl⟩ := Nat.exists_eq_add_of_le h
  refine ⟨hm.left_le, fun b => ?_, hm.clean, fun b => (hm.faults b).trans h⟩
  have hpays := hm.pays b
  have hleft := Nat.mul_le_mul_left e (hm.left_le b)
  calc total cost (m.log b) + (d + e) * left (m.run b)
      = total cost (m.log b) + d * left (m.run b) + e * left (m.run b) := by ring
    _ ≤ d * b.length + e * b.length := Nat.add_le_add hpays hleft
    _ = (d + e) * b.length := by ring

/--
**An announcement and what was announced.**  An event that costs no more than the `n`
elements announced and than the input that is left is paid for by a parser that takes `n`
bytes, as long as only a header that announces more than is left is bad.
-/
theorem announce {g : Bytes → σ} {n : Nat} (hcost : ∀ b, cost (g b) ≤ min n b.length)
    (hbad : ∀ b, n ≤ b.length → bad (g b) = false)
    (htakes : ∀ b a r, m.run b = .ok (a, r) → r.length + n ≤ b.length)
    (hm : Affords cost bad d m) :
    Affords cost bad (d + 1) (Parser.emit g >>= fun _ => m) := by
  have hlog : ∀ b, (Parser.emit g >>= fun _ => m).log b = g b :: m.log b := fun b => rfl
  have hrun : ∀ b, (Parser.emit g >>= fun _ => m).run b = m.run b := fun b => rfl
  refine ⟨fun b => ?_, fun b => ?_, fun b v hv => ?_, fun b => ?_⟩
  · rw [hrun]
    exact hm.left_le b
  · have hpays := hm.pays b
    have hevent := hcost b
    have hsum : total cost (g b :: m.log b) = cost (g b) + total cost (m.log b) := rfl
    rw [hlog, hrun, hsum, Nat.add_mul, Nat.add_mul, Nat.one_mul, Nat.one_mul]
    cases hok : m.run b with
    | error e =>
        rw [hok] at hpays
        simp only [left] at hpays ⊢
        omega
    | ok v =>
        have htaken := htakes b v.1 v.2 hok
        rw [hok] at hpays
        simp only [left] at hpays ⊢
        omega
  · rw [hrun] at hv
    have htaken := htakes b v.1 v.2 hv
    rw [hlog, List.countP_cons, hm.clean b v hv, hbad b (by omega)]
    rfl
  · have hfaults := hm.faults b
    rw [hlog, List.countP_cons]
    split <;> omega

end Affords

end Codec
