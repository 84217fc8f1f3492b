/-
Items in deterministic encoding.

`Deterministic R k c` says that `c` is `k` data items, one after the other, whose heads are
all in their shortest form and whose lengths are all definite, except that an item `R` holds
of may stand as it is.  As for `Items`, the elements of an array are items that come due.

`Emits R k p`: whatever `p` writes is `k` such items.
-/
import C509Cert.Codec.Parser

namespace Cbor

/-- `c` is `k` items with shortest heads and definite lengths, but for those in `R`. -/
inductive Deterministic (R : Bytes → Prop) : Nat → Bytes → Prop
  | nil : Deterministic R 0 []
  | int {m n k : Nat} {c : Bytes} (hm : m < 2) (hn : n < 2 ^ 64) (hc : Deterministic R k c) :
      Deterministic R (k + 1) (shortHead m n ++ c)
  | string {m k : Nat} {s c : Bytes} (hm : m = 2 ∨ m = 3) (hs : s.length < 2 ^ 64)
      (hc : Deterministic R k c) : Deterministic R (k + 1) (shortHead m s.length ++ s ++ c)
  | array {n k : Nat} {c : Bytes} (hn : n < 2 ^ 64) (hc : Deterministic R (n + k) c) :
      Deterministic R (k + 1) (shortHead 4 n ++ c)
  | tag {n k : Nat} {c : Bytes} (hn : n < 2 ^ 64) (hc : Deterministic R (k + 1) c) :
      Deterministic R (k + 1) (shortHead 6 n ++ c)
  | null {k : Nat} {c : Bytes} (hc : Deterministic R k c) :
      Deterministic R (k + 1) (shortHead 7 22 ++ c)
  | kept {k : Nat} {r c : Bytes} (hr : R r) (hc : Deterministic R k c) :
      Deterministic R (k + 1) (r ++ c)

namespace Deterministic

variable {R R' : Bytes → Prop} {k j : Nat} {c d : Bytes}

theorem append (hc : Deterministic R k c) (hd : Deterministic R j d) :
    Deterministic R (k + j) (c ++ d) := by
  induction hc with
  | nil => simpa using hd
  | int hm hn _ ih =>
      rw [Nat.add_right_comm, List.append_assoc]
      exact int hm hn ih
  | string hm hs _ ih =>
      rw [Nat.add_right_comm, List.append_assoc]
      exact string hm hs ih
  | array hn _ ih =>
      rw [Nat.add_right_comm, List.append_assoc]
      exact array hn (by rwa [← Nat.add_assoc])
  | tag hn _ ih =>
      rw [Nat.add_right_comm, List.append_assoc]
      exact tag hn (by rwa [Nat.add_right_comm] at ih)
  | null _ ih =>
      rw [Nat.add_right_comm, List.append_assoc]
      exact null ih
  | kept hr _ ih =>
      rw [Nat.add_right_comm, List.append_assoc]
      exact kept hr ih

/-- Items kept that are themselves deterministic are no exception. -/
theorem trans (hc : Deterministic R k c) (h : ∀ r, R r → Deterministic R' 1 r) :
    Deterministic R' k c := by
  induction hc with
  | nil => exact nil
  | int hm hn _ ih => exact int hm hn ih
  | string hm hs _ ih => exact string hm hs ih
  | array hn _ ih => exact array hn ih
  | tag hn _ ih => exact tag hn ih
  | null _ ih => exact null ih
  | @kept k r c hr _ ih =>
      rw [Nat.add_comm]
      exact (h r hr).append ih

theorem shortInt {v : Int} (hlo : -2 ^ 64 ≤ v) (hhi : v < 2 ^ 64) (hc : Deterministic R k c) :
    Deterministic R (k + 1) (Cbor.shortInt v ++ c) := by
  unfold Cbor.shortInt
  split
  · exact int (by decide) (by omega) hc
  · exact int (by decide) (by omega) hc

end Deterministic

end Cbor

namespace Codec

open Cbor

variable {ε α β S : Type}

/-- What `p` writes is `k` deterministic items, but for those in `R`. -/
def Emits (R : Bytes → Prop) (k : Nat) (p : Printer ε α) : Prop :=
  ∀ a o, p.run = .ok (a, o) → Deterministic R k o

namespace Emits

variable {R : Bytes → Prop} {j k : Nat} {p : Printer ε α} {f : α → Printer ε β}

theorem pure (a : α) : Emits R 0 (Pure.pure a : Printer ε α) := by
  rintro _ _ ⟨⟩
  exact Deterministic.nil

theorem fail (e : ε) : Emits R k (Printer.fail e : Printer ε α) := by
  rintro _ _ ⟨⟩

theorem put {c : Bytes} (hc : Deterministic R k c) :
    Emits R k (Printer.put c : Printer ε Unit) := by
  rintro _ _ ⟨⟩
  exact hc

theorem get (o : Option α) (e : ε) : Emits R 0 (Printer.get o e) := by
  cases o with
  | none => exact fail e
  | some a => exact pure a

theorem bind (hp : Emits R j p) (hf : ∀ a, Emits R k (f a)) : Emits R (j + k) (p >>= f) := by
  intro b o h
  obtain ⟨a, o₁, o₂, hpa, hfa, rfl⟩ := Printer.run_bind_ok_iff.mp h
  exact (hp a o₁ hpa).append (hf a b o₂ hfa)

theorem cast (hp : Emits R k p) (h : k = j) : Emits R j p := h ▸ hp

/-- The head of an array, and its elements. -/
theorem array {n : Nat} {f : Unit → Printer ε β} (hn : n < 2 ^ 64) (hf : Emits R n (f ())) :
    Emits R 1 (Printer.put (shortHead 4 n) >>= f) := by
  intro b o h
  obtain ⟨_, _, o₂, hput, hfb, rfl⟩ := Printer.run_bind_ok_iff.mp h
  cases hput
  exact Deterministic.array hn (hf b o₂ hfb)

/-- A tag, and the item it is for. -/
theorem tag {n : Nat} {f : Unit → Printer ε β} (hn : n < 2 ^ 64) (hf : Emits R 1 (f ())) :
    Emits R 1 (Printer.put (shortHead 6 n) >>= f) := by
  intro b o h
  obtain ⟨_, _, o₂, hput, hfb, rfl⟩ := Printer.run_bind_ok_iff.mp h
  cases hput
  exact Deterministic.tag hn (hf b o₂ hfb)

theorem iterate {step : S → α → Printer ε S} :
    ∀ {l : List α}, (∀ s, ∀ x ∈ l, Emits R k (step s x)) →
      ∀ s, Emits R (l.length * k) (Printer.iterate step l s) := by
  intro l
  induction l with
  | nil =>
      intro _ s
      exact (pure ()).cast (Nat.zero_mul k).symm
  | cons x l ih =>
      intro h s
      refine (bind (h s x (by simp)) fun s' => ih (fun s y hy => h s y (by simp [hy])) s').cast ?_
      rw [List.length_cons, Nat.add_mul, Nat.one_mul, Nat.add_comm]

theorem forM {enc : α → Printer ε Unit} {l : List α} (h : ∀ x ∈ l, Emits R k (enc x)) :
    Emits R (l.length * k) (ForM.forM l enc) := by
  rw [← Printer.iterate_const enc ()]
  exact iterate (fun _ x hx => bind (h x hx) fun _ => pure ()) ()

end Emits

end Codec
