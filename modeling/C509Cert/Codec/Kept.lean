/-
What a parser takes, where it keeps some of it as it stands.

`Reads X` lets pieces of `X` stand for items.  Where the pieces are told apart as items are,
an input that starts with items is taken as those items: a piece there is the item that
stands in its place (`Units.eq_of_items`).

`Keeps X k m R` looks at the same bytes together with the value: `R` relates the value to the
list of the pieces that were kept, and what was taken is items throughout exactly when those
pieces are.  It composes along `>>=` as `Reads` does, with the list growing on the way.
-/
import C509Cert.Codec.Parser

namespace Codec

open Cbor

variable {X : Bytes → Prop}

/-! ### Pieces where items are -/

/-- Every item is a piece, and no two pieces start at one place. -/
structure SelfDelimiting (X : Bytes → Prop) : Prop where
  item {c : Bytes} (hc : Item c) : X c
  unique {c d r s : Bytes} (hc : X c) (hd : X d) (heq : c ++ r = d ++ s) : c = d ∧ r = s

/-- **What starts with items is cut into the same items.** -/
theorem Units.eq_of_items (hX : SelfDelimiting X) {k : Nat} {c : Bytes} (hc : Units X k c) :
    ∀ {d r s : Bytes}, Items k d → c ++ r = d ++ s → c = d ∧ r = s := by
  induction hc with
  | nil =>
      intro d r s hd heq
      obtain rfl := hd.eq_nil
      exact ⟨rfl, heq⟩
  | @item k c c' hc _ ih =>
      intro d r s hd heq
      obtain ⟨e, e', rfl, he, he'⟩ := hd.splits 1 k (Nat.add_comm k 1)
      rw [List.append_assoc, List.append_assoc] at heq
      obtain ⟨rfl, hrest⟩ := hc.unique he heq
      obtain ⟨rfl, rfl⟩ := ih he' hrest
      exact ⟨rfl, rfl⟩
  | array hh _ ih =>
      intro d r s hd heq
      rw [List.append_assoc] at heq
      obtain ⟨e, rfl, hrest, he⟩ := hd.array_inv hh heq.symm
      obtain ⟨rfl, rfl⟩ := ih he hrest
      exact ⟨rfl, rfl⟩
  | tag hh _ ih =>
      intro d r s hd heq
      rw [List.append_assoc] at heq
      obtain ⟨e, rfl, hrest, he⟩ := hd.tag_inv hh heq.symm
      obtain ⟨rfl, rfl⟩ := ih he hrest
      exact ⟨rfl, rfl⟩
  | @piece k p c hp _ _ ih =>
      intro d r s hd heq
      obtain ⟨e, e', rfl, he, he'⟩ := hd.splits 1 k (Nat.add_comm k 1)
      rw [List.append_assoc, List.append_assoc] at heq
      obtain ⟨rfl, hrest⟩ := hX.unique hp (hX.item he) heq
      obtain ⟨rfl, rfl⟩ := ih he' hrest
      exact ⟨rfl, rfl⟩

variable {ε σ α β : Type} {k j : Nat} {m : Parser ε σ α} {f : α → Parser ε σ β}

/-- **What a parser takes is items exactly when the input starts with as many.** -/
theorem Reads.items_iff (hX : SelfDelimiting X) {P : α → Prop} (hm : Reads X k m P) {b r : Bytes}
    {a : α} (h : m.run b = .ok (a, r)) : (∃ c, b = c ++ r ∧ Items k c) ↔ Begins k b := by
  constructor
  · rintro ⟨c, hb, hc⟩
    exact ⟨c, r, hb, hc⟩
  · rintro ⟨d, s, hb, hd⟩
    obtain ⟨c, rfl, hc, -, -⟩ := hm b a r h
    obtain ⟨rfl, -⟩ := Units.eq_of_items hX hc hd hb
    exact ⟨c, rfl, hd⟩

/-! ### The pieces that were kept -/

/-- `c` is `k` units, and items throughout exactly when the pieces of `l` are items. -/
structure Framed (X : Bytes → Prop) (l : List Bytes) (k : Nat) (c : Bytes) : Prop where
  units : Units X k c
  items_iff : Items k c ↔ ∀ p ∈ l, Item p

namespace Framed

variable {l l' : List Bytes} {c d : Bytes}

theorem of_items (hc : Items k c) (hunits : Units X k c) : Framed X [] k c where
  units := hunits
  items_iff := iff_of_true hc (by simp)

theorem piece (hc : X c) (hhead : Headed c) : Framed X [c] 1 c where
  units := by simpa using Units.piece hc hhead Units.nil
  items_iff := by simp

theorem append (hX : SelfDelimiting X) (hc : Framed X l k c) (hd : Framed X l' j d) :
    Framed X (l ++ l') (k + j) (c ++ d) where
  units := hc.units.append hd.units
  items_iff := by
    rw [List.forall_mem_append, ← hc.items_iff, ← hd.items_iff]
    constructor
    · intro h
      obtain ⟨c', d', heq, hc', hd'⟩ := h.splits k j rfl
      obtain ⟨rfl, rfl⟩ := Units.eq_of_items hX hc.units hc' heq
      exact ⟨hc', hd'⟩
    · exact fun h => h.1.append h.2

/-- The header of an array makes one item of the items after it. -/
theorem array {n : Nat} {h : Bytes} (hh : Head 4 n h) (hc : Framed X l n c) :
    Framed X l 1 (h ++ c) where
  units := Units.array hh hc.units
  items_iff := by
    rw [← hc.items_iff]
    constructor
    · intro hitem
      obtain ⟨e, he, -, hitems⟩ := hitem.array_inv (r := []) hh (by rw [List.append_nil])
      rwa [List.append_cancel_left he]
    · exact fun h => hh.array_item h

end Framed

/-- Whenever `m` succeeds it has taken `k` units, and its value is related to the pieces among
them that were kept. -/
def Keeps (X : Bytes → Prop) (k : Nat) (m : Parser ε σ α) (R : α → List Bytes → Prop) : Prop :=
  ∀ b a r, m.run b = .ok (a, r) → ∃ c l, b = c ++ r ∧ Framed X l k c ∧ R a l

namespace Keeps

variable {R R' : α → List Bytes → Prop} {Q : β → List Bytes → Prop}

theorem pure {a : α} (h : R a []) : Keeps X 0 (Pure.pure a : Parser ε σ α) R := by
  rintro b a' r heq
  cases heq
  exact ⟨[], [], rfl, Framed.of_items Items.nil Units.nil, h⟩

/-- A parser that takes nothing but items keeps no piece. -/
theorem of_reads {P : α → Prop} (hm : Reads NoPieces k m P) (h : ∀ a, P a → R a []) :
    Keeps X k m R := by
  intro b a r hrun
  obtain ⟨c, rfl, hc, ha, -⟩ := hm b a r hrun
  have hitems : Items k c := hc.items fun _ => False.elim
  exact ⟨c, [], rfl, Framed.of_items hitems (hc.mono fun _ => False.elim), h a ha⟩

theorem cast (hm : Keeps X k m R) (h : k = j) : Keeps X j m R := h ▸ hm

theorem bind (hX : SelfDelimiting X) (hm : Keeps X k m R)
    (hf : ∀ a l, R a l → Keeps X j (f a) fun y l' => Q y (l ++ l')) :
    Keeps X (k + j) (m >>= f) Q := by
  intro b y r hrun
  obtain ⟨a, b', hma, hfa⟩ := Parser.run_bind_ok_iff.mp hrun
  obtain ⟨c, l, rfl, hc, ha⟩ := hm b a b' hma
  obtain ⟨d, l', rfl, hd, hy⟩ := hf a l ha b' y r hfa
  exact ⟨c ++ d, l ++ l', by rw [List.append_assoc], hc.append hX hd, hy⟩

/-- A first part that keeps nothing. -/
theorem after (hX : SelfDelimiting X) {P : α → Prop} (hm : Reads NoPieces k m P)
    (hf : ∀ a, P a → Keeps X j (f a) Q) : Keeps X (k + j) (m >>= f) Q := by
  refine bind hX (R := fun a l => P a ∧ l = []) (of_reads hm fun a ha => ⟨ha, rfl⟩) ?_
  rintro a l ⟨ha, rfl⟩
  exact hf a ha

/-- A first step that takes nothing. -/
theorem step (hX : SelfDelimiting X) {P : α → Prop} (hm : Reads NoPieces 0 m P)
    (hf : ∀ a, P a → Keeps X j (f a) Q) : Keeps X j (m >>= f) Q :=
  (after hX hm hf).cast (Nat.zero_add j)

/-- A last step that only builds the value. -/
theorem map {g : α → β} (hm : Keeps X k m R) (hg : ∀ a l, R a l → Q (g a) l) :
    Keeps X k (m >>= fun a => Pure.pure (g a)) Q := by
  intro b y r hrun
  obtain ⟨a, b', hma, hpure⟩ := Parser.run_bind_ok_iff.mp hrun
  cases hpure
  obtain ⟨c, l, hb, hc, ha⟩ := hm b a _ hma
  exact ⟨c, l, hb, hc, hg a l ha⟩

theorem mapError {g : ε → ε} (hm : Keeps X k m R) : Keeps X k (Parser.mapError g m) R :=
  fun b a r hrun => hm b a r (Parser.mapError_run_ok.mp hrun)

/-- A loop keeps the pieces of its rounds, in order. -/
theorem times (hX : SelfDelimiting X) {pieces : α → List Bytes}
    (hm : Keeps X k m fun a l => l = pieces a) :
    ∀ n, Keeps X (n * k) (Parser.times n m) fun as l => l = as.flatMap pieces := by
  intro n
  induction n with
  | zero =>
      rw [Nat.zero_mul]
      exact pure rfl
  | succ n ih =>
      have hloop : Keeps X (k + n * k) (Parser.times (n + 1) m)
          fun as l => l = as.flatMap pieces := by
        refine bind hX hm fun a l hl => map ih fun as l' hl' => ?_
        rw [hl, hl', List.flatMap_cons]
      exact hloop.cast (by ring)

/-- **The pieces a parser kept are items exactly when the input starts with items.** -/
theorem items_iff (hX : SelfDelimiting X) {pieces : α → List Bytes}
    (hm : Keeps X k m fun a l => l = pieces a) {b r : Bytes} {a : α}
    (h : m.run b = .ok (a, r)) : (∀ p ∈ pieces a, Item p) ↔ Begins k b := by
  obtain ⟨c, l, rfl, hc, rfl⟩ := hm b a r h
  rw [← hc.items_iff]
  constructor
  · exact fun hitems => ⟨c, r, rfl, hitems⟩
  · rintro ⟨d, s, hb, hd⟩
    obtain ⟨rfl, -⟩ := Units.eq_of_items hX hc.units hd hb
    exact hd

end Keeps

end Codec
