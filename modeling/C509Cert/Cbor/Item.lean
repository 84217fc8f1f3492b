/-
Well-formed CBOR data items.

`Items k c` says that the bytes `c` are exactly `k` data items, one after the
other.  The head of a definite-length array of `n` elements is not followed by a
nested sequence but simply makes `n` more items due, so the relation has one rule
for each kind of head and its inductions one hypothesis for each rule; only the
indefinite-length forms, which a break closes, nest.

A text string is UTF-8 here, as RFC 8949 asks of a valid one: a reader that takes texts
as texts refuses the others.

A nonempty sequence of items splits into the first and the rest (`Items.splits`).  The
function that steps over items is in `Cbor/Skip.lean`; the two agree there, so that no
item is a proper prefix of another.

What a reader takes need not be items throughout: it may keep pieces it does not look
into.  `Units X k c` says that `c` is `k` items, pieces of `X` among them.
-/
import C509Cert.Cbor.Head

namespace Cbor

/-- The byte that closes an indefinite-length item. -/
def breakByte : UInt8 := 0xff

/-- The UTF-8 bytes of a text. -/
def utf8 (s : String) : Bytes := s.toByteArray.data.toList

/-- The text with the given UTF-8 bytes. -/
def ofUtf8 (s : Bytes) : Option String := String.fromUTF8? ⟨s.toArray⟩

theorem ofUtf8_iff {s : Bytes} {t : String} : ofUtf8 s = some t ↔ s = utf8 t := by
  unfold ofUtf8 String.fromUTF8? utf8
  constructor
  · intro h
    split at h
    · cases h
      rfl
    · cases h
  · rintro rfl
    have hvalid : (ByteArray.mk t.toByteArray.data.toList.toArray).IsValidUTF8 := t.isValidUTF8
    rw [dif_pos hvalid]
    rfl

/-- The content a string of major type `m` may have. -/
def StringContent (m : Nat) (s : Bytes) : Prop := m = 3 → (ofUtf8 s).isSome = true

instance (m : Nat) (s : Bytes) : Decidable (StringContent m s) :=
  inferInstanceAs (Decidable (_ → _))

theorem stringContent_bytes (s : Bytes) : StringContent 2 s := fun h => by cases h

theorem stringContent_utf8 (m : Nat) (t : String) : StringContent m (utf8 t) :=
  fun _ => by rw [ofUtf8_iff.mpr rfl]; rfl

/-- The chunks of an indefinite-length string of major type `m`. -/
inductive Chunks (m : Nat) : Bytes → Prop
  | nil : Chunks m []
  | cons {n : Nat} {h s c : Bytes} (hh : Head m n h) (hs : s.length = n)
      (ht : StringContent m s) (hc : Chunks m c) : Chunks m (h ++ s ++ c)

/-- `c` is `k` well-formed data items, one after the other. -/
inductive Items : Nat → Bytes → Prop
  | nil : Items 0 []
  | int {m n k : Nat} {h c : Bytes} (hm : m < 2) (hh : Head m n h) (hc : Items k c) :
      Items (k + 1) (h ++ c)
  | string {m n k : Nat} {h s c : Bytes} (hm : m = 2 ∨ m = 3) (hh : Head m n h)
      (hs : s.length = n) (ht : StringContent m s) (hc : Items k c) : Items (k + 1) (h ++ s ++ c)
  | chunked {m k : Nat} {s c : Bytes} (hm : m = 2 ∨ m = 3) (hs : Chunks m s) (hc : Items k c) :
      Items (k + 1) (initial m 31 :: (s ++ breakByte :: c))
  | array {n k : Nat} {h c : Bytes} (hh : Head 4 n h) (hc : Items (n + k) c) :
      Items (k + 1) (h ++ c)
  | map {n k : Nat} {h c : Bytes} (hh : Head 5 n h) (hc : Items (2 * n + k) c) :
      Items (k + 1) (h ++ c)
  | arrayIndef {j k : Nat} {s c : Bytes} (hs : Items j s) (hc : Items k c) :
      Items (k + 1) (initial 4 31 :: (s ++ breakByte :: c))
  | mapIndef {j k : Nat} {s c : Bytes} (hs : Items (2 * j) s) (hc : Items k c) :
      Items (k + 1) (initial 5 31 :: (s ++ breakByte :: c))
  | tag {n k : Nat} {h c : Bytes} (hh : Head 6 n h) (hc : Items (k + 1) c) :
      Items (k + 1) (h ++ c)
  | simple {n k : Nat} {h c : Bytes} (hh : Head 7 n h) (hv : h.length = 2 → 32 ≤ n)
      (hc : Items k c) : Items (k + 1) (h ++ c)

/-- `c` is exactly one well-formed data item. -/
abbrev Item (c : Bytes) : Prop := Items 1 c

/-! ### Sequences of items -/

theorem Items.append {k j : Nat} {c d : Bytes} (hc : Items k c) (hd : Items j d) :
    Items (k + j) (c ++ d) := by
  induction hc with
  | nil => simpa using hd
  | int hm hh _ ih =>
      rw [Nat.add_right_comm, List.append_assoc]
      exact Items.int hm hh ih
  | string hm hh hs ht _ ih =>
      rw [Nat.add_right_comm, List.append_assoc]
      exact Items.string hm hh hs ht ih
  | chunked hm hs _ ih =>
      rw [Nat.add_right_comm, List.cons_append, List.append_assoc, List.cons_append]
      exact Items.chunked hm hs ih
  | array hh _ ih =>
      rw [Nat.add_right_comm, List.append_assoc]
      exact Items.array hh (by rwa [← Nat.add_assoc])
  | map hh _ ih =>
      rw [Nat.add_right_comm, List.append_assoc]
      exact Items.map hh (by rwa [← Nat.add_assoc])
  | arrayIndef hs _ _ ih =>
      rw [Nat.add_right_comm, List.cons_append, List.append_assoc, List.cons_append]
      exact Items.arrayIndef hs ih
  | mapIndef hs _ _ ih =>
      rw [Nat.add_right_comm, List.cons_append, List.append_assoc, List.cons_append]
      exact Items.mapIndef hs ih
  | tag hh _ ih =>
      rw [Nat.add_right_comm, List.append_assoc]
      exact Items.tag hh (by rwa [Nat.add_right_comm] at ih)
  | simple hh hv _ ih =>
      rw [Nat.add_right_comm, List.append_assoc]
      exact Items.simple hh hv ih

/-- No item is empty, so a sequence is at least as long as it has items. -/
theorem Items.le_length {k : Nat} {c : Bytes} (hc : Items k c) : k ≤ c.length := by
  induction hc with
  | nil => exact Nat.zero_le _
  | int _ hh _ ih | simple hh _ _ ih | tag hh _ ih | array hh _ ih | map hh _ ih =>
      have := hh.length_pos
      simp only [List.length_append]
      omega
  | string _ hh _ _ _ ih =>
      have := hh.length_pos
      simp only [List.length_append]
      omega
  | chunked _ _ _ ih | arrayIndef _ _ _ ih | mapIndef _ _ _ ih =>
      simp only [List.length_cons, List.length_append]
      omega

theorem Items.eq_nil {c : Bytes} (hc : Items 0 c) : c = [] := by
  generalize hk : 0 = k at hc
  cases hc <;> first | rfl | omega

theorem Head.item {m n : Nat} {h : Bytes} (hm : m < 2) (hh : Head m n h) : Item h := by
  simpa using Items.int hm hh Items.nil

theorem IntHead.item {v : Int} {h : Bytes} (hh : IntHead v h) : Item h := by
  obtain ⟨m, n, hm, hh⟩ := IntHead.exists_head hh
  exact Head.item hm hh

theorem Head.string_item {m : Nat} {h s : Bytes} (hm : m = 2 ∨ m = 3) (hh : Head m s.length h)
    (ht : StringContent m s) : Item (h ++ s) := by
  simpa using Items.string hm hh rfl ht Items.nil

theorem Head.array_item {n : Nat} {h c : Bytes} (hh : Head 4 n h) (hc : Items n c) :
    Item (h ++ c) :=
  Items.array hh hc

/-- `c` can be cut after any number of its `k` items. -/
def Splits (k : Nat) (c : Bytes) : Prop :=
  ∀ a b, k = a + b → ∃ c₁ c₂, c = c₁ ++ c₂ ∧ Items a c₁ ∧ Items b c₂

/-- Cutting after no item at all is always possible. -/
private theorem splits_of_succ {k : Nat} {c : Bytes} (hc : Items k c)
    (h : ∀ a b, k = a + 1 + b → ∃ c₁ c₂, c = c₁ ++ c₂ ∧ Items (a + 1) c₁ ∧ Items b c₂) :
    Splits k c := by
  intro a b hk
  cases a with
  | zero => exact ⟨[], c, rfl, Items.nil, by rwa [← Nat.zero_add b, ← hk]⟩
  | succ a => exact h a b hk

/-- A sequence of `a + b` items is `a` items and then `b` items. -/
theorem Items.splits {k : Nat} {c : Bytes} (hc : Items k c) : Splits k c := by
  induction hc with
  | nil => exact splits_of_succ Items.nil (fun a b hk => by omega)
  | int hm hh hc ih =>
      refine splits_of_succ (Items.int hm hh hc) fun a b hk => ?_
      obtain ⟨c₁, c₂, rfl, h₁, h₂⟩ := ih a b (by omega)
      exact ⟨_, c₂, (List.append_assoc ..).symm, Items.int hm hh h₁, h₂⟩
  | string hm hh hs ht hc ih =>
      refine splits_of_succ (Items.string hm hh hs ht hc) fun a b hk => ?_
      obtain ⟨c₁, c₂, rfl, h₁, h₂⟩ := ih a b (by omega)
      exact ⟨_, c₂, (List.append_assoc ..).symm, Items.string hm hh hs ht h₁, h₂⟩
  | @chunked m k s c hm hs hc ih =>
      refine splits_of_succ (Items.chunked hm hs hc) fun a b hk => ?_
      obtain ⟨c₁, c₂, rfl, h₁, h₂⟩ := ih a b (by omega)
      exact ⟨_ :: (s ++ breakByte :: c₁), c₂, by simp, Items.chunked hm hs h₁, h₂⟩
  | @array n k h c hh hc ih =>
      refine splits_of_succ (Items.array hh hc) fun a b hk => ?_
      obtain ⟨c₁, c₂, rfl, h₁, h₂⟩ := ih (n + a) b (by omega)
      exact ⟨_, c₂, (List.append_assoc ..).symm, Items.array hh h₁, h₂⟩
  | @map n k h c hh hc ih =>
      refine splits_of_succ (Items.map hh hc) fun a b hk => ?_
      obtain ⟨c₁, c₂, rfl, h₁, h₂⟩ := ih (2 * n + a) b (by omega)
      exact ⟨_, c₂, (List.append_assoc ..).symm, Items.map hh h₁, h₂⟩
  | @arrayIndef j k s c hs hc _ ih =>
      refine splits_of_succ (Items.arrayIndef hs hc) fun a b hk => ?_
      obtain ⟨c₁, c₂, rfl, h₁, h₂⟩ := ih a b (by omega)
      exact ⟨_ :: (s ++ breakByte :: c₁), c₂, by simp, Items.arrayIndef hs h₁, h₂⟩
  | @mapIndef j k s c hs hc _ ih =>
      refine splits_of_succ (Items.mapIndef hs hc) fun a b hk => ?_
      obtain ⟨c₁, c₂, rfl, h₁, h₂⟩ := ih a b (by omega)
      exact ⟨_ :: (s ++ breakByte :: c₁), c₂, by simp, Items.mapIndef hs h₁, h₂⟩
  | tag hh hc ih =>
      refine splits_of_succ (Items.tag hh hc) fun a b hk => ?_
      obtain ⟨c₁, c₂, rfl, h₁, h₂⟩ := ih (a + 1) b hk
      exact ⟨_, c₂, (List.append_assoc ..).symm, Items.tag hh h₁, h₂⟩
  | simple hh hv hc ih =>
      refine splits_of_succ (Items.simple hh hv hc) fun a b hk => ?_
      obtain ⟨c₁, c₂, rfl, h₁, h₂⟩ := ih a b (by omega)
      exact ⟨_, c₂, (List.append_assoc ..).symm, Items.simple hh hv h₁, h₂⟩

/-- A head can be told from a break by its first byte. -/
theorem Head.cons_ne_break {m n : Nat} {h : Bytes} (hm : m < 8) (hh : Head m n h) (t : Bytes) :
    ∃ x t', h ++ t = x :: t' ∧ x ≠ breakByte := by
  obtain ⟨x, t', rfl, -, hx⟩ := hh.exists_cons hm
  refine ⟨x, t' ++ t, rfl, fun hc => ?_⟩
  rw [hc] at hx
  exact absurd hx (by decide)

/-- The first byte of a sequence of items is not a break. -/
theorem Items.cons_ne_break {k : Nat} {c : Bytes} (hc : Items (k + 1) c) :
    ∃ x t, c = x :: t ∧ x ≠ breakByte := by
  generalize hk : k + 1 = k' at hc
  cases hc with
  | nil => omega
  | int hm hh _ => exact hh.cons_ne_break (by omega) _
  | string hm hh _ _ _ =>
      rw [List.append_assoc]
      exact hh.cons_ne_break (by omega) _
  | chunked hm _ _ =>
      refine ⟨_, _, rfl, ?_⟩
      rcases hm with rfl | rfl <;> decide
  | array hh _ | map hh _ | tag hh _ | simple hh _ _ => exact hh.cons_ne_break (by omega) _
  | arrayIndef _ _ | mapIndef _ _ => exact ⟨_, _, rfl, by decide⟩

/-! ### Items, and pieces that are kept as they stand -/

/-- Enough of a head to tell the kind of what it starts: a byte, or two where a negative
integer has an argument of its own. -/
def Headed (s : Bytes) : Prop :=
  ∃ x t, s = x :: t ∧
    ((x.toNat / 32 = 1 → x.toNat % 32 < 24 ∨ 28 ≤ x.toNat % 32) ∨ t ≠ [])

theorem Headed.length_pos {s : Bytes} (hs : Headed s) : 0 < s.length := by
  obtain ⟨x, t, rfl, -⟩ := hs
  simp

theorem Headed.append {s : Bytes} (hs : Headed s) (t : Bytes) : Headed (s ++ t) := by
  obtain ⟨x, u, rfl, hx | hu⟩ := hs
  · exact ⟨x, u ++ t, rfl, Or.inl hx⟩
  · exact ⟨x, u ++ t, rfl, Or.inr (by simp [hu])⟩

theorem Head.headed {m n : Nat} {h : Bytes} (hm : m < 8) (hh : Head m n h) : Headed h := by
  cases hh with
  | short hn =>
      refine ⟨_, _, rfl, Or.inl ?_⟩
      rw [initial_toNat hm (by omega)]
      omega
  | long w hw hn =>
      refine ⟨_, _, rfl, Or.inr ?_⟩
      rw [← List.length_pos_iff]
      simp

theorem headed_indefinite {m : Nat} (hm : m < 8) (s : Bytes) : Headed (initial m 31 :: s) := by
  refine ⟨_, _, rfl, Or.inl fun _ => ?_⟩
  rw [initial_toNat hm (by omega)]
  omega

theorem Items.headed {k : Nat} {c : Bytes} (hc : Items (k + 1) c) : Headed c := by
  cases hc with
  | int hm hh _ => exact (hh.headed (by omega)).append _
  | string hm hh _ _ _ =>
      rw [List.append_assoc]
      exact (hh.headed (by omega)).append _
  | chunked hm _ _ => exact headed_indefinite (by omega) _
  | array hh _ | map hh _ | tag hh _ | simple hh _ _ => exact (hh.headed (by omega)).append _
  | arrayIndef _ _ | mapIndef _ _ => exact headed_indefinite (by omega) _

/-- `c` is `k` items, one after the other, where a piece of `X` may stand for an item. -/
inductive Units (X : Bytes → Prop) : Nat → Bytes → Prop
  | nil : Units X 0 []
  | item {k : Nat} {c d : Bytes} (hc : Item c) (hd : Units X k d) : Units X (k + 1) (c ++ d)
  | array {n k : Nat} {h c : Bytes} (hh : Head 4 n h) (hc : Units X (n + k) c) :
      Units X (k + 1) (h ++ c)
  | tag {n k : Nat} {h c : Bytes} (hh : Head 6 n h) (hc : Units X (k + 1) c) :
      Units X (k + 1) (h ++ c)
  | piece {k : Nat} {s c : Bytes} (hs : X s) (hhead : Headed s) (hc : Units X k c) :
      Units X (k + 1) (s ++ c)

/-- No pieces but items. -/
abbrev NoPieces : Bytes → Prop := fun _ => False

namespace Units

variable {X : Bytes → Prop} {k j : Nat} {c d : Bytes}

theorem one (hc : Item c) : Units X 1 c := by simpa using item hc nil

theorem append (hc : Units X k c) (hd : Units X j d) : Units X (k + j) (c ++ d) := by
  induction hc with
  | nil => simpa using hd
  | item hc _ ih =>
      rw [Nat.add_right_comm, List.append_assoc]
      exact item hc ih
  | array hh _ ih =>
      rw [Nat.add_right_comm, List.append_assoc]
      exact array hh (by rwa [← Nat.add_assoc])
  | tag hh _ ih =>
      rw [Nat.add_right_comm, List.append_assoc]
      exact tag hh (by rwa [Nat.add_right_comm] at ih)
  | piece hs hhead _ ih =>
      rw [Nat.add_right_comm, List.append_assoc]
      exact piece hs hhead ih

theorem le_length (hc : Units X k c) : k ≤ c.length := by
  induction hc with
  | nil => exact Nat.zero_le _
  | item hc _ ih =>
      have := hc.le_length
      simp only [List.length_append]
      omega
  | array hh _ ih | tag hh _ ih =>
      have := hh.length_pos
      simp only [List.length_append]
      omega
  | piece _ hhead _ ih =>
      have := hhead.length_pos
      simp only [List.length_append]
      omega

theorem headed (hc : Units X (k + 1) c) : Headed c := by
  cases hc with
  | item hc _ => exact hc.headed.append _
  | array hh _ | tag hh _ => exact (hh.headed (by omega)).append _
  | piece _ hhead _ => exact hhead.append _

theorem mono {Y : Bytes → Prop} (hc : Units X k c) (h : ∀ s, X s → Y s) : Units Y k c := by
  induction hc with
  | nil => exact nil
  | item hc _ ih => exact item hc ih
  | array hh _ ih => exact array hh ih
  | tag hh _ ih => exact tag hh ih
  | piece hs hhead _ ih => exact piece (h _ hs) hhead ih

/-- Where the pieces are items, they are all items. -/
theorem items (hc : Units X k c) (hX : ∀ s, X s → Item s) : Items k c := by
  induction hc with
  | nil => exact Items.nil
  | item hc _ ih =>
      rw [Nat.add_comm]
      exact hc.append ih
  | array hh _ ih => exact Items.array hh ih
  | tag hh _ ih => exact Items.tag hh ih
  | piece hs _ _ ih =>
      rw [Nat.add_comm]
      exact (hX _ hs).append ih

end Units

end Cbor
