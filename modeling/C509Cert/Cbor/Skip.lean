/-
Stepping over data items.

`skipItems f k b` steps over `k` items at the front of `b` and returns what follows.
It recurses on a fuel `f`, of which every head it reads costs one; a head is at
least one byte, so more fuel than there are bytes always suffices, and `skip` passes
exactly that.  `skip_sound` and `skip_complete` say together that it accepts the
well-formed items and stops at their end, which is `skip_iff`.
-/
import C509Cert.Cbor.Item

namespace Cbor

/-- Step over the chunks of an indefinite-length string of major type `m` and its break. -/
def skipChunks (m : Nat) : Nat → Bytes → Option Bytes
  | 0, _ => none
  | _ + 1, [] => none
  | f + 1, x :: r =>
      if x = breakByte then some r
      else match readHead (x :: r) with
        | none => none
        | some (m', n, r') =>
            if m' = m ∧ n ≤ r'.length ∧ StringContent m (r'.take n) then
              skipChunks m f (r'.drop n)
            else none

/--
What is due after a head of `len` bytes, `k` items being due after its own: the
number of items, and the input they start at.
-/
def dueAfter (m n k len : Nat) (r : Bytes) : Option (Nat × Bytes) :=
  match m with
  | 0 | 1 => some (k, r)
  | 2 | 3 =>
      if n ≤ r.length ∧ StringContent m (r.take n) then some (k, r.drop n) else none
  | 4 => some (n + k, r)
  | 5 => some (2 * n + k, r)
  | 6 => some (k + 1, r)
  | _ => if len = 2 → 32 ≤ n then some (k, r) else none

mutual

/-- Step over `k` items. -/
def skipItems : Nat → Nat → Bytes → Option Bytes
  | _, 0, b => some b
  | 0, _ + 1, _ => none
  | _ + 1, _ + 1, [] => none
  | f + 1, k + 1, x :: r =>
      if x = initial 2 31 then (skipChunks 2 f r).bind (skipItems f k)
      else if x = initial 3 31 then (skipChunks 3 f r).bind (skipItems f k)
      else if x = initial 4 31 then (skipUntil f 1 r).bind (skipItems f k)
      else if x = initial 5 31 then (skipUntil f 2 r).bind (skipItems f k)
      else match readHead (x :: r) with
        | none => none
        | some (m, n, r') =>
            match dueAfter m n k ((x :: r).length - r'.length) r' with
            | none => none
            | some (k', b) => skipItems f k' b

/-- Step over items, `g` at a time, up to and over a break. -/
def skipUntil : Nat → Nat → Bytes → Option Bytes
  | 0, _, _ => none
  | _ + 1, _, [] => none
  | f + 1, g, x :: r =>
      if x = breakByte then some r
      else (skipItems f g (x :: r)).bind (skipUntil f g)

end

/-- Step over one item. -/
def skip (b : Bytes) : Option Bytes := skipItems (b.length + 1) 1 b

/-! ### What is stepped over is well formed -/

theorem skipChunks_sound {m f : Nat} {b r : Bytes} (h : skipChunks m f b = some r) :
    ∃ s, Chunks m s ∧ b = s ++ breakByte :: r := by
  induction f generalizing b with
  | zero => simp [skipChunks] at h
  | succ f ih =>
      cases b with
      | nil => simp [skipChunks] at h
      | cons x t =>
          rw [skipChunks] at h
          split at h
          · rename_i hx
            cases h
            exact ⟨[], Chunks.nil, by rw [hx]; rfl⟩
          · split at h
            · simp at h
            · rename_i m' n r' hread
              split at h
              · rename_i hcond
                obtain ⟨rfl, hn, ht⟩ := hcond
                obtain ⟨-, hd, hhead, hb⟩ := head_of_readHead hread
                obtain ⟨s, hs, hr'⟩ := ih h
                refine ⟨hd ++ r'.take n ++ s,
                  Chunks.cons hhead (List.length_take_of_le hn) ht hs, ?_⟩
                rw [hb, List.append_assoc, List.append_assoc, ← hr', List.take_append_drop]
              · simp at h

/-- The items due after a head make an item of it. -/
theorem dueAfter_sound {m n k k' : Nat} {h r b : Bytes} (hm : m < 8) (hh : Head m n h)
    (hdue : dueAfter m n k h.length r = some (k', b)) :
    ∃ s, r = s ++ b ∧ ∀ c, Items k' c → Items (k + 1) (h ++ (s ++ c)) := by
  unfold dueAfter at hdue
  split at hdue
  · cases hdue
    exact ⟨[], rfl, fun c hc => Items.int (by omega) hh hc⟩
  · cases hdue
    exact ⟨[], rfl, fun c hc => Items.int (by omega) hh hc⟩
  · split at hdue
    · rename_i hcond
      cases hdue
      refine ⟨r.take n, (List.take_append_drop ..).symm, fun c hc => ?_⟩
      rw [← List.append_assoc]
      exact Items.string (Or.inl rfl) hh (List.length_take_of_le hcond.1) hcond.2 hc
    · simp at hdue
  · split at hdue
    · rename_i hcond
      cases hdue
      refine ⟨r.take n, (List.take_append_drop ..).symm, fun c hc => ?_⟩
      rw [← List.append_assoc]
      exact Items.string (Or.inr rfl) hh (List.length_take_of_le hcond.1) hcond.2 hc
    · simp at hdue
  · cases hdue
    exact ⟨[], rfl, fun c hc => Items.array hh hc⟩
  · cases hdue
    exact ⟨[], rfl, fun c hc => Items.map hh hc⟩
  · cases hdue
    exact ⟨[], rfl, fun c hc => Items.tag hh hc⟩
  · obtain rfl : m = 7 := by
      interval_cases m <;> simp_all
    split at hdue
    · cases hdue
      exact ⟨[], rfl, fun c hc => Items.simple hh ‹_› hc⟩
    · simp at hdue

/-- Soundness of both functions, by one induction on the fuel. -/
theorem skip_sound (f : Nat) :
    (∀ k b r, skipItems f k b = some r → ∃ c, Items k c ∧ b = c ++ r) ∧
    (∀ g b r, skipUntil f g b = some r → ∃ j c, Items (g * j) c ∧ b = c ++ breakByte :: r) := by
  induction f with
  | zero =>
      refine ⟨fun k b r h => ?_, fun g b r h => by simp [skipUntil] at h⟩
      cases k with
      | zero => exact ⟨[], Items.nil, by simpa [skipItems] using h⟩
      | succ k => simp [skipItems] at h
  | succ f ih =>
      obtain ⟨ihItems, ihUntil⟩ := ih
      refine ⟨fun k b r h => ?_, fun g b r h => ?_⟩
      · cases k with
        | zero => exact ⟨[], Items.nil, by simpa [skipItems] using h⟩
        | succ k =>
          cases b with
          | nil => simp [skipItems] at h
          | cons x t =>
            rw [skipItems] at h
            split at h
            · -- an indefinite-length byte string
              rename_i hx
              obtain ⟨t', hchunks, hrest⟩ := Option.bind_eq_some_iff.mp h
              obtain ⟨s, hs, rfl⟩ := skipChunks_sound hchunks
              obtain ⟨c, hc, rfl⟩ := ihItems k t' r hrest
              exact ⟨_, Items.chunked (Or.inl rfl) hs hc, by simp [hx]⟩
            split at h
            · -- an indefinite-length text string
              rename_i hx
              obtain ⟨t', hchunks, hrest⟩ := Option.bind_eq_some_iff.mp h
              obtain ⟨s, hs, rfl⟩ := skipChunks_sound hchunks
              obtain ⟨c, hc, rfl⟩ := ihItems k t' r hrest
              exact ⟨_, Items.chunked (Or.inr rfl) hs hc, by simp [hx]⟩
            split at h
            · -- an indefinite-length array
              rename_i hx
              obtain ⟨t', huntil, hrest⟩ := Option.bind_eq_some_iff.mp h
              obtain ⟨j, s, hs, rfl⟩ := ihUntil 1 t t' huntil
              obtain ⟨c, hc, rfl⟩ := ihItems k t' r hrest
              exact ⟨_, Items.arrayIndef hs hc, by simp [hx]⟩
            split at h
            · -- an indefinite-length map
              rename_i hx
              obtain ⟨t', huntil, hrest⟩ := Option.bind_eq_some_iff.mp h
              obtain ⟨j, s, hs, rfl⟩ := ihUntil 2 t t' huntil
              obtain ⟨c, hc, rfl⟩ := ihItems k t' r hrest
              exact ⟨_, Items.mapIndef hs hc, by simp [hx]⟩
            split at h
            · simp at h
            · rename_i m n r' hread
              obtain ⟨hm, hd, hh, hb⟩ := head_of_readHead hread
              split at h
              · simp at h
              · rename_i k' b hdue
                have hlen : (x :: t).length - r'.length = hd.length := by rw [hb]; simp
                rw [hlen] at hdue
                obtain ⟨s, rfl, hitems⟩ := dueAfter_sound hm hh hdue
                obtain ⟨c, hc, rfl⟩ := ihItems k' b r h
                exact ⟨_, hitems c hc, by simp [hb]⟩
      · cases b with
        | nil => simp [skipUntil] at h
        | cons x t =>
            rw [skipUntil] at h
            split at h
            · rename_i hx
              cases h
              exact ⟨0, [], Items.nil, by rw [hx]; rfl⟩
            · obtain ⟨t', hitems, hrest⟩ := Option.bind_eq_some_iff.mp h
              obtain ⟨c₁, hc₁, hx⟩ := ihItems g _ t' hitems
              obtain ⟨j, c₂, hc₂, rfl⟩ := ihUntil g t' r hrest
              refine ⟨j + 1, c₁ ++ c₂, ?_, by simp [hx]⟩
              rw [Nat.mul_succ, Nat.add_comm]
              exact hc₁.append hc₂

/-! ### Every well-formed item is stepped over -/

theorem skipChunks_complete {m : Nat} {s : Bytes} (hm : m < 8) (hs : Chunks m s) :
    ∀ f r, s.length < f → skipChunks m f (s ++ breakByte :: r) = some r := by
  induction hs with
  | nil =>
      intro f r hf
      obtain ⟨f, rfl⟩ : ∃ f', f = f' + 1 := ⟨f - 1, by omega⟩
      simp [skipChunks]
  | @cons n h t c hh ht htext hc ih =>
      intro f r hf
      obtain ⟨f, rfl⟩ : ∃ f', f = f' + 1 := ⟨f - 1, by omega⟩
      have hpos := hh.length_pos
      simp only [List.length_append] at hf
      have hread := readHead_head hm hh (t ++ (c ++ breakByte :: r))
      obtain ⟨x, t', hx, hne⟩ := hh.cons_ne_break hm (t ++ (c ++ breakByte :: r))
      rw [List.append_assoc, List.append_assoc, hx, skipChunks, if_neg hne, ← hx, hread]
      subst ht
      simp only [true_and, List.length_append, Nat.le_add_right, List.take_left, htext, if_true,
        List.drop_left]
      exact ih f r (by omega)

/-- One head read: the items due after it are what is left to step over. -/
theorem skipItems_head {m n k k' f : Nat} {h r b : Bytes} (hm : m < 8) (hh : Head m n h)
    (hdue : dueAfter m n k h.length r = some (k', b)) :
    skipItems (f + 1) (k + 1) (h ++ r) = skipItems f k' b := by
  have hread := readHead_head hm hh r
  obtain ⟨x, t, rfl, -, hx⟩ := hh.exists_cons hm
  have hne : ∀ m', m' < 8 → x ≠ initial m' 31 := by
    intro m' hm' hc
    rw [hc, initial_toNat hm' (by omega)] at hx
    omega
  have hlen : (x :: (t ++ r)).length - r.length = (x :: t).length := by
    simp only [List.length_cons, List.length_append]
    omega
  rw [List.cons_append] at hread ⊢
  rw [skipItems, if_neg (hne 2 (by omega)), if_neg (hne 3 (by omega)), if_neg (hne 4 (by omega)),
    if_neg (hne 5 (by omega)), hread]
  simp only [hlen, hdue]

/-- Stepping over items group by group up to a break, once items can be stepped over. -/
private theorem skipUntil_complete {L : Nat}
    (hitems : ∀ k c r f, c.length ≤ L → Items k c → c.length < f →
      skipItems f k (c ++ r) = some r) {g : Nat} (hg : 0 < g) :
    ∀ j s r f, s.length ≤ L → Items (g * j) s → s.length + 1 < f →
      skipUntil f g (s ++ breakByte :: r) = some r := by
  intro j
  induction j with
  | zero =>
      intro s r f _ hs hf
      obtain ⟨f, rfl⟩ : ∃ f', f = f' + 1 := ⟨f - 1, by omega⟩
      obtain rfl := Items.eq_nil hs
      simp [skipUntil]
  | succ j ih =>
      intro s r f hL hs hf
      obtain ⟨f, rfl⟩ : ∃ f', f = f' + 1 := ⟨f - 1, by omega⟩
      obtain ⟨g, rfl⟩ : ∃ g', g = g' + 1 := ⟨g - 1, by omega⟩
      obtain ⟨s₁, s₂, rfl, hs₁, hs₂⟩ := hs.splits (g + 1) ((g + 1) * j) (by ring)
      have hle := hs₁.le_length
      simp only [List.length_append] at hL hf
      have hstep := hitems (g + 1) s₁ (s₂ ++ breakByte :: r) f (by omega) hs₁ (by omega)
      obtain ⟨x, t, rfl, hx⟩ := hs₁.cons_ne_break
      rw [List.append_assoc, List.cons_append, skipUntil, if_neg hx, ← List.cons_append, hstep,
        Option.bind_some]
      simp only [List.length_cons] at hL hf
      exact ih s₂ r f (by omega) hs₂ (by omega)

theorem skip_complete (L : Nat) :
    ∀ k c r f, c.length ≤ L → Items k c → c.length < f → skipItems f k (c ++ r) = some r := by
  induction L with
  | zero =>
      intro k c r f hL hc hf
      have := hc.le_length
      obtain rfl : k = 0 := by omega
      obtain rfl := Items.eq_nil hc
      simp [skipItems]
  | succ L ih =>
      intro k c r f hL hc hf
      obtain ⟨f, rfl⟩ : ∃ f', f = f' + 1 := ⟨f - 1, by omega⟩
      cases hc with
      | nil => simp [skipItems]
      | @int m n k h c hm hh hc =>
          have := hh.length_pos
          simp only [List.length_append] at hL hf
          obtain hdue : dueAfter m n k h.length (c ++ r) = some (k, c ++ r) := by
            interval_cases m <;> rfl
          rw [List.append_assoc, skipItems_head (by omega) hh hdue]
          exact ih k c r f (by omega) hc (by omega)
      | @string m n k h s c hm hh hs ht hc =>
          have := hh.length_pos
          simp only [List.length_append] at hL hf
          have hdue : dueAfter m n k h.length (s ++ (c ++ r)) = some (k, c ++ r) := by
            subst hs
            rcases hm with rfl | rfl <;> simp [dueAfter, ht]
          rw [List.append_assoc, List.append_assoc, skipItems_head (by omega) hh hdue]
          exact ih k c r f (by omega) hc (by omega)
      | @chunked m k s c hm hs hc =>
          simp only [List.length_cons, List.length_append] at hL hf
          have hchunks := skipChunks_complete (by omega) hs f (c ++ r) (by omega)
          have hrest := ih k c r f (by omega) hc (by omega)
          rw [List.cons_append, List.append_assoc, List.cons_append, skipItems]
          rcases hm with rfl | rfl
          · rw [if_pos rfl, hchunks, Option.bind_some, hrest]
          · rw [if_neg (by decide), if_pos rfl, hchunks, Option.bind_some, hrest]
      | @array n k h c hh hc =>
          have := hh.length_pos
          simp only [List.length_append] at hL hf
          rw [List.append_assoc, skipItems_head (by omega) hh rfl]
          exact ih _ c r f (by omega) hc (by omega)
      | @map n k h c hh hc =>
          have := hh.length_pos
          simp only [List.length_append] at hL hf
          rw [List.append_assoc, skipItems_head (by omega) hh rfl]
          exact ih _ c r f (by omega) hc (by omega)
      | @arrayIndef j k s c hs hc =>
          simp only [List.length_cons, List.length_append] at hL hf
          have huntil := skipUntil_complete ih Nat.one_pos j s (c ++ r) f (by omega)
            (by rwa [Nat.one_mul]) (by omega)
          have hrest := ih k c r f (by omega) hc (by omega)
          rw [List.cons_append, List.append_assoc, List.cons_append, skipItems,
            if_neg (by decide), if_neg (by decide), if_pos rfl, huntil, Option.bind_some, hrest]
      | @mapIndef j k s c hs hc =>
          simp only [List.length_cons, List.length_append] at hL hf
          have huntil := skipUntil_complete ih Nat.two_pos j s (c ++ r) f (by omega) hs (by omega)
          have hrest := ih k c r f (by omega) hc (by omega)
          rw [List.cons_append, List.append_assoc, List.cons_append, skipItems,
            if_neg (by decide), if_neg (by decide), if_neg (by decide), if_pos rfl, huntil,
            Option.bind_some, hrest]
      | @tag n k h c hh hc =>
          have := hh.length_pos
          simp only [List.length_append] at hL hf
          rw [List.append_assoc, skipItems_head (by omega) hh rfl]
          exact ih _ c r f (by omega) hc (by omega)
      | @simple n k h c hh hv hc =>
          have := hh.length_pos
          simp only [List.length_append] at hL hf
          have hdue : dueAfter 7 n k h.length (c ++ r) = some (k, c ++ r) := if_pos hv
          rw [List.append_assoc, skipItems_head (by omega) hh hdue]
          exact ih k c r f (by omega) hc (by omega)

/-- **Stepping over one item accepts the well-formed items and stops at their end.** -/
theorem skip_iff {b r : Bytes} : skip b = some r ↔ ∃ c, Item c ∧ b = c ++ r := by
  constructor
  · intro h
    exact (skip_sound _).1 1 b r h
  · rintro ⟨c, hc, rfl⟩
    exact skip_complete c.length 1 c r _ (Nat.le_refl _) hc (by simp)

/-- **No item is a proper prefix of another.** -/
theorem Items.unique {k : Nat} {c c' r r' : Bytes} (hc : Items k c) (hc' : Items k c')
    (heq : c ++ r = c' ++ r') : c = c' ∧ r = r' := by
  have h := skip_complete c.length k c r (c.length + c'.length + 1) (Nat.le_refl _) hc (by omega)
  have h' := skip_complete c'.length k c' r' (c.length + c'.length + 1) (Nat.le_refl _) hc'
    (by omega)
  rw [heq, h'] at h
  obtain rfl : r' = r := Option.some.inj h
  exact ⟨List.append_cancel_right heq, rfl⟩

/-- An item that starts with the head of an array or a tag is that array, or that tag and the
item after it. -/
private theorem head_inv {m n k : Nat} {d h r u : Bytes} (hm : m = 4 ∨ m = 6)
    (hd : Items (k + 1) d) (hh : Head m n h) (heq : d ++ r = h ++ u) :
    ∃ s, d = h ++ s ∧ u = s ++ r ∧ (m = 4 → Items (n + k) s) ∧ (m = 6 → Items (k + 1) s) := by
  have hhead : ∀ {m' n' : Nat} {h' s : Bytes}, m' < 8 → Head m' n' h' → d = h' ++ s →
      m' = m ∧ n' = n ∧ h' = h ∧ u = s ++ r := by
    rintro m' n' h' s hm' hh' rfl
    rw [List.append_assoc] at heq
    obtain ⟨h1, h2, h3, h4⟩ := Head.unique hm' (by omega) hh' hh heq
    exact ⟨h1, h2, h3, h4.symm⟩
  have hindef : ∀ {m' : Nat} {s : Bytes}, m' < 8 → d = initial m' 31 :: s → False := by
    rintro m' s hm' rfl
    obtain ⟨x, t, rfl, -, hx⟩ := hh.exists_cons (by omega)
    obtain ⟨rfl, -⟩ := List.cons.inj heq
    rw [initial_toNat hm' (by omega)] at hx
    omega
  revert hhead hindef
  cases hd with
  | @array n' k h' s hh' hs =>
      intro hhead _
      obtain ⟨rfl, rfl, rfl, rfl⟩ := hhead (by omega) hh' rfl
      exact ⟨s, rfl, rfl, fun _ => hs, fun h => by omega⟩
  | @tag n' k h' s hh' hs =>
      intro hhead _
      obtain ⟨rfl, rfl, rfl, rfl⟩ := hhead (by omega) hh' rfl
      exact ⟨s, rfl, rfl, fun h => by omega, fun _ => hs⟩
  | int hm' hh' _ =>
      intro hhead _
      have := (hhead (by omega) hh' rfl).1
      omega
  | string hm' hh' _ _ _ =>
      intro hhead _
      have := (hhead (by omega) hh' (List.append_assoc ..)).1
      omega
  | map hh' _ | simple hh' _ _ =>
      intro hhead _
      have := (hhead (by omega) hh' rfl).1
      omega
  | chunked hm' _ _ =>
      intro _ hindef
      exact (hindef (by omega) rfl).elim
  | arrayIndef _ _ | mapIndef _ _ =>
      intro _ hindef
      exact (hindef (by omega) rfl).elim

/-- An item that starts with the head of an array is that array. -/
theorem Items.array_inv {k n : Nat} {d h r u : Bytes} (hd : Items (k + 1) d) (hh : Head 4 n h)
    (heq : d ++ r = h ++ u) : ∃ s, d = h ++ s ∧ u = s ++ r ∧ Items (n + k) s := by
  obtain ⟨s, hds, hu, hs, -⟩ := head_inv (Or.inl rfl) hd hh heq
  exact ⟨s, hds, hu, hs rfl⟩

/-- And one that starts with the head of a tag is that tag and the item after it. -/
theorem Items.tag_inv {k n : Nat} {d h r u : Bytes} (hd : Items (k + 1) d) (hh : Head 6 n h)
    (heq : d ++ r = h ++ u) : ∃ s, d = h ++ s ∧ u = s ++ r ∧ Items (k + 1) s := by
  obtain ⟨s, hds, hu, -, hs⟩ := head_inv (Or.inr rfl) hd hh heq
  exact ⟨s, hds, hu, hs rfl⟩

/-- `b` starts with `k` well-formed items. -/
def Begins (k : Nat) (b : Bytes) : Prop := ∃ c s, b = c ++ s ∧ Items k c

/-- Stepping over the items decides it. -/
theorem begins_iff {k : Nat} {b : Bytes} :
    Begins k b ↔ (skipItems (b.length + 1) k b).isSome = true := by
  constructor
  · rintro ⟨c, s, rfl, hc⟩
    rw [skip_complete c.length k c s _ (Nat.le_refl _) hc (by simp)]
    rfl
  · intro h
    obtain ⟨s, hs⟩ := Option.isSome_iff_exists.mp h
    obtain ⟨c, hc, hb⟩ := (skip_sound _).1 k b s hs
    exact ⟨c, s, hb, hc⟩

instance (k : Nat) (b : Bytes) : Decidable (Begins k b) := decidable_of_iff _ begins_iff.symm

end Cbor
