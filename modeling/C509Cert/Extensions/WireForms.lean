/-
Address blocks and AS identifiers, as they stand on the wire.

An entry is a number or a byte string alone, or two of them under an array header.  Its
numbers are differences, so what an entry means depends on the state of the chain it is met
in; its bytes do not.  Each decoder of entries accepts exactly the entries on the wire whose
meaning it can build.
-/
import C509Cert.Codec.Denotes
import C509Cert.Extensions.IpAddr

namespace C509

open Cbor Codec

/-! ### Entries -/

/-- One element, or the two bounds of a range. -/
inductive Entry (α : Type)
  | single (a : α)
  | range (min max : α)
  deriving DecidableEq

namespace Entry

variable {α β γ S : Type}

def map (f : α → β) : Entry α → Entry β
  | single a => single (f a)
  | range a b => range (f a) (f b)

/-- The elements in the order they are written in. -/
def flatten : Entry α → List α
  | single a => [a]
  | range a b => [a, b]

def isRange : Entry α → Bool
  | single _ => false
  | range _ _ => true

/-- Entries are their shapes and their elements. -/
theorem eq_of_flatten {es es' : List (Entry α)} (hshape : es.map isRange = es'.map isRange)
    (hflat : es.flatMap flatten = es'.flatMap flatten) : es = es' := by
  induction es generalizing es' with
  | nil =>
      cases es' with
      | nil => rfl
      | cons => cases hshape
  | cons e es ih =>
      cases es' with
      | nil => cases hshape
      | cons e' es' =>
          obtain ⟨he, hes⟩ := List.cons.inj hshape
          cases e with
          | single a =>
              cases e' with
              | single a' =>
                  obtain ⟨rfl, hrest⟩ := List.cons.inj hflat
                  rw [ih hes hrest]
              | range => cases he
          | range a b =>
              cases e' with
              | single => cases he
              | range a' b' =>
                  obtain ⟨rfl, htail⟩ := List.cons.inj hflat
                  obtain ⟨rfl, hrest⟩ := List.cons.inj htail
                  rw [ih hes hrest]

/-- Each element, by a step that carries a state. -/
def mapAccum (f : S → α → β × S) (s : S) : Entry α → Entry β × S
  | single a => (single (f s a).1, (f s a).2)
  | range a b => (range (f s a).1 (f (f s a).2 b).1, (f (f s a).2 b).2)

/-- The same of a list of entries. -/
def mapAccumAll (f : S → α → β × S) : S → List (Entry α) → List (Entry β)
  | _, [] => []
  | s, e :: es => (e.mapAccum f s).1 :: mapAccumAll f (e.mapAccum f s).2 es

/-- An entry written with elements that `W` writes. -/
def Wire (W : α → Bytes → Prop) : Entry α → Bytes → Prop
  | single a, c => W a c
  | range a b, c => ∃ h d e, Head 4 2 h ∧ W a d ∧ W b e ∧ c = h ++ (d ++ e)

/-- A definite-length array of such entries. -/
def ArrayWire (W : α → Bytes → Prop) (es : List (Entry α)) (c : Bytes) : Prop :=
  ∃ h d, Head 4 es.length h ∧ Each (Entry.Wire W) es d ∧ c = h ++ d

end Entry

/-! ### Chains as running sums -/

namespace Chain

/-- The number that the next one is a difference from. -/
def base (c : Chain) : Int := if c.first then 0 else c.previous

@[simp] theorem base_start : start.base = 0 := rfl

@[simp] theorem base_after (abs : Int) : (after abs).base = abs := rfl

theorem nextAbsolute_eq (c : Chain) (raw : Int) : c.nextAbsolute raw = c.base + raw := by
  unfold nextAbsolute base
  split <;> omega

theorem nextDelta_eq (c : Chain) (abs : Int) : c.nextDelta abs = abs - c.base := by
  unfold nextDelta base
  split <;> omega

end Chain

/-! ### What the reads accept -/

section

variable [Minicbor] {α β : Type}

theorem denotes_lift {f : Bytes → Except Minicbor.Err (α × Bytes)} {W : α → Bytes → Prop}
    (hf : ∀ {b r a}, f b = .ok (a, r) ↔ ∃ c, W a c ∧ b = c ++ r) :
    Denotes (Decoder.lift f) fun c a => W a c := by
  intro b a r
  rw [Decoder.lift_run_ok, hf]
  simp only [and_comm]

theorem computes_result (x : Except String α) : Computes (result x) x.toOption := by
  cases x with
  | ok a => exact Computes.pure a
  | error msg => exact Computes.fail _

/-- A byte string. -/
def BytesWire (s c : Bytes) : Prop := ∃ h, Head 2 s.length h ∧ c = h ++ s

theorem computes_withBoundedCapacity (site : Site) (n : Nat) :
    Computes (withBoundedCapacity site n) (some ()) := Computes.emit _

variable [LawfulMinicbor]

theorem denotes_int : Denotes Decoder.int fun c v => IntHead v c :=
  denotes_lift LawfulMinicbor.readInt_ok

theorem denotes_u16 : Denotes Decoder.u16 fun c n => Head 0 n.toNat c :=
  denotes_lift LawfulMinicbor.readU16_ok

theorem denotes_bytes : Denotes Decoder.bytes fun c s => BytesWire s c := denotes_lift readBytes_iff

theorem denotes_null : Denotes Decoder.null fun c _ => c = [nullByte] := denotes_lift readNull_iff

theorem denotes_definiteArrayLen : Denotes definiteArrayLen fun c n => Head 4 n.toNat c := by
  intro b n r
  rw [definiteArrayLen_run_ok]
  simp only [and_comm]

/-- **Groups of items under one header**, which counts `k` for each. -/
theorem denotes_decodeGroups {E : Type} {W : E → Bytes → Prop} {val : E → Option α}
    {reserve : Nat → Dec Unit} {k : UInt64} {msg : String} {m : Dec α} (hk : 0 < k.toNat)
    (hreserve : ∀ n, Computes (reserve n) (some ()))
    (hm : Denotes m fun c a => ∃ e, W e c ∧ val e = some a) :
    Denotes (decodeGroups reserve k msg m) fun c l =>
      ∃ es, (∃ h d, Head 4 (es.length * k.toNat) h ∧ Each W es d ∧ c = h ++ d) ∧
        es.mapM val = some l := by
  refine (denotes_definiteArrayLen.bind fun n => Denotes.step (Computes.ensure (n % k = 0) _)
    fun _ => Denotes.step (hreserve _) fun _ => Denotes.times hm _).congr fun c l => ?_
  have hgroups := exists_groups_iff hk (Q := fun n m => ∃ h d es,
    Head 4 n h ∧ List.length es = m ∧ Each W es d ∧ es.mapM val = some l ∧ c = h ++ d)
  constructor
  · rintro ⟨n, h, d, rfl, hh, _, hensure, _, -, es, hlen, hes, hl⟩
    split at hensure
    · rename_i hmod
      obtain ⟨m, -, h', d', es', hh', rfl, hes', hl', heq⟩ :=
        hgroups.mp ⟨n, hmod, h, d, es, hh, hlen, hes, hl, rfl⟩
      exact ⟨es', ⟨h', d', hh', hes', heq⟩, hl'⟩
    · cases hensure
  · rintro ⟨es, ⟨h, d, hh, hes, rfl⟩, hl⟩
    obtain ⟨n, hmod, h', d', es', hh', hlen, hes', hl', heq⟩ :=
      hgroups.mpr ⟨es.length, hh.lt, h, d, es, hh, rfl, hes, hl, rfl⟩
    exact ⟨n, h', d', heq, hh', (), if_pos hmod, (), rfl, es', hlen, hes', hl'⟩

/-- A look at the type of the next item. -/
theorem denotes_peek {f : DataType → Dec β} {R : DataType → Bytes → β → Prop} {k : Nat}
    (hf : ∀ t, Denotes (f t) (R t)) (hitems : ∀ {t c a}, R t c a → Items (k + 1) c) :
    Denotes (Decoder.datatype >>= f) fun c a => ∃ t, typeOf c = some t ∧ R t c a := by
  have htype : ∀ {t c a} (r : Bytes), R t c a → typeOf (c ++ r) = typeOf c := by
    intro t c a r h
    have := typeOf_append (hitems h).headed r []
    rwa [List.append_nil] at this
  intro b a r
  rw [Parser.run_bind_ok_iff]
  constructor
  · rintro ⟨t, b', ht, hft⟩
    obtain ⟨ht, rfl⟩ := datatype_run_ok.mp ht
    obtain ⟨c, rfl, h⟩ := (hf t b' a r).mp hft
    exact ⟨c, rfl, t, by rw [← htype r h, ht], h⟩
  · rintro ⟨c, rfl, t, ht, h⟩
    exact ⟨t, c ++ r, datatype_run_ok.mpr ⟨by rw [htype r h, ht], rfl⟩,
      (hf t _ a r).mpr ⟨c, rfl, h⟩⟩

/-- Null for one value, and anything that is not null for the others. -/
theorem denotes_nullOr {m : Dec β} {v : β} {R : Bytes → β → Prop} (hm : Denotes m R)
    (hR : ∀ {c a}, R c a → Item c ∧ ∃ t, typeOf c = some t ∧ t ≠ .null) :
    Denotes (do
      if (← Decoder.datatype) = .null then
        Decoder.null
        return v
      else m) fun c a => c = [nullByte] ∧ a = v ∨ R c a := by
  have hnull : Denotes (do
      Decoder.null
      return v) fun c a => c = [nullByte] ∧ a = v := by
    refine (denotes_null.compute fun _ => Computes.pure v).congr fun c a => ?_
    simp only [exists_const, Option.some.injEq, eq_comm]
  have hpeek : Denotes (do
      if (← Decoder.datatype) = .null then
        Decoder.null
        return v
      else m) fun c a => ∃ t, typeOf c = some t ∧
        if t = .null then c = [nullByte] ∧ a = v else R c a := by
    refine denotes_peek (k := 0) (fun t => ?_) fun {t c a} h => ?_
    · split
      · exact hnull
      · exact hm
    · split at h
      · obtain ⟨rfl, -⟩ := h
        exact item_null
      · exact (hR h).1
  refine hpeek.congr fun c a => ?_
  constructor
  · rintro ⟨t, -, h⟩
    split at h
    · exact Or.inl h
    · exact Or.inr h
  · rintro (⟨rfl, rfl⟩ | h)
    · exact ⟨.null, rfl, rfl, rfl⟩
    · obtain ⟨-, t, ht, hne⟩ := hR h
      exact ⟨t, ht, by rwa [if_neg hne]⟩

/-- Elements that are written as items of another type than an array. -/
def NotArray (W : α → Bytes → Prop) : Prop :=
  ∀ {a : α} {c : Bytes}, W a c →
    Item c ∧ ∃ t, typeOf c = some t ∧ t ≠ .array ∧ t ≠ .arrayIndef

omit [Minicbor] [LawfulMinicbor] in
theorem notArray_intHead : NotArray IntHead := by
  intro v c hc
  obtain ⟨t, ht, heq⟩ := typeOf_intHead hc
  have htype := heq []
  rw [List.append_nil] at htype
  refine ⟨hc.item, t, htype, ?_, ?_⟩ <;> rintro rfl <;> cases ht

omit [Minicbor] [LawfulMinicbor] in
theorem notArray_bytesWire : NotArray BytesWire := by
  rintro s _ ⟨h, hh, rfl⟩
  exact ⟨hh.string_item (Or.inl rfl) (stringContent_bytes _), .bytes,
    typeOf_head (by omega) (by omega) hh s, by decide, by decide⟩

omit [Minicbor] [LawfulMinicbor] in
theorem Entry.Wire.item {W : α → Bytes → Prop} (hW : NotArray W) {e : Entry α} {c : Bytes}
    (h : e.Wire W c) : Item c := by
  cases e with
  | single a => exact (hW h).1
  | range a b =>
      obtain ⟨hd, d, e, hh, hd', he, rfl⟩ := h
      exact hh.array_item ((hW hd').1.append (hW he).1)

/-- **One element, or a range of two**: the entries whose value can be worked out. -/
theorem denotes_singleOrRange {msg : String} {single range : Dec β} {W : α → Bytes → Prop}
    {val : Entry α → Option β} (hW : NotArray W)
    (hsingle : Denotes single fun c y => ∃ a, W a c ∧ val (.single a) = some y)
    (hrange : Denotes range fun c y =>
      ∃ a b c₁ c₂, c = c₁ ++ c₂ ∧ W a c₁ ∧ W b c₂ ∧ val (.range a b) = some y) :
    Denotes (decodeSingleOrRange msg single range) fun c y =>
      ∃ e : Entry α, e.Wire W c ∧ val e = some y := by
  have harray : Denotes (do
      let n ← definiteArrayLen
      ensure (n = 2) msg
      range) fun c y => ∃ a b, (Entry.range a b).Wire W c ∧ val (.range a b) = some y := by
    refine (denotes_definiteArrayLen.bind fun n =>
      Denotes.step (Computes.ensure (n = 2) _) fun _ => hrange).congr fun c y => ?_
    constructor
    · rintro ⟨n, h, d, rfl, hh, _, hn, a, b, c₁, c₂, rfl, ha, hb, hy⟩
      split at hn
      · rename_i hn2
        subst hn2
        exact ⟨a, b, ⟨h, c₁, c₂, hh, ha, hb, rfl⟩, hy⟩
      · cases hn
    · rintro ⟨a, b, ⟨h, c₁, c₂, hh, ha, hb, rfl⟩, hy⟩
      exact ⟨2, h, c₁ ++ c₂, rfl, hh, (), rfl, a, b, c₁, c₂, rfl, ha, hb, hy⟩
  have hpeek : Denotes (decodeSingleOrRange msg single range) fun c y =>
      ∃ t, typeOf c = some t ∧
        if t = .array ∨ t = .arrayIndef then
          ∃ a b, (Entry.range a b).Wire W c ∧ val (.range a b) = some y
        else ∃ a, W a c ∧ val (.single a) = some y := by
    refine denotes_peek (k := 0) (fun t => ?_) (fun {t c y} h => ?_)
    · cases t <;> first | exact harray | exact hsingle
    · split at h
      · obtain ⟨a, b, h, -⟩ := h
        exact h.item hW
      · obtain ⟨a, h, -⟩ := h
        exact (hW h).1
  refine hpeek.congr fun c y => ?_
  constructor
  · rintro ⟨t, -, h⟩
    split at h
    · obtain ⟨a, b, h⟩ := h
      exact ⟨.range a b, h⟩
    · obtain ⟨a, h⟩ := h
      exact ⟨.single a, h⟩
  · rintro ⟨e, h, hy⟩
    cases e with
    | single a =>
        obtain ⟨-, t, ht, harray, hindef⟩ := hW h
        exact ⟨t, ht, by rw [if_neg (by simp [harray, hindef])]; exact ⟨a, h, hy⟩⟩
    | range a b =>
        obtain ⟨h', d, e, hh, hd, he, rfl⟩ := h
        refine ⟨.array, typeOf_head (by omega) (by omega) hh _, ?_⟩
        rw [if_pos (Or.inl rfl)]
        exact ⟨a, b, ⟨h', d, e, hh, hd, he, rfl⟩, hy⟩

omit [LawfulMinicbor] in
/-- Two elements read one after the other, and what is worked out from both. -/
theorem denotes_two {m : Dec α} {f : α → α → Dec β} {W : α → Bytes → Prop}
    {g : α → α → Option β} (hm : Denotes m fun c a => W a c)
    (hf : ∀ a b, Computes (f a b) (g a b)) :
    Denotes (m >>= fun a => m >>= fun b => f a b) fun c y =>
      ∃ a b c₁ c₂, c = c₁ ++ c₂ ∧ W a c₁ ∧ W b c₂ ∧ g a b = some y := by
  refine (hm.bind fun a => hm.compute (hf a)).congr fun c y => ?_
  constructor
  · rintro ⟨a, c₁, c₂, rfl, ha, b, hb, hy⟩
    exact ⟨a, b, c₁, c₂, rfl, ha, hb, hy⟩
  · rintro ⟨a, b, c₁, c₂, rfl, ha, hb, hy⟩
    exact ⟨a, c₁, c₂, rfl, ha, b, hb, hy⟩

end

/-! ### Entries can be told apart -/

theorem unambiguous_intHead : Unambiguous IntHead := by
  intro v v' c c' r r' h h' heq
  obtain ⟨rfl, rfl⟩ := IntHead.unique h h' heq
  exact ⟨rfl, List.append_cancel_right heq, rfl⟩

theorem unambiguous_bytesWire : Unambiguous BytesWire := by
  rintro s s' _ _ r r' ⟨h, hh, rfl⟩ ⟨h', hh', rfl⟩ heq
  rw [List.append_assoc, List.append_assoc] at heq
  obtain ⟨-, hlen, rfl, hrest⟩ := Head.unique (by omega) (by omega) hh hh' heq
  obtain ⟨rfl, rfl⟩ := List.append_inj hrest hlen
  exact ⟨rfl, rfl, rfl⟩

theorem Entry.unambiguous {α : Type} {W : α → Bytes → Prop} (hW : Unambiguous W)
    (harray : NotArray W) : Unambiguous (Entry.Wire W) := by
  -- an array header is not the start of an element
  have hne : ∀ {a : α} {c h d r r' : Bytes}, W a c → Head 4 2 h →
      c ++ r = h ++ d ++ r' → False := by
    intro a c h d r r' hc hh heq
    obtain ⟨hitem, t, ht, hne, -⟩ := harray hc
    have htype : typeOf (c ++ r) = some t := by
      have := typeOf_append hitem.headed r []
      rwa [List.append_nil, ht] at this
    rw [heq, List.append_assoc, typeOf_head (by omega) (by omega) hh] at htype
    exact hne (Option.some.inj htype).symm
  intro e e' c c' r r' he he' heq
  cases e with
  | single a =>
      cases e' with
      | single a' =>
          obtain ⟨rfl, rfl, hr⟩ := hW he he' heq
          exact ⟨rfl, rfl, hr⟩
      | range a' b' =>
          obtain ⟨h, d, e, hh, -, -, rfl⟩ := he'
          exact (hne he hh heq).elim
  | range a b =>
      obtain ⟨h, d, e, hh, ha, hb, rfl⟩ := he
      cases e' with
      | single a' => exact (hne he' hh heq.symm).elim
      | range a' b' =>
          obtain ⟨h', d', e', hh', ha', hb', rfl⟩ := he'
          simp only [List.append_assoc] at heq
          obtain ⟨-, -, rfl, hbounds⟩ := Head.unique (by omega) (by omega) hh hh' heq
          obtain ⟨rfl, rfl, hmax⟩ := hW ha ha' hbounds
          obtain ⟨rfl, rfl, hr⟩ := hW hb hb' hmax
          exact ⟨rfl, rfl, hr⟩

/-! ### Arrays of entries -/

namespace Entry.ArrayWire

variable {α : Type} {W : α → Bytes → Prop} {es : List (Entry α)} {c : Bytes}

theorem item (hW : NotArray W) (h : ArrayWire W es c) : Item c := by
  obtain ⟨hd, d, hh, hes, rfl⟩ := h
  exact hh.array_item (hes.items (Entry.Wire.item hW))

theorem typeOf_append (h : ArrayWire W es c) (r : Bytes) : typeOf (c ++ r) = some .array := by
  obtain ⟨hd, d, hh, -, rfl⟩ := h
  rw [List.append_assoc]
  exact typeOf_head (by omega) (by omega) hh (d ++ r)

theorem typeOf (h : ArrayWire W es c) : typeOf c = some .array := by
  have htype := h.typeOf_append []
  rwa [List.append_nil] at htype

/-- An array and null are different items. -/
theorem ne_null {r r' : Bytes} (h : ArrayWire W es c) : c ++ r ≠ nullByte :: r' := by
  intro heq
  have htype := h.typeOf_append r
  rw [heq] at htype
  cases htype

end Entry.ArrayWire

theorem Entry.arrayWire_unambiguous {α : Type} {W : α → Bytes → Prop} (hW : Unambiguous W)
    (harray : NotArray W) : Unambiguous (Entry.ArrayWire W) := by
  rintro es es' _ _ r r' ⟨h, d, hh, hes, rfl⟩ ⟨h', d', hh', hes', rfl⟩ heq
  rw [List.append_assoc, List.append_assoc] at heq
  obtain ⟨-, hlen, rfl, hrest⟩ := Head.unique (by omega) (by omega) hh hh' heq
  obtain ⟨rfl, rfl, hr⟩ := hes.unique (Entry.unambiguous hW harray) hes' hlen hrest
  exact ⟨rfl, rfl, hr⟩

end C509
