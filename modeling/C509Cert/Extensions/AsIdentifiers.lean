/-
AS identifiers on the wire (`decode_as_identifiers`, `encode_as_identifiers`).

The integers of a list of AS identifiers, singles and range bounds alike, are the
differences of one chain.  What is decoded are their running sums, and nothing but the
range of those sums decides whether a list is accepted: the bounds of a range need not be
in order.  As the sums give the differences back, a list that is written the short way is
written again as the same bytes.
-/
import C509Cert.Codec.Delta
import C509Cert.Extensions.WireForms
import C509Cert.Extensions.IpAddrRoundTrip
import C509Cert.Minicbor.Reference

namespace C509

open Cbor Codec Delta

/-! ### What a chain of integers means -/

theorem u64TryFrom_eq_some {v : Int} {n : UInt64} : u64TryFrom v = some n ↔ v = n.toNat := by
  have hn := n.toNat_lt
  unfold u64TryFrom
  constructor
  · intro h
    split at h
    · rename_i hv
      cases h
      rw [UInt64.toNat_ofNat_of_lt' (show v.toNat < 2 ^ 64 by omega)]
      omega
    · cases h
  · rintro rfl
    rw [if_pos ⟨by omega, by omega⟩, Int.toNat_natCast, UInt64.ofNat_toNat]

namespace AsIdOrRange

def isRange : AsIdOrRange → Bool
  | id _ => false
  | range _ _ => true

/-- The id, or both bounds, in the order they are written in. -/
def numbers : AsIdOrRange → List Int
  | id n => [(n.toNat : Int)]
  | range min max => [(min.toNat : Int), (max.toNat : Int)]

/-- What the decoder makes of one entry after the chain `c`, and the chain it leaves. -/
def ofEntry (c : Chain) : Entry Int → Option (AsIdOrRange × Chain)
  | .single raw =>
      (u64TryFrom (c.nextAbsolute raw)).bind fun n =>
        some (id n, Chain.after (c.nextAbsolute raw))
  | .range minRaw maxRaw =>
      let minAbs := c.nextAbsolute minRaw
      let maxAbs := (Chain.after minAbs).nextAbsolute maxRaw
      (u64TryFrom minAbs).bind fun min => (u64TryFrom maxAbs).bind fun max =>
        some (range min max, Chain.after maxAbs)

/-- **One entry is its running sums**, and moves the chain on by all of them. -/
theorem ofEntry_eq_some {c c' : Chain} {e : Entry Int} {x : AsIdOrRange} :
    ofEntry c e = some (x, c') ↔
      c' = Chain.after (c.base + e.flatten.sum) ∧ x.isRange = e.isRange ∧
        x.numbers = sums c.base e.flatten := by
  cases e with
  | single raw =>
      simp only [ofEntry, Option.bind_eq_some_iff, u64TryFrom_eq_some, Chain.nextAbsolute_eq,
        Option.some.injEq, Prod.mk.injEq, Entry.flatten, Entry.isRange, sums, List.sum_cons,
        List.sum_nil, add_zero]
      constructor
      · rintro ⟨n, hn, rfl, rfl⟩
        exact ⟨rfl, rfl, by rw [numbers, hn]⟩
      · rintro ⟨rfl, hshape, hnumbers⟩
        cases x with
        | id n =>
            rw [numbers, List.cons.injEq] at hnumbers
            exact ⟨n, hnumbers.1.symm, rfl, rfl⟩
        | range min max => cases hshape
  | range minRaw maxRaw =>
      simp only [ofEntry, Option.bind_eq_some_iff, u64TryFrom_eq_some, Chain.nextAbsolute_eq,
        Chain.base_after, Option.some.injEq, Prod.mk.injEq, Entry.flatten, Entry.isRange, sums,
        List.sum_cons, List.sum_nil, add_zero, add_assoc]
      constructor
      · rintro ⟨min, hmin, max, hmax, rfl, rfl⟩
        exact ⟨rfl, rfl, by rw [numbers, hmin, hmax]⟩
      · rintro ⟨rfl, hshape, hnumbers⟩
        cases x with
        | id n => cases hshape
        | range min max =>
            rw [numbers, List.cons.injEq, List.cons.injEq] at hnumbers
            exact ⟨min, hnumbers.1.symm, max, hnumbers.2.1.symm, rfl, rfl⟩

theorem numbers_length {x : AsIdOrRange} {e : Entry Int} (h : x.isRange = e.isRange) :
    x.numbers.length = e.flatten.length := by
  cases x <;> cases e <;> first | rfl | cases h

theorem numbers_bounds {x : AsIdOrRange} {v : Int} (h : v ∈ x.numbers) : 0 ≤ v ∧ v < 2 ^ 64 := by
  have hlt : ∀ n : UInt64, 0 ≤ (n.toNat : Int) ∧ (n.toNat : Int) < 2 ^ 64 := fun n => by
    have hn := n.toNat_lt
    omega
  cases x with
  | id n =>
      obtain rfl := List.mem_singleton.mp h
      exact hlt n
  | range min max =>
      rcases List.mem_pair.mp h with rfl | rfl
      · exact hlt min
      · exact hlt max

/-- **A list of entries is its running sums.** -/
theorem accum_ofEntry {c : Chain} {es : List (Entry Int)} {l : List AsIdOrRange} :
    accum ofEntry c es = some l ↔
      l.map isRange = es.map Entry.isRange ∧
        l.flatMap numbers = sums c.base (es.flatMap Entry.flatten) := by
  induction es generalizing c l with
  | nil =>
      simp only [accum, Option.some.injEq, List.map_nil, List.map_eq_nil_iff]
      constructor
      · rintro rfl
        exact ⟨rfl, rfl⟩
      · rintro ⟨rfl, -⟩
        rfl
  | cons e es ih =>
      simp only [accum, Option.bind_eq_some_iff, Option.map_eq_some_iff]
      rw [List.flatMap_cons, sums_append]
      constructor
      · rintro ⟨⟨x, c'⟩, hx, l', hl', rfl⟩
        obtain ⟨rfl, hshape, hnumbers⟩ := ofEntry_eq_some.mp hx
        obtain ⟨hshapes, hrest⟩ := ih.mp hl'
        rw [List.map_cons, List.map_cons, List.flatMap_cons, hshape, hshapes, hnumbers, hrest,
          Chain.base_after]
        exact ⟨rfl, rfl⟩
      · rintro ⟨hshapes, hnumbers⟩
        cases l with
        | nil => cases hshapes
        | cons x l =>
            rw [List.map_cons, List.map_cons, List.cons.injEq] at hshapes
            obtain ⟨hshape, hshapes⟩ := hshapes
            rw [List.flatMap_cons] at hnumbers
            obtain ⟨hfirst, hrest⟩ := List.append_inj hnumbers
              (by rw [numbers_length hshape, sums_length])
            exact ⟨(x, _), ofEntry_eq_some.mpr ⟨rfl, hshape, hfirst⟩, l,
              ih.mpr ⟨hshapes, hrest⟩, rfl⟩

/-- What is written are the differences of what is read. -/
theorem flatten_eq_differences {c : Chain} {es : List (Entry Int)} {l : List AsIdOrRange}
    (h : accum ofEntry c es = some l) :
    es.flatMap Entry.flatten = differences c.base (l.flatMap numbers) := by
  rw [(accum_ofEntry.mp h).2, differences_sums]

/-- **Entries that mean the same list are the same.** -/
theorem accum_ofEntry_injective {c : Chain} {es es' : List (Entry Int)} {l : List AsIdOrRange}
    (h : accum ofEntry c es = some l) (h' : accum ofEntry c es' = some l) : es = es' := by
  have hshape : es.map Entry.isRange = es'.map Entry.isRange :=
    (accum_ofEntry.mp h).1.symm.trans (accum_ofEntry.mp h').1
  have hflat : es.flatMap Entry.flatten = es'.flatMap Entry.flatten :=
    (flatten_eq_differences h).trans (flatten_eq_differences h').symm
  exact Entry.eq_of_flatten hshape hflat

/-- Numbers in range are those of a list of any shape that has as many. -/
theorem exists_numbers {es : List (Entry Int)} :
    ∀ vs : List Int, vs.length = (es.flatMap Entry.flatten).length →
      (∀ v ∈ vs, 0 ≤ v ∧ v < 2 ^ 64) →
        ∃ l : List AsIdOrRange, l.map isRange = es.map Entry.isRange ∧ l.flatMap numbers = vs := by
  have hnum : ∀ {v : Int}, 0 ≤ v ∧ v < 2 ^ 64 → ((UInt64.ofNat v.toNat).toNat : Int) = v := by
    intro v hv
    rw [UInt64.toNat_ofNat_of_lt' (show v.toNat < 2 ^ 64 by omega)]
    omega
  induction es with
  | nil =>
      intro vs hlen _
      obtain rfl : vs = [] := List.length_eq_zero_iff.mp hlen
      exact ⟨[], rfl, rfl⟩
  | cons e es ih =>
      intro vs hlen hvs
      rw [List.flatMap_cons, List.length_append] at hlen
      cases e with
      | single a =>
          obtain ⟨v, vs, rfl⟩ := List.exists_cons_of_length_pos
            (show 0 < vs.length by rw [hlen, Entry.flatten, List.length_singleton]; omega)
          obtain ⟨l, hshape, hl⟩ := ih vs
            (by rw [Entry.flatten, List.length_singleton, List.length_cons] at hlen; omega)
            (fun w hw => hvs w (by simp [hw]))
          refine ⟨id (UInt64.ofNat v.toNat) :: l, by rw [List.map_cons, hshape]; rfl, ?_⟩
          rw [List.flatMap_cons, hl, numbers, hnum (hvs v (by simp))]
          rfl
      | range a b =>
          rw [Entry.flatten, show [a, b].length = 2 from rfl] at hlen
          match vs, hlen, hvs with
          | [], hlen, _ => rw [List.length_nil] at hlen; omega
          | [v], hlen, _ => rw [List.length_singleton] at hlen; omega
          | v :: w :: vs, hlen, hvs =>
              obtain ⟨l, hshape, hl⟩ := ih vs
                (by rw [List.length_cons, List.length_cons] at hlen; omega)
                (fun u hu => hvs u (by simp [hu]))
              refine ⟨range (UInt64.ofNat v.toNat) (UInt64.ofNat w.toNat) :: l,
                by rw [List.map_cons, hshape]; rfl, ?_⟩
              rw [List.flatMap_cons, hl, numbers, hnum (hvs v (by simp)), hnum (hvs w (by simp))]
              rfl

/-- **A list has a meaning exactly where its running sums are in range.** -/
theorem exists_accum_ofEntry (c : Chain) (es : List (Entry Int)) :
    (∃ l, accum ofEntry c es = some l) ↔
      ∀ v ∈ sums c.base (es.flatMap Entry.flatten), 0 ≤ v ∧ v < 2 ^ 64 := by
  simp only [accum_ofEntry]
  constructor
  · rintro ⟨l, -, hl⟩ v hv
    rw [← hl, List.mem_flatMap] at hv
    obtain ⟨x, -, hx⟩ := hv
    exact numbers_bounds hx
  · intro h
    exact exists_numbers _ (sums_length _ _) h

end AsIdOrRange

/-! ### The bytes of a list -/

/-- A definite-length array of integers and of two-integer arrays. -/
abbrev AsWire : List (Entry Int) → Bytes → Prop := Entry.ArrayWire IntHead

/-- The entry with the shortest head for each of its parts. -/
def Entry.shortBytes : Entry Int → Bytes
  | single v => shortInt v
  | range v w => shortHead 4 2 ++ (shortInt v ++ shortInt w)

/-- The array with the shortest heads. -/
def asShortBytes (es : List (Entry Int)) : Bytes :=
  shortHead 4 es.length ++ es.flatMap Entry.shortBytes

/-- An item that stands for AS identifiers, in shortest-form heads. -/
def ShortAsItem (c : Bytes) : Prop :=
  c = [nullByte] ∨ ∃ es, AsWire es c ∧ c = asShortBytes es

section

variable [Minicbor] [LawfulMinicbor]

/-! ### What the decoder accepts -/

theorem denotes_asEntry (c : Chain) :
    Denotes (decodeAsEntry c) fun b x =>
      ∃ e : Entry Int, e.Wire IntHead b ∧ AsIdOrRange.ofEntry c e = some x := by
  refine denotes_singleOrRange notArray_intHead ?_ ?_
  · exact denotes_int.compute fun raw =>
      Computes.bind (Computes.get _ _) fun n => Computes.pure _
  · exact denotes_two denotes_int fun minRaw maxRaw =>
      Computes.bind (Computes.get _ _) fun min => Computes.bind (Computes.get _ _) fun max =>
        Computes.pure _

theorem denotes_asEntries :
    Denotes decodeAsEntries fun c v =>
      ∃ es l, AsWire es c ∧ accum AsIdOrRange.ofEntry Chain.start es = some l ∧ v = some l := by
  refine (denotes_definiteArrayLen.bind fun n =>
    Denotes.step (computes_withBoundedCapacity _ _) fun _ =>
      (Denotes.iterate denotes_asEntry n.toNat Chain.start).compute fun l =>
        Computes.pure (some l)).congr fun c v => ?_
  constructor
  · rintro ⟨n, h, d, rfl, hh, _, -, l, ⟨es, hlen, hes, hl⟩, hv⟩
    rw [← hlen] at hh
    exact ⟨es, l, ⟨h, d, hh, hes, rfl⟩, hl, (Option.some.inj hv).symm⟩
  · rintro ⟨es, l, ⟨h, d, hh, hes, rfl⟩, hl, rfl⟩
    have hn : (UInt64.ofNat es.length).toNat = es.length := UInt64.toNat_ofNat_of_lt' hh.lt
    exact ⟨UInt64.ofNat es.length, h, d, rfl, by rwa [hn], (), rfl, l, ⟨es, hn.symm, hes, hl⟩, rfl⟩

/-- **What is accepted**: null, or an array whose entries have a meaning. -/
theorem denotes_asIdentifiers :
    Denotes decodeAsIdentifiers fun c v =>
      c = [nullByte] ∧ v = none ∨
        ∃ es l, AsWire es c ∧ accum AsIdOrRange.ofEntry Chain.start es = some l ∧ v = some l := by
  refine denotes_nullOr denotes_asEntries ?_
  rintro c v ⟨es, l, hes, -, -⟩
  exact ⟨hes.item notArray_intHead, .array, hes.typeOf, by decide⟩

/-- An array is read as what its entries mean, or refused. -/
theorem decodeAsIdentifiers_run_ok {es : List (Entry Int)} {c r r' : Bytes}
    {v : Option (List AsIdOrRange)} (h : AsWire es c) :
    decodeAsIdentifiers.run (c ++ r) = .ok (v, r') ↔
      r' = r ∧ ∃ l, accum AsIdOrRange.ofEntry Chain.start es = some l ∧ v = some l := by
  rw [denotes_asIdentifiers]
  constructor
  · rintro ⟨c', heq, ⟨rfl, -⟩ | ⟨es', l, h', hl, hv⟩⟩
    · exact (h.ne_null heq).elim
    · obtain ⟨rfl, -, rfl⟩ :=
        Entry.arrayWire_unambiguous unambiguous_intHead notArray_intHead h h' heq
      exact ⟨rfl, l, hl, hv⟩
  · rintro ⟨rfl, l, hl, hv⟩
    exact ⟨c, rfl, Or.inr ⟨es, l, h, hl, hv⟩⟩

/-! ### What is written again -/

theorem AsIdOrRange.encode_ofEntry {c c' : Chain} {e : Entry Int} {x : AsIdOrRange}
    (hc : c.InRange) (h : ofEntry c e = some (x, c')) :
    c'.InRange ∧ (encodeAsEntry c x).run = .ok (c', e.shortBytes) := by
  have hdelta : ∀ {c : Chain} {raw : Int} {n : UInt64}, c.InRange →
      u64TryFrom (c.nextAbsolute raw) = some n →
        (encodeDelta (c.nextDelta n.toNat)).run = .ok ((), shortInt raw) := by
    intro c raw n hc hn
    have hlt := n.toNat_lt
    obtain ⟨hlo, hhi⟩ := Chain.nextDelta_bounds hc (show 0 ≤ (n.toNat : Int) by omega) (by omega)
    rw [u64TryFrom_eq_some, Chain.nextAbsolute_eq] at hn
    have hraw : c.nextDelta n.toNat = raw := by
      rw [Chain.nextDelta_eq]
      omega
    rw [encodeDelta, if_pos ⟨hlo, hhi⟩, hraw, Encoder.int, Printer.run_put,
      LawfulMinicbor.writeInt_eq (hraw ▸ hlo) (hraw ▸ hhi)]
  have hrange : ∀ {abs : Int} {n : UInt64}, u64TryFrom abs = some n →
      (Chain.after abs).InRange := by
    intro abs n hn
    have hlt := n.toNat_lt
    rw [u64TryFrom_eq_some] at hn
    exact Chain.inRange_after (by omega) (by omega)
  cases e with
  | single raw =>
      obtain ⟨n, hn, hx⟩ := Option.bind_eq_some_iff.mp h
      cases hx
      refine ⟨hrange hn, ?_⟩
      have hput := hdelta hc hn
      rw [u64TryFrom_eq_some] at hn
      rw [hn]
      have hlast : (do
          encodeDelta (c.nextDelta n.toNat)
          return Chain.after n.toNat).run = .ok (Chain.after n.toNat, shortInt raw ++ []) :=
        Printer.run_bind_of_ok hput (Printer.run_pure _)
      rwa [List.append_nil] at hlast
  | range minRaw maxRaw =>
      obtain ⟨min, hmin, h⟩ := Option.bind_eq_some_iff.mp h
      obtain ⟨max, hmax, hx⟩ := Option.bind_eq_some_iff.mp h
      cases hx
      refine ⟨hrange hmax, ?_⟩
      have hput := hdelta hc hmin
      have hput' := hdelta (hrange hmin) hmax
      rw [u64TryFrom_eq_some] at hmin hmax
      rw [hmax]
      rw [hmin] at hput'
      have harray : (Encoder.array 2).run = .ok ((), shortHead 4 2) := by
        rw [Encoder.array, Printer.run_put, LawfulMinicbor.writeArray_eq]
        rfl
      have hlast : (do
          encodeDelta ((Chain.after min.toNat).nextDelta max.toNat)
          return Chain.after max.toNat).run = .ok (Chain.after max.toNat, shortInt maxRaw ++ []) :=
        Printer.run_bind_of_ok hput' (Printer.run_pure _)
      rw [List.append_nil] at hlast
      exact Printer.run_bind_of_ok harray (Printer.run_bind_of_ok hput hlast)

theorem encode_accum {c : Chain} {es : List (Entry Int)} {l : List AsIdOrRange} (hc : c.InRange)
    (h : accum AsIdOrRange.ofEntry c es = some l) :
    (Printer.iterate encodeAsEntry l c).run = .ok ((), es.flatMap Entry.shortBytes) := by
  induction es generalizing c l with
  | nil =>
      cases h
      rfl
  | cons e es ih =>
      obtain ⟨⟨x, c'⟩, hx, h⟩ := Option.bind_eq_some_iff.mp h
      obtain ⟨l', hl', rfl⟩ := Option.map_eq_some_iff.mp h
      obtain ⟨hc', hput⟩ := AsIdOrRange.encode_ofEntry hc hx
      rw [Printer.iterate, List.flatMap_cons]
      exact Printer.run_bind_of_ok hput (ih hc' hl')

/-- **What is read of an array is written as the array with the shortest heads.** -/
theorem encodeAsIdentifiers_of_accum {es : List (Entry Int)} {l : List AsIdOrRange}
    (hlen : es.length < 2 ^ 64) (h : accum AsIdOrRange.ofEntry Chain.start es = some l) :
    (encodeAsIdentifiers (some l)).run = .ok ((), asShortBytes es) := by
  have hn : (UInt64.ofNat es.length).toNat = es.length := UInt64.toNat_ofNat_of_lt' hlen
  have harray : (Encoder.array (UInt64.ofNat l.length)).run = .ok ((), shortHead 4 es.length) := by
    rw [Encoder.array, Printer.run_put, LawfulMinicbor.writeArray_eq, accum_length h, hn]
  exact Printer.run_bind_of_ok harray (encode_accum Chain.inRange_start h)

/--
**The codec of AS identifiers is exact.**  Every value is read back as it was written.  An
array of integers and of pairs is accepted exactly where all its running sums are 64-bit
numbers, and is then read as those sums, singles as ids and pairs as ranges; nothing else
but null is accepted.  An accepted item in shortest-form heads is what its value is written
as.
-/
theorem asIdentifiers_exact :
    (∀ ids, AsIdsValid ids → Writes (encodeAsIdentifiers ids) decodeAsIdentifiers ids) ∧
    (∀ es c r, AsWire es c →
      ((∃ v r', decodeAsIdentifiers.run (c ++ r) = .ok (v, r')) ↔
        ∀ x ∈ sums 0 (es.flatMap Entry.flatten), 0 ≤ x ∧ x ≤ 2 ^ 64 - 1) ∧
      ∀ v r', decodeAsIdentifiers.run (c ++ r) = .ok (v, r') → r' = r ∧ ∃ l, v = some l ∧
        l.map AsIdOrRange.isRange = es.map Entry.isRange ∧
          l.flatMap AsIdOrRange.numbers = sums 0 (es.flatMap Entry.flatten)) ∧
    (∀ b v r, decodeAsIdentifiers.run b = .ok (v, r) →
      ∃ c, b = c ++ r ∧ (c = [nullByte] ∨ ∃ es, AsWire es c)) ∧
    ∀ item v r, decodeAsIdentifiers.run (item ++ r) = .ok (v, r) → ShortAsItem item →
      (encodeAsIdentifiers v).run = .ok ((), item) := by
  refine ⟨fun ids => writes_asIdentifiers, fun es c r h => ⟨?_, ?_⟩, ?_, ?_⟩
  · have hsums := AsIdOrRange.exists_accum_ofEntry Chain.start es
    simp only [Int.le_sub_one_iff]
    rw [Chain.base_start] at hsums
    rw [← hsums]
    constructor
    · rintro ⟨v, r', hrun⟩
      obtain ⟨-, l, hl, -⟩ := (decodeAsIdentifiers_run_ok h).mp hrun
      exact ⟨l, hl⟩
    · rintro ⟨l, hl⟩
      exact ⟨some l, r, (decodeAsIdentifiers_run_ok h).mpr ⟨rfl, l, hl, rfl⟩⟩
  · intro v r' hrun
    obtain ⟨hr, l, hl, hv⟩ := (decodeAsIdentifiers_run_ok h).mp hrun
    obtain ⟨hshape, hnumbers⟩ := AsIdOrRange.accum_ofEntry.mp hl
    exact ⟨hr, l, hv, hshape, hnumbers⟩
  · intro b v r hrun
    obtain ⟨c, hb, ⟨hc, -⟩ | ⟨es, l, h, -, -⟩⟩ := (denotes_asIdentifiers b v r).mp hrun
    · exact ⟨c, hb, Or.inl hc⟩
    · exact ⟨c, hb, Or.inr ⟨es, h⟩⟩
  · rintro item v r hrun (rfl | ⟨es, h, rfl⟩)
    · obtain ⟨c, heq, ⟨rfl, rfl⟩ | ⟨es, l, h, -, -⟩⟩ := (denotes_asIdentifiers _ v r).mp hrun
      · rw [encodeAsIdentifiers, Encoder.null, Printer.run_put, LawfulMinicbor.writeNull_eq]
      · exact (h.ne_null heq.symm).elim
    · obtain ⟨-, l, hl, rfl⟩ := (decodeAsIdentifiers_run_ok h).mp hrun
      obtain ⟨hd, d, hh, -, -⟩ := h
      exact encodeAsIdentifiers_of_accum hh.lt hl

end

section

open scoped Reference

/-- Ids in no order, and a range whose bounds are exchanged. -/
theorem asIdentifiers_exact_sample :
    Writes (encodeAsIdentifiers (some [.id 7, .range 9 2])) decodeAsIdentifiers
        (some [.id 7, .range 9 2]) ∧
      (∃ v r', decodeAsIdentifiers.run [0x82, 0x07, 0x82, 0x02, 0x26] = .ok (v, r')) ∧
      (∀ v r', decodeAsIdentifiers.run [0x82, 0x07, 0x82, 0x02, 0x26] = .ok (v, r') →
        r' = [] ∧ ∃ l, v = some l ∧ l.map AsIdOrRange.isRange = [false, true] ∧
          l.flatMap AsIdOrRange.numbers = [7, 9, 2]) ∧
      (encodeAsIdentifiers (some [.id 7, .range 9 2])).run =
        .ok ((), [0x82, 0x07, 0x82, 0x02, 0x26]) := by
  have hwire : AsWire [.single 7, .range 2 (-7)] [0x82, 0x07, 0x82, 0x02, 0x26] := by
    refine ⟨[0x82], [0x07, 0x82, 0x02, 0x26], Head.short (by decide), ?_, rfl⟩
    have hfirst : (Entry.single (7 : Int)).Wire IntHead [0x07] :=
      Or.inl ⟨by decide, Head.short (by decide)⟩
    have hsecond : (Entry.range (2 : Int) (-7)).Wire IntHead [0x82, 0x02, 0x26] :=
      ⟨[0x82], [0x02], [0x26], Head.short (by decide), Or.inl ⟨by decide, Head.short (by decide)⟩,
        Or.inr ⟨by decide, Head.short (by decide)⟩, rfl⟩
    exact Each.cons hfirst (Each.cons hsecond Each.nil)
  have hexact := asIdentifiers_exact
  have hread := hexact.2.1 _ _ [] hwire
  refine ⟨hexact.1 _ ?_, hread.1.mpr ?_, hread.2, ?_⟩
  · rintro l ⟨⟩
    decide
  · decide
  · exact hexact.2.2.2 _ _ [] rfl (Or.inr ⟨_, hwire, rfl⟩)

end

end C509
