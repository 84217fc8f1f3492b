/-
The two forms of the entries of a family, compared (`decode_ip_address_choice`).

A list of framed addresses can be written as byte strings or as differences of integers.
The differences resolve to the integers they were taken of and those unframe to the same
bytes, so both forms build an entry from the same bytes and the same number of unused bits.
Only the bounds of ranges are treated apart: in byte strings they must have no unused bits,
while in integers the number is dropped.
-/
import C509Cert.Extensions.AddressWire
import C509Cert.Minicbor.Reference

namespace C509

open Cbor Codec

/-! ### Framed addresses -/

/-- The bytes of an address and the number of unused bits in the last of them. -/
structure Framed where
  unusedBits : UInt8
  value : Bytes

namespace Framed

/-- The int form can hold it. -/
def Short (f : Framed) : Prop := f.value.length ≤ 7 ∧ f.unusedBits.toNat ≤ 254

/-- `unusedBits || value` -/
def bytes (f : Framed) : Bytes := f.unusedBits :: f.value

/-- The big-endian integer `(unusedBits + 1) || value`. -/
def absolute (f : Framed) : Int := ofBe ((f.unusedBits + 1) :: f.value)

/-- The bytes are no more than the family has. -/
def Within (afi : UInt16) (f : Framed) : Prop :=
  ∃ width, addressWidth afi = .ok width ∧ f.value.length ≤ width

theorem framedFromAbsoluteInt_absolute {f : Framed} (h : f.Short) :
    framedFromAbsoluteInt f.absolute = .ok (f.value, f.unusedBits) := by
  obtain ⟨abs, habs, -, -, hback⟩ := absoluteIntFromFramed_ok h.1 h.2
  unfold absoluteIntFromFramed MAX_INT_FORM_BYTES at habs
  obtain ⟨hlen, hunused⟩ := h
  rw [if_neg (by omega), if_pos (by omega)] at habs
  cases habs
  exact hback

end Framed

namespace Entry

/-- The entry has an address or addresses in the family. -/
def Fits (afi : UInt16) : Entry Framed → Prop
  | single f => f.Within afi ∧ f.unusedBits.toNat ≤ 8 * f.value.length
  | range min max => min.Within afi ∧ max.Within afi

/-- The bounds of a range have no unused bits. -/
def WholeBounds : Entry Framed → Prop
  | single _ => True
  | range min max => min.unusedBits = 0 ∧ max.unusedBits = 0

/-- What is built of an entry where the unused bits of bounds are dropped. -/
def built (afi : UInt16) : Entry Framed → Option IpAddressOrRange
  | single f =>
      (buildPrefix afi f.value f.unusedBits).toOption.bind fun net => some (.addressPrefix net)
  | range min max =>
      (buildAddr afi min.value 0x00).toOption.bind fun min =>
        (buildAddr afi max.value 0xFF).toOption.bind fun max => some (.range min max)

/-! ### Entries in the two forms -/

theorem intValue_absolute {afi : UInt16} {e : Entry Framed} (h : ∀ f ∈ e.flatten, f.Short) :
    intValue afi (e.map Framed.absolute) = e.built afi := by
  cases e with
  | single f =>
      have hf := Framed.framedFromAbsoluteInt_absolute (h f (by simp [flatten]))
      rw [map, intValue, hf]
      rfl
  | range min max =>
      have hmin := Framed.framedFromAbsoluteInt_absolute (h min (by simp [flatten]))
      have hmax := Framed.framedFromAbsoluteInt_absolute (h max (by simp [flatten]))
      rw [map, intValue, hmin, hmax]
      rfl

theorem boundValue_bytes (afi : UInt16) (fill : UInt8) (f : Framed) :
    boundValue afi fill f.bytes =
      if f.unusedBits = 0 then (buildAddr afi f.value fill).toOption else none := by
  show (if f.unusedBits = 0 then some () else none).bind _ = _
  split <;> rfl

theorem bytesValue_bytes {afi : UInt16} {e : Entry Framed} (h : e.WholeBounds) :
    bytesValue afi (e.map Framed.bytes) = e.built afi := by
  cases e with
  | single f => rfl
  | range min max =>
      rw [map, bytesValue, boundValue_bytes, boundValue_bytes, if_pos h.1, if_pos h.2, built]

/-- Unused bits in a bound are refused in byte strings. -/
theorem bytesValue_eq_none {afi : UInt16} {e : Entry Framed} (h : ¬ e.WholeBounds) :
    bytesValue afi (e.map Framed.bytes) = none := by
  cases e with
  | single f => exact absurd trivial h
  | range min max =>
      rw [map, bytesValue, boundValue_bytes, boundValue_bytes]
      by_cases hmin : min.unusedBits = 0
      · rw [if_neg (show max.unusedBits ≠ 0 from fun hmax => h ⟨hmin, hmax⟩)]
        cases (if min.unusedBits = 0 then (buildAddr afi min.value 0x00).toOption else none) <;> rfl
      · rw [if_neg hmin]
        rfl

end Entry

/-! ### What can be built -/

theorem exists_buildAddr {afi : UInt16} {f : Framed} (fill : UInt8) :
    (∃ addr, buildAddr afi f.value fill = .ok addr) ↔ f.Within afi := by
  simp only [buildAddr_ok_iff, Framed.Within]
  constructor
  · rintro ⟨addr, width, hwidth, hle, -⟩
    exact ⟨width, hwidth, hle⟩
  · rintro ⟨width, hwidth, hle⟩
    refine ⟨⟨f.value ++ List.replicate (width - f.value.length) fill, ?_⟩, width, hwidth, hle, rfl⟩
    have hsize := addressWidth_size hwidth
    rw [List.length_append, List.length_replicate]
    omega

theorem exists_buildPrefix {afi : UInt16} {f : Framed} :
    (∃ net, buildPrefix afi f.value f.unusedBits = .ok net) ↔
      f.Within afi ∧ f.unusedBits.toNat ≤ 8 * f.value.length := by
  simp only [buildPrefix_ok_iff]
  constructor
  · rintro ⟨net, haddr, hunused, -⟩
    exact ⟨(exists_buildAddr 0x00).mp ⟨_, haddr⟩, hunused⟩
  · rintro ⟨hwithin, hunused⟩
    obtain ⟨addr, haddr⟩ := (exists_buildAddr 0x00).mpr hwithin
    obtain ⟨hle, hsize⟩ := buildAddr_length haddr
    have hp : (UInt8.ofNat (8 * f.value.length - f.unusedBits.toNat)).toNat =
        8 * f.value.length - f.unusedBits.toNat :=
      UInt8.toNat_ofNat_of_lt' (show _ < 2 ^ 8 by omega)
    have hfit : (UInt8.ofNat (8 * f.value.length - f.unusedBits.toNat)).toNat ≤
        8 * addr.octets.length := by omega
    exact ⟨⟨addr, _, hfit⟩, haddr, hunused, hp⟩

theorem Entry.built_isSome {afi : UInt16} {e : Entry Framed} :
    (e.built afi).isSome = true ↔ e.Fits afi := by
  rw [Option.isSome_iff_exists]
  cases e with
  | single f =>
      simp only [built, Fits, Option.bind_eq_some_iff, toOption_eq_some, ← exists_buildPrefix]
      constructor
      · rintro ⟨x, net, hnet, -⟩
        exact ⟨net, hnet⟩
      · rintro ⟨net, hnet⟩
        exact ⟨_, net, hnet, rfl⟩
  | range min max =>
      simp only [built, Fits, Option.bind_eq_some_iff, toOption_eq_some]
      rw [← exists_buildAddr 0x00, ← exists_buildAddr (f := max) 0xFF]
      constructor
      · rintro ⟨x, addr, haddr, addr', haddr', -⟩
        exact ⟨⟨addr, haddr⟩, addr', haddr'⟩
      · rintro ⟨⟨addr, haddr⟩, addr', haddr'⟩
        exact ⟨_, addr, haddr, addr', haddr', rfl⟩

/-! ### Lists of entries in the two forms -/

/-- A number's distance from the one before, and the number for the next. -/
def delta (prev abs : Int) : Int × Int := (abs - prev, abs)

/-- Differences resolve to the numbers they were taken of. -/
theorem resolved_differences (es : List (Entry Int)) :
    resolved (Entry.mapAccumAll delta 0 es) = es := by
  have hentry : ∀ (c : Chain) (e : Entry Int),
      ((e.mapAccum delta c.base).1.mapAccum Chain.resolve c).1 = e ∧
        ((e.mapAccum delta c.base).1.mapAccum Chain.resolve c).2.base =
          (e.mapAccum delta c.base).2 := by
    intro c e
    cases e <;> simp [Entry.mapAccum, Chain.resolve, Chain.nextAbsolute_eq, delta]
  have hlist : ∀ (es : List (Entry Int)) (c : Chain),
      Entry.mapAccumAll Chain.resolve c
        (Entry.mapAccumAll delta c.base es) = es := by
    intro es
    induction es with
    | nil => intro c; rfl
    | cons e es ih =>
        intro c
        obtain ⟨hvalue, hbase⟩ := hentry c e
        rw [Entry.mapAccumAll, Entry.mapAccumAll, hvalue, ← hbase, ih]
  exact hlist es Chain.start

/-- Each address as a byte string. -/
def BytesForm (es : List (Entry Framed)) (c : Bytes) : Prop :=
  Entry.ArrayWire BytesWire (es.map (Entry.map Framed.bytes)) c

/-- Each address as an integer, and of each its distance from the one before. -/
def IntForm (es : List (Entry Framed)) (c : Bytes) : Prop :=
  Entry.ArrayWire IntHead
    (Entry.mapAccumAll delta 0 (es.map (Entry.map Framed.absolute))) c

theorem mapM_congr_left {α β : Type} {f g : α → Option β} {l : List α}
    (h : ∀ x ∈ l, f x = g x) : l.mapM f = l.mapM g := by
  induction l with
  | nil => rfl
  | cons x l ih =>
      rw [List.mapM_cons, List.mapM_cons, h x (by simp), ih fun y hy => h y (by simp [hy])]

theorem mapM_eq_none_iff {α β : Type} {f : α → Option β} {l : List α} :
    l.mapM f = none ↔ ∃ x ∈ l, f x = none := by
  induction l with
  | nil => simp
  | cons x l ih =>
      rw [List.mapM_cons, List.exists_mem_cons_iff, ← ih]
      cases hx : f x with
      | none => simp
      | some y => cases hl : l.mapM f <;> simp

/-- Two loops agree where the one that leaves some values out leaves out none, or where both
fail. -/
theorem mapM_eq_mapM_iff {α β : Type} {f g : α → Option β} {P : α → Prop} {l : List α}
    (hsame : ∀ x, P x → g x = f x) (hnone : ∀ x, ¬ P x → g x = none) :
    l.mapM g = l.mapM f ↔ (∀ x ∈ l, P x) ∨ ∃ x ∈ l, f x = none := by
  by_cases hall : ∀ x ∈ l, P x
  · exact iff_of_true (mapM_congr_left fun x hx => hsame x (hall x hx)) (Or.inl hall)
  · have hg : l.mapM g = none := by
      simp only [not_forall] at hall
      obtain ⟨x, hx, hP⟩ := hall
      exact mapM_eq_none_iff.mpr ⟨x, hx, hnone x hP⟩
    rw [hg, eq_comm, mapM_eq_none_iff]
    simp only [hall, false_or]

section

variable [Minicbor]

/-- Both inputs are refused, or both give the same value and leave what follows them. -/
def SameOutcome (afi : UInt16) (c c' : Bytes) : Prop :=
  ∀ r r', (∃ e e', (decodeIpAddressChoice afi).run (c ++ r) = .error e ∧
      (decodeIpAddressChoice afi).run (c' ++ r') = .error e') ∨
    ∃ v, (decodeIpAddressChoice afi).run (c ++ r) = .ok (v, r) ∧
      (decodeIpAddressChoice afi).run (c' ++ r') = .ok (v, r')

variable [LawfulMinicbor]

theorem sameOutcome_iff {afi : UInt16} {w w' : WireChoice} {c c' : Bytes} (hw : w.Wire c)
    (hw' : w'.Wire c') : SameOutcome afi c c' ↔ w.value afi = w'.value afi := by
  have hrun : ∀ {w : WireChoice} {c : Bytes}, w.Wire c → ∀ r v b,
      (decodeIpAddressChoice afi).run (c ++ r) = .ok (v, b) ↔ b = r ∧ w.value afi = some v :=
    fun hw r v b => (denotes_ipAddressChoice afi).run_ok_iff unambiguous_wireChoice hw
  have herror : ∀ {w : WireChoice} {c : Bytes}, w.Wire c → ∀ r,
      (∃ e, (decodeIpAddressChoice afi).run (c ++ r) = .error e) ↔ w.value afi = none := by
    intro w c hw r
    cases hv : w.value afi with
    | none =>
        cases h : (decodeIpAddressChoice afi).run (c ++ r) with
        | error e => simp
        | ok x =>
            have hx := ((hrun hw r x.1 x.2).mp h).2
            rw [hv] at hx
            cases hx
    | some v => simp [(hrun hw r v r).mpr ⟨rfl, hv⟩]
  constructor
  · intro h
    rcases h [] [] with ⟨e, e', he, he'⟩ | ⟨v, hv, hv'⟩
    · rw [(herror hw []).mp ⟨e, he⟩, (herror hw' []).mp ⟨e', he'⟩]
    · rw [((hrun hw _ _ _).mp hv).2, ((hrun hw' _ _ _).mp hv').2]
  · intro heq r r'
    cases hv : w.value afi with
    | none =>
        obtain ⟨e, he⟩ := (herror hw r).mpr hv
        obtain ⟨e', he'⟩ := (herror hw' r').mpr (heq ▸ hv)
        exact Or.inl ⟨e, e', he, he'⟩
    | some v =>
        exact Or.inr ⟨v, (hrun hw r v r).mpr ⟨rfl, hv⟩, (hrun hw' r' v r').mpr ⟨rfl, heq ▸ hv⟩⟩

/--
**The two forms agree exactly up to the unused bits of range bounds.**  Where every entry
can be built, the byte strings are refused if a bound has unused bits and the integers are
not; where some entry cannot, both are refused.
-/
theorem addressForms_agree_iff {afi : UInt16} {es : List (Entry Framed)} {c c' : Bytes}
    (hne : es ≠ []) (hshort : ∀ e ∈ es, ∀ f ∈ e.flatten, f.Short) (hbytes : BytesForm es c)
    (hints : IntForm es c') :
    SameOutcome afi c c' ↔ (∀ e ∈ es, e.WholeBounds) ∨ ∃ e ∈ es, ¬ e.Fits afi := by
  have hw : (WireChoice.strings (es.map (Entry.map Framed.bytes))).Wire c := hbytes
  have hne' : Entry.mapAccumAll delta 0
      (es.map (Entry.map Framed.absolute)) ≠ [] := by
    cases es with
    | nil => exact absurd rfl hne
    | cons e es => simp [Entry.mapAccumAll]
  have hw' : (WireChoice.ints _).Wire c' := ⟨hne', hints⟩
  -- both forms build the same of an entry, but for the bounds the byte strings refuse
  have hbuilt : (es.map (Entry.map Framed.absolute)).mapM (intValue afi) =
      es.mapM (Entry.built afi) := by
    rw [List.mapM_map]
    exact mapM_congr_left fun e he => Entry.intValue_absolute (hshort e he)
  have hfits : (∃ e ∈ es, e.built afi = none) ↔ ∃ e ∈ es, ¬ e.Fits afi := by
    simp only [← Entry.built_isSome, Option.not_isSome_iff_eq_none]
  rw [sameOutcome_iff hw hw', WireChoice.value, WireChoice.value, resolved_differences, hbuilt,
    List.mapM_map, ← hfits,
    ← mapM_eq_mapM_iff (g := fun e => bytesValue afi (e.map Framed.bytes))
      (fun _ => Entry.bytesValue_bytes) (fun _ => Entry.bytesValue_eq_none)]
  exact (Option.map_injective fun _ _ => IpAddressChoice.prefixes.inj).eq_iff

end

section

open scoped Reference

/-- A range of one bound with an unused bit, and one without. -/
def looseRange : List (Entry Framed) := [.range ⟨1, [10]⟩ ⟨0, [10]⟩]

def looseBytes : Bytes := [0x81, 0x82, 0x42, 0x01, 0x0a, 0x42, 0x00, 0x0a]

def looseInts : Bytes := [0x81, 0x82, 0x19, 0x02, 0x0a, 0x38, 0xff]

theorem looseRange_bytes : BytesForm looseRange looseBytes := by
  have hstring : ∀ x : UInt8, BytesWire [x, 10] [0x42, x, 10] := fun x =>
    ⟨[0x42], Head.short (by simp), rfl⟩
  have hentry : (Entry.range [1, 10] [0, 10]).Wire BytesWire (looseBytes.drop 1) :=
    ⟨[0x82], [0x42, 1, 10], [0x42, 0, 10], Head.short (by decide), hstring 1, hstring 0, rfl⟩
  exact ⟨[0x81], looseBytes.drop 1, Head.short (by decide), Each.cons hentry Each.nil, rfl⟩

theorem looseRange_ints : IntForm looseRange looseInts := by
  have hmin : IntHead 522 [0x19, 0x02, 0x0a] := intHead_shortInt (by decide) (by decide)
  have hmax : IntHead (-256) [0x38, 0xff] := intHead_shortInt (by decide) (by decide)
  have hentry : (Entry.range (522 : Int) (-256)).Wire IntHead (looseInts.drop 1) :=
    ⟨[0x82], [0x19, 0x02, 0x0a], [0x38, 0xff], Head.short (by decide), hmin, hmax, rfl⟩
  have hdeltas : Entry.mapAccumAll delta 0
      (looseRange.map (Entry.map Framed.absolute)) = [.range 522 (-256)] := by decide
  rw [IntForm, hdeltas]
  exact ⟨[0x81], looseInts.drop 1, Head.short (by decide), Each.cons hentry Each.nil, rfl⟩

theorem looseRange_short : ∀ e ∈ looseRange, ∀ f ∈ e.flatten, f.Short := by
  unfold looseRange Framed.Short
  decide

/-- The bytes of such a range are refused, and its integers read as 10.0.0.0 to
10.255.255.255. -/
theorem addressForms_disagree : ∃ es c c', es ≠ [] ∧
    (∀ e ∈ es, ∀ f ∈ e.flatten, Framed.Short f) ∧ BytesForm es c ∧ IntForm es c' ∧
      ¬ SameOutcome 1 c c' := by
  refine ⟨looseRange, looseBytes, looseInts, by decide, looseRange_short, looseRange_bytes,
    looseRange_ints, ?_⟩
  intro h
  obtain ⟨e', he'⟩ : ∃ v, (decodeIpAddressChoice 1).run (looseInts ++ []) = .ok v := ⟨_, rfl⟩
  obtain ⟨e, he⟩ : ∃ e, (decodeIpAddressChoice 1).run (looseBytes ++ []) = .error e := ⟨_, rfl⟩
  rcases h [] [] with ⟨_, _, _, hints⟩ | ⟨_, hbytes, _⟩
  · rw [he'] at hints
    cases hints
  · rw [he] at hbytes
    cases hbytes

theorem addressForms_agree_iff_loose : SameOutcome 1 looseBytes looseInts ↔
    (∀ e ∈ looseRange, e.WholeBounds) ∨ ∃ e ∈ looseRange, ¬ e.Fits 1 :=
  addressForms_agree_iff (by decide) looseRange_short looseRange_bytes looseRange_ints

end

end C509
