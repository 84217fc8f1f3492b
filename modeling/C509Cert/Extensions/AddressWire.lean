/-
Address blocks on the wire, and what they are read as.

A reading of an address block keeps the numbers and byte strings as they stand; its value
is worked out from them afterwards, for the family they stand under.  Every input has at
most one reading, and the decoder accepts exactly those whose value exists.
-/
import C509Cert.Extensions.WireForms

namespace C509

open Cbor Codec

/-! ### Readings -/

/-- The entries of a family, in one of the two forms. -/
inductive WireChoice
  | inherit
  | ints (es : List (Entry Int))
  | strings (es : List (Entry Bytes))

/-- A family as it stands on the wire. -/
structure WireFamily where
  afi : UInt16
  safi : Option UInt16
  choice : WireChoice

namespace WireChoice

/-- The first entry shows the form; where there is none, no entry needs one. -/
def Wire : WireChoice → Bytes → Prop
  | inherit, c => c = [nullByte]
  | ints es, c => es ≠ [] ∧ Entry.ArrayWire IntHead es c
  | strings es, c => Entry.ArrayWire BytesWire es c

end WireChoice

def SafiWire (safi : Option UInt16) (c : Bytes) : Prop :=
  c = [nullByte] ∧ safi = none ∨ ∃ s, safi = some s ∧ Head 0 s.toNat c

def WireFamily.Wire (w : WireFamily) (c : Bytes) : Prop :=
  ∃ h s d, Head 0 w.afi.toNat h ∧ SafiWire w.safi s ∧ w.choice.Wire d ∧ c = h ++ (s ++ d)

/-- Families under an array header that counts three items for each. -/
def FamiliesWire (ws : List WireFamily) (c : Bytes) : Prop :=
  ∃ h d, Head 4 (ws.length * 3) h ∧ Each WireFamily.Wire ws d ∧ c = h ++ d

/-! ### Values -/

/-- One number of a chain and the chain after it. -/
def Chain.resolve (c : Chain) (raw : Int) : Int × Chain :=
  (c.nextAbsolute raw, Chain.after (c.nextAbsolute raw))

/-- The numbers that differences from the start of a chain stand for. -/
def resolved (es : List (Entry Int)) : List (Entry Int) :=
  Entry.mapAccumAll Chain.resolve Chain.start es

/-- What is built of the numbers of an entry. -/
def intValue (afi : UInt16) : Entry Int → Option IpAddressOrRange
  | .single abs =>
      (framedFromAbsoluteInt abs).toOption.bind fun framed =>
        (buildPrefix afi framed.1 framed.2).toOption.bind fun net => some (.addressPrefix net)
  | .range minAbs maxAbs =>
      (framedFromAbsoluteInt minAbs).toOption.bind fun minFramed =>
        (framedFromAbsoluteInt maxAbs).toOption.bind fun maxFramed =>
          (buildAddr afi minFramed.1 0x00).toOption.bind fun min =>
            (buildAddr afi maxFramed.1 0xFF).toOption.bind fun max => some (.range min max)

def boundValue (afi : UInt16) (fill : UInt8) (raw : Bytes) : Option IpAddr :=
  (splitFirst raw).toOption.bind fun framed =>
    (if framed.1 = 0 then some () else none).bind fun _ =>
      (buildAddr afi framed.2 fill).toOption

/-- What is built of the byte strings of an entry. -/
def bytesValue (afi : UInt16) : Entry Bytes → Option IpAddressOrRange
  | .single raw =>
      (splitFirst raw).toOption.bind fun framed =>
        (buildPrefix afi framed.2 framed.1).toOption.bind fun net => some (.addressPrefix net)
  | .range minRaw maxRaw =>
      (boundValue afi 0x00 minRaw).bind fun min => (boundValue afi 0xFF maxRaw).bind fun max =>
        some (.range min max)

def WireChoice.value (afi : UInt16) : WireChoice → Option IpAddressChoice
  | inherit => some .inherit
  | ints es => ((resolved es).mapM (intValue afi)).map .prefixes
  | strings es => (es.mapM (bytesValue afi)).map .prefixes

def WireFamily.value (w : WireFamily) : Option IpAddressFamily :=
  (w.choice.value w.afi).map fun choice => { afi := w.afi, safi := w.safi, choice }

/-- Where the chain only resolves the numbers, they may be resolved first. -/
theorem accum_mapAccum {α β γ S : Type} {f : S → α → β × S} {val : Entry β → Option γ} {s : S}
    {es : List (Entry α)} :
    accum (fun s e => (val (e.mapAccum f s).1).map (·, (e.mapAccum f s).2)) s es =
      (Entry.mapAccumAll f s es).mapM val := by
  induction es generalizing s with
  | nil => rfl
  | cons e es ih =>
      rw [accum, Entry.mapAccumAll, List.mapM_cons, Option.bind_map]
      simp only [Function.comp_def, ih]
      simp only [Option.map_eq_bind, Option.bind_eq_bind, Option.pure_def, Function.comp_def]

/-! ### What the decoder accepts -/

section

variable [Minicbor] [LawfulMinicbor]

theorem denotes_intEntry (afi : UInt16) (c : Chain) :
    Denotes (decodeEntry afi true c) fun b x => ∃ e : Entry Int, e.Wire IntHead b ∧
      (intValue afi (e.mapAccum Chain.resolve c).1).map (·, (e.mapAccum Chain.resolve c).2) =
        some x := by
  rw [decodeEntry, if_pos rfl]
  refine denotes_singleOrRange notArray_intHead ?_ ?_
  · refine denotes_int.compute fun raw => ?_
    simp only [Entry.mapAccum, intValue, Option.map_bind, Function.comp_def, Option.map_some]
    exact Computes.bind (computes_result _) fun framed =>
      Computes.bind (computes_result _) fun net => Computes.pure _
  · refine denotes_two denotes_int fun minRaw maxRaw => ?_
    simp only [Entry.mapAccum, intValue, Option.map_bind, Function.comp_def, Option.map_some]
    exact Computes.bind (computes_result _) fun minFramed =>
      Computes.bind (computes_result _) fun maxFramed =>
        Computes.bind (computes_result _) fun min =>
          Computes.bind (computes_result _) fun max => Computes.pure _

theorem denotes_bound (afi : UInt16) (fill : UInt8) :
    Denotes (decodeBound afi fill) fun c addr =>
      ∃ raw, BytesWire raw c ∧ boundValue afi fill raw = some addr :=
  denotes_bytes.compute fun _ => Computes.bind (computes_result _) fun _ =>
    Computes.bind (Computes.ensure _ _) fun _ => computes_result _

theorem denotes_bytesEntry (afi : UInt16) (c : Chain) :
    Denotes (decodeEntry afi false c) fun b x => ∃ e : Entry Bytes, e.Wire BytesWire b ∧
      (bytesValue afi e).map (·, c) = some x := by
  rw [decodeEntry, if_neg (by decide)]
  refine denotes_singleOrRange notArray_bytesWire ?_ ?_
  · refine denotes_bytes.compute fun raw => ?_
    simp only [bytesValue, Option.map_bind, Function.comp_def, Option.map_some]
    exact Computes.bind (computes_result _) fun framed =>
      Computes.bind (computes_result _) fun net => Computes.pure _
  · refine ((denotes_bound afi 0x00).bind fun min =>
      (denotes_bound afi 0xFF).compute fun max => Computes.pure _).congr fun b x => ?_
    simp only [bytesValue, Option.map_bind, Function.comp_def, Option.map_some,
      Option.bind_eq_some_iff]
    constructor
    · rintro ⟨min, c₁, c₂, rfl, ⟨minRaw, hmin, hminv⟩, max, ⟨maxRaw, hmax, hmaxv⟩, hx⟩
      exact ⟨minRaw, maxRaw, c₁, c₂, rfl, hmin, hmax, min, hminv, max, hmaxv, hx⟩
    · rintro ⟨minRaw, maxRaw, c₁, c₂, rfl, hmin, hmax, min, hminv, max, hmaxv, hx⟩
      exact ⟨min, c₁, c₂, rfl, ⟨minRaw, hmin, hminv⟩, max, ⟨maxRaw, hmax, hmaxv⟩, hx⟩

/-- The probe sees the type of the first element. -/
theorem peekForm_of_wire {α : Type} {W : α → Bytes → Prop} {form : Bool}
    (hW : ∀ {a c}, W a c → ∀ r, ∃ t, typeOf (c ++ r) = some t ∧ t ≠ .array ∧ t ≠ .arrayIndef ∧
      t.isInt = form) {e : Entry α} {c : Bytes} (h : e.Wire W c) (r : Bytes) :
    ∃ t, peekForm.run (c ++ r) = .ok (form, t) := by
  cases e with
  | single a =>
      obtain ⟨t, htype, harray, hindef, hform⟩ := hW h r
      exact ⟨_, peekForm_single htype harray hindef hform⟩
  | range a b =>
      obtain ⟨hd, d, e, hh, ha, -, rfl⟩ := h
      rw [List.append_assoc, List.append_assoc]
      obtain ⟨t, htype, -, -, hform⟩ := hW ha (e ++ r)
      exact ⟨_, peekForm_range hh htype hform⟩

theorem peekForm_int {e : Entry Int} {c : Bytes} (h : e.Wire IntHead c) (r : Bytes) :
    ∃ t, peekForm.run (c ++ r) = .ok (true, t) := by
  refine peekForm_of_wire (fun hc r => ?_) h r
  obtain ⟨t, hint, htype⟩ := typeOf_intHead hc
  refine ⟨t, htype r, ?_, ?_, hint⟩ <;> rintro rfl <;> cases hint

theorem peekForm_bytes {e : Entry Bytes} {c : Bytes} (h : e.Wire BytesWire c) (r : Bytes) :
    ∃ t, peekForm.run (c ++ r) = .ok (false, t) := by
  refine peekForm_of_wire (fun hc r => ?_) h r
  obtain ⟨hd, hh, rfl⟩ := hc
  refine ⟨.bytes, ?_, by decide, by decide, rfl⟩
  rw [List.append_assoc]
  exact typeOf_head (by omega) (by omega) hh _

/-- The entries behind the header, by the form that was seen. -/
def FormWire (afi : UInt16) (n : Nat) (form : Bool) (c : Bytes) (v : IpAddressChoice) : Prop :=
  if form then
    ∃ es, es.length = n ∧ Each (Entry.Wire IntHead) es c ∧ (WireChoice.ints es).value afi = some v
  else
    ∃ es, es.length = n ∧ Each (Entry.Wire BytesWire) es c ∧
      (WireChoice.strings es).value afi = some v

theorem denotes_form (afi : UInt16) (n : Nat) (form : Bool) :
    Denotes (do
      withBoundedCapacity .ipEntries n
      let entries ← Parser.iterate (decodeEntry afi form) n Chain.start
      return IpAddressChoice.prefixes entries) (FormWire afi n form) := by
  have hloop : ∀ {R : Bytes → List IpAddressOrRange → Prop},
      Denotes (Parser.iterate (decodeEntry afi form) n Chain.start) R → Denotes (do
        withBoundedCapacity .ipEntries n
        let entries ← Parser.iterate (decodeEntry afi form) n Chain.start
        return IpAddressChoice.prefixes entries) fun c v => ∃ l, R c l ∧ .prefixes l = v := by
    intro R hR
    refine (Denotes.step (computes_withBoundedCapacity _ _) fun _ =>
      hR.compute fun l => Computes.pure (IpAddressChoice.prefixes l)).congr fun c v => ?_
    simp
  cases form with
  | true =>
      refine (hloop (Denotes.iterate (denotes_intEntry afi) n Chain.start)).congr fun c v => ?_
      simp only [accum_mapAccum, FormWire, WireChoice.value, resolved, Option.map_eq_some_iff,
        if_true]
      constructor
      · rintro ⟨l, ⟨es, hlen, hes, hl⟩, hv⟩
        exact ⟨es, hlen, hes, l, hl, hv⟩
      · rintro ⟨es, hlen, hes, l, hl, hv⟩
        exact ⟨l, ⟨es, hlen, hes, hl⟩, hv⟩
  | false =>
      refine (hloop (Denotes.iterate (denotes_bytesEntry afi) n Chain.start)).congr fun c v => ?_
      simp only [accum_const, FormWire, WireChoice.value, Option.map_eq_some_iff]
      constructor
      · rintro ⟨l, ⟨es, hlen, hes, hl⟩, hv⟩
        exact ⟨es, hlen, hes, l, hl, hv⟩
      · rintro ⟨es, hlen, hes, l, hl, hv⟩
        exact ⟨l, ⟨es, hlen, hes, hl⟩, hv⟩

/-- **What is accepted as entries**: an array in either form whose value exists. -/
theorem denotes_entries (afi : UInt16) :
    Denotes (decodeEntries afi) fun c v =>
      ∃ w : WireChoice, w ≠ .inherit ∧ w.Wire c ∧ w.value afi = some v := by
  -- behind the header, where it counts any entries
  have hbody : ∀ n : UInt64, Denotes (if n = 0 then pure (IpAddressChoice.prefixes []) else do
      let isIntForm ← Parser.probe peekForm
      withBoundedCapacity .ipEntries n.toNat
      let entries ← Parser.iterate (decodeEntry afi isIntForm) n.toNat Chain.start
      return .prefixes entries) fun c v =>
        if n = 0 then c = [] ∧ v = .prefixes [] else ∃ form, FormWire afi n.toNat form c v := by
    intro n
    split
    · intro b v r
      rw [Parser.run_pure, Except.ok.injEq, Prod.mk.injEq]
      constructor
      · rintro ⟨rfl, rfl⟩
        exact ⟨[], rfl, rfl, rfl⟩
      · rintro ⟨_, rfl, rfl, rfl⟩
        exact ⟨rfl, rfl⟩
    · rename_i hn
      have hpos : n.toNat ≠ 0 := fun h => hn (UInt64.toNat_inj.mp h)
      refine Denotes.probe (fun form => denotes_form afi n.toNat form) ?_
      intro form c v h r
      cases form with
      | true =>
          obtain ⟨es, hlen, hes, -⟩ := h
          cases hes with
          | nil => exact absurd hlen.symm hpos
          | cons he _ =>
              rw [List.append_assoc]
              exact peekForm_int he _
      | false =>
          obtain ⟨es, hlen, hes, -⟩ := h
          cases hes with
          | nil => exact absurd hlen.symm hpos
          | cons he _ =>
              rw [List.append_assoc]
              exact peekForm_bytes he _
  refine (denotes_definiteArrayLen.bind hbody).congr fun c v => ?_
  constructor
  · rintro ⟨n, h, d, rfl, hh, hd⟩
    split at hd
    · rename_i hn
      obtain ⟨rfl, rfl⟩ := hd
      subst hn
      exact ⟨.strings [], by simp, ⟨h, [], hh, Each.nil, rfl⟩, rfl⟩
    · rename_i hn
      have hpos : n.toNat ≠ 0 := fun h => hn (UInt64.toNat_inj.mp h)
      obtain ⟨form, hd⟩ := hd
      unfold FormWire at hd
      split at hd
      · obtain ⟨es, hlen, hes, hv⟩ := hd
        rw [← hlen] at hh hpos
        exact ⟨.ints es, by simp, ⟨by rintro rfl; exact hpos rfl, h, d, hh, hes, rfl⟩, hv⟩
      · obtain ⟨es, hlen, hes, hv⟩ := hd
        rw [← hlen] at hh
        exact ⟨.strings es, by simp, ⟨h, d, hh, hes, rfl⟩, hv⟩
  · rintro ⟨w, hw, hwire, hv⟩
    cases w with
    | inherit => exact absurd rfl hw
    | ints es =>
        obtain ⟨hne, h, d, hh, hes, rfl⟩ := hwire
        have hn : (UInt64.ofNat es.length).toNat = es.length := UInt64.toNat_ofNat_of_lt' hh.lt
        refine ⟨UInt64.ofNat es.length, h, d, rfl, by rwa [hn], ?_⟩
        have hne' : UInt64.ofNat es.length ≠ 0 := by
          intro h0
          rw [h0] at hn
          exact hne (List.length_eq_zero_iff.mp hn.symm)
        rw [if_neg hne']
        exact ⟨true, es, hn.symm, hes, hv⟩
    | strings es =>
        obtain ⟨h, d, hh, hes, rfl⟩ := hwire
        have hn : (UInt64.ofNat es.length).toNat = es.length := UInt64.toNat_ofNat_of_lt' hh.lt
        refine ⟨UInt64.ofNat es.length, h, d, rfl, by rwa [hn], ?_⟩
        split
        · rename_i h0
          rw [h0] at hn
          obtain rfl : es = [] := List.length_eq_zero_iff.mp hn.symm
          cases hes
          cases hv
          exact ⟨rfl, rfl⟩
        · exact ⟨false, es, hn.symm, hes, hv⟩

/-- **What is accepted as the entries of a family.** -/
theorem denotes_ipAddressChoice (afi : UInt16) :
    Denotes (decodeIpAddressChoice afi) fun c v =>
      ∃ w : WireChoice, w.Wire c ∧ w.value afi = some v := by
  refine (denotes_nullOr (denotes_entries afi) ?_).congr fun c v => ?_
  · rintro c v ⟨w, hw, hwire, -⟩
    cases w with
    | inherit => exact absurd rfl hw
    | ints es => exact ⟨hwire.2.item notArray_intHead, .array, hwire.2.typeOf, by decide⟩
    | strings es => exact ⟨hwire.item notArray_bytesWire, .array, hwire.typeOf, by decide⟩
  · constructor
    · rintro (⟨rfl, rfl⟩ | ⟨w, -, hwire, hv⟩)
      · exact ⟨.inherit, rfl, rfl⟩
      · exact ⟨w, hwire, hv⟩
    · rintro ⟨w, hwire, hv⟩
      cases w with
      | inherit =>
          cases hv
          exact Or.inl ⟨hwire, rfl⟩
      | ints es => exact Or.inr ⟨_, by simp, hwire, hv⟩
      | strings es => exact Or.inr ⟨_, by simp, hwire, hv⟩

/-! ### Readings can be told apart -/

theorem unambiguous_wireChoice : Unambiguous WireChoice.Wire := by
  -- an array of the one form is not one of the other, as the probe sees its first entry
  have hforms : ∀ {es : List (Entry Int)} {es' : List (Entry Bytes)} {c c' r r' : Bytes},
      es ≠ [] → Entry.ArrayWire IntHead es c → Entry.ArrayWire BytesWire es' c' →
        c ++ r = c' ++ r' → False := by
    rintro es es' _ _ r r' hne ⟨h, d, hh, hes, rfl⟩ ⟨h', d', hh', hes', rfl⟩ heq
    rw [List.append_assoc, List.append_assoc] at heq
    obtain ⟨-, hlen, rfl, hrest⟩ := Head.unique (by omega) (by omega) hh hh' heq
    cases hes with
    | nil => exact hne rfl
    | @cons e es d₁ d₂ he _ =>
        cases hes' with
        | nil => cases hlen
        | @cons e' es' d₁' d₂' he' _ =>
            rw [List.append_assoc, List.append_assoc] at hrest
            obtain ⟨t, hint⟩ := peekForm_int he (d₂ ++ r)
            obtain ⟨t', hbytes⟩ := peekForm_bytes he' (d₂' ++ r')
            rw [hrest, hbytes] at hint
            cases hint
  intro w w' c c' r r' hw hw' heq
  cases w with
  | inherit =>
      obtain rfl := hw
      cases w' with
      | inherit =>
          obtain rfl := hw'
          exact ⟨rfl, rfl, List.append_cancel_left heq⟩
      | ints es => exact (hw'.2.ne_null heq.symm).elim
      | strings es => exact (hw'.ne_null heq.symm).elim
  | ints es =>
      cases w' with
      | inherit =>
          obtain rfl := hw'
          exact (hw.2.ne_null heq).elim
      | ints es' =>
          obtain ⟨rfl, rfl, hr⟩ :=
            Entry.arrayWire_unambiguous unambiguous_intHead notArray_intHead hw.2 hw'.2 heq
          exact ⟨rfl, rfl, hr⟩
      | strings es' => exact (hforms hw.1 hw.2 hw' heq).elim
  | strings es =>
      cases w' with
      | inherit =>
          obtain rfl := hw'
          exact (hw.ne_null heq).elim
      | ints es' => exact (hforms hw'.1 hw'.2 hw heq.symm).elim
      | strings es' =>
          obtain ⟨rfl, rfl, hr⟩ :=
            Entry.arrayWire_unambiguous unambiguous_bytesWire notArray_bytesWire hw hw' heq
          exact ⟨rfl, rfl, hr⟩

/-! ### Families -/

theorem denotes_safi : Denotes decodeSafi fun c safi => SafiWire safi c := by
  have hsome : Denotes (do return some (← Decoder.u16)) fun c safi =>
      ∃ s, safi = some s ∧ Head 0 s.toNat c := by
    refine (denotes_u16.compute fun s => Computes.pure (some s)).congr fun c safi => ?_
    simp only [Option.some.injEq, eq_comm, and_comm]
  refine (denotes_nullOr hsome ?_).congr fun c safi => Iff.rfl
  rintro c safi ⟨s, -, hs⟩
  obtain ⟨t, hint, htype⟩ := typeOf_intHead (v := s.toNat) ((intHead_ofNat _ _).mpr hs)
  refine ⟨((intHead_ofNat _ _).mpr hs).item, t, by simpa using htype [], ?_⟩
  rintro rfl
  cases hint

theorem denotes_family : Denotes decodeFamily fun c fam =>
    ∃ w : WireFamily, w.Wire c ∧ w.value = some fam := by
  refine (denotes_u16.bind fun afi => denotes_safi.bind fun safi =>
    (denotes_ipAddressChoice afi).compute fun choice =>
      Computes.pure ({ afi, safi, choice } : IpAddressFamily)).congr fun c fam => ?_
  simp only [WireFamily.Wire, WireFamily.value, Option.map_eq_some_iff, Option.some.injEq]
  constructor
  · rintro ⟨afi, h, _, rfl, hh, safi, s, d, rfl, hs, choice, ⟨w, hw, hv⟩, hfam⟩
    exact ⟨⟨afi, safi, w⟩, ⟨h, s, d, hh, hs, hw, rfl⟩, choice, hv, hfam⟩
  · rintro ⟨w, ⟨h, s, d, hh, hs, hw, rfl⟩, choice, hv, hfam⟩
    exact ⟨w.afi, h, s ++ d, rfl, hh, w.safi, s, d, rfl, hs, choice, ⟨w.choice, hw, hv⟩, hfam⟩

/-- **What is accepted as address blocks.** -/
theorem denotes_families : Denotes decodeIpAddressFamilies fun c fams =>
    ∃ ws, FamiliesWire ws c ∧ ws.mapM WireFamily.value = some fams := by
  refine (denotes_decodeGroups (by decide) (computes_withBoundedCapacity _)
    denotes_family).congr fun c fams => ?_
  exact Iff.rfl

omit [Minicbor] [LawfulMinicbor] in
theorem SafiWire.unique {s s' : Option UInt16} {c c' r r' : Bytes} (h : SafiWire s c)
    (h' : SafiWire s' c') (heq : c ++ r = c' ++ r') : s = s' ∧ c = c' ∧ r = r' := by
  have hne : ∀ {n : Nat} {c r r' : Bytes}, Head 0 n c → c ++ r ≠ nullByte :: r' := by
    intro n c r r' hc heq
    obtain ⟨t, hint, htype⟩ := typeOf_intHead (v := n) ((intHead_ofNat _ _).mpr hc)
    have hnull := htype r
    rw [heq] at hnull
    cases hnull
    cases hint
  rcases h with ⟨rfl, rfl⟩ | ⟨n, rfl, hn⟩ <;> rcases h' with ⟨rfl, rfl⟩ | ⟨n', rfl, hn'⟩
  · exact ⟨rfl, rfl, List.append_cancel_left heq⟩
  · exact (hne hn' heq.symm).elim
  · exact (hne hn heq).elim
  · obtain ⟨-, hnum, rfl, hr⟩ := Head.unique (by omega) (by omega) hn hn' heq
    exact ⟨congrArg some (UInt16.toNat_inj.mp hnum), rfl, hr⟩

theorem unambiguous_wireFamily : Unambiguous WireFamily.Wire := by
  rintro ⟨afi, safi, w⟩ ⟨afi', safi', w'⟩ _ _ r r' ⟨h, s, d, hh, hs, hd, rfl⟩
    ⟨h', s', d', hh', hs', hd', rfl⟩ heq
  simp only [List.append_assoc] at heq
  obtain ⟨-, hafi, rfl, hsafi⟩ := Head.unique (by omega) (by omega) hh hh' heq
  obtain ⟨rfl, rfl, hchoice⟩ := hs.unique hs' hsafi
  obtain ⟨rfl, rfl, hr⟩ := unambiguous_wireChoice hd hd' hchoice
  obtain rfl := UInt16.toNat_inj.mp hafi
  exact ⟨rfl, rfl, hr⟩

theorem FamiliesWire.unique {ws ws' : List WireFamily} {c c' r r' : Bytes} (h : FamiliesWire ws c)
    (h' : FamiliesWire ws' c') (heq : c ++ r = c' ++ r') : ws = ws' ∧ c = c' ∧ r = r' := by
  obtain ⟨hd, d, hh, hws, rfl⟩ := h
  obtain ⟨hd', d', hh', hws', rfl⟩ := h'
  rw [List.append_assoc, List.append_assoc] at heq
  obtain ⟨-, hlen, rfl, hrest⟩ := Head.unique (by omega) (by omega) hh hh' heq
  obtain ⟨rfl, rfl, hr⟩ := hws.unique unambiguous_wireFamily hws' (by omega) hrest
  exact ⟨rfl, rfl, hr⟩

end

end C509
