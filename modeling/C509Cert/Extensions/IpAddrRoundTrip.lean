/-
Address blocks and AS identifiers read back.

Encoding writes the network of every prefix and so drops the host bits a decoder keeps.
What is read back is therefore the normalised list, and normalising once is enough: the
normalised list is written as the same bytes.
-/
import C509Cert.Extensions.IpAddr

namespace C509

open Cbor Codec

/-! ### Normalised blocks -/

/-- The entry without host bits. -/
def IpAddressOrRange.normalise : IpAddressOrRange → IpAddressOrRange
  | .addressPrefix net => .addressPrefix net.normalise
  | .range min max => .range min max

def IpAddressChoice.normalise : IpAddressChoice → IpAddressChoice
  | .inherit => .inherit
  | .prefixes entries => .prefixes (entries.map IpAddressOrRange.normalise)

def IpAddressFamily.normalise (fam : IpAddressFamily) : IpAddressFamily :=
  { fam with choice := fam.choice.normalise }

/-- No prefix has host bits. -/
def IpAddressFamily.NoHostBits (fam : IpAddressFamily) : Prop :=
  ∀ entries, fam.choice = .prefixes entries → ∀ net, .addressPrefix net ∈ entries → net.NoHostBits

theorem IpAddressOrRange.resolve_normalise (e : IpAddressOrRange) :
    e.normalise.resolve = e.resolve := by
  cases e with
  | addressPrefix net => simp only [normalise, resolve, prefixToFramed_normalise]
  | range min max => rfl

theorem IpAddressFamily.normalise_eq {fam : IpAddressFamily} (h : fam.NoHostBits) :
    fam.normalise = fam := by
  obtain ⟨afi, safi, choice⟩ := fam
  cases choice with
  | inherit => rfl
  | prefixes entries =>
      have hentries : entries.map IpAddressOrRange.normalise = entries := by
        conv_rhs => rw [← List.map_id entries]
        refine List.map_congr_left fun e he => ?_
        cases e with
        | addressPrefix net =>
            show IpAddressOrRange.addressPrefix net.normalise = _
            rw [IpNet.normalise_eq (h entries rfl net he)]
            rfl
        | range min max => rfl
      simp only [normalise, IpAddressChoice.normalise, hentries]

theorem IpAddressFamily.noHostBits_of_normalise_eq {fam : IpAddressFamily}
    (h : fam.normalise = fam) : fam.NoHostBits := by
  intro entries hchoice net hnet
  have hmap : entries.map IpAddressOrRange.normalise = entries := by
    have := congrArg IpAddressFamily.choice h
    rw [normalise, hchoice] at this
    exact IpAddressChoice.prefixes.inj this
  obtain ⟨i, hi, hget⟩ := List.getElem_of_mem hnet
  have heq : (entries.map IpAddressOrRange.normalise)[i]? = entries[i]? := by rw [hmap]
  rw [List.getElem?_map, List.getElem?_eq_getElem hi, hget] at heq
  have hnorm := IpAddressOrRange.addressPrefix.inj (Option.some.inj heq)
  exact congrArg IpNet.addr hnorm

theorem IpAddressFamily.normalise_normalise (fam : IpAddressFamily) :
    fam.normalise.normalise = fam.normalise := by
  apply normalise_eq
  intro entries hchoice net hnet
  obtain ⟨afi, safi, choice⟩ := fam
  cases choice with
  | inherit => cases hchoice
  | prefixes es =>
      cases hchoice
      obtain ⟨e, -, he⟩ := List.mem_map.mp hnet
      cases e with
      | addressPrefix net' =>
          cases he
          exact IpNet.noHostBits_normalise net'
      | range min max => cases he

variable [Minicbor]

/-- **The host bits never reach the wire.** -/
theorem encodeFamily_normalise (fam : IpAddressFamily) :
    encodeFamily fam.normalise = encodeFamily fam := by
  obtain ⟨afi, safi, choice⟩ := fam
  cases choice with
  | inherit => rfl
  | prefixes entries =>
      have hresolve : (entries.map IpAddressOrRange.normalise).map IpAddressOrRange.resolve =
          entries.map IpAddressOrRange.resolve := by
        rw [List.map_map]
        exact List.map_congr_left fun e _ => e.resolve_normalise
      simp only [encodeFamily, IpAddressFamily.normalise, IpAddressChoice.normalise,
        encodeIpAddressChoice, hresolve, List.length_map]

theorem encodeIpAddressFamilies_normalise (families : List IpAddressFamily) :
    encodeIpAddressFamilies (families.map IpAddressFamily.normalise) =
      encodeIpAddressFamilies families :=
  encodeGroups_map encodeFamily_normalise families

section

variable [LawfulMinicbor]

/-! ### What the probe sees of written entries -/

/-- The probe answers `form` on what `p` writes. -/
def Shows (p : Enc) (form : Bool) : Prop :=
  ∀ c, p.run = .ok ((), c) → ∀ r, ∃ t, peekForm.run (c ++ r) = .ok (form, t)

omit [LawfulMinicbor] in
theorem Shows.bind {p q : Enc} {form : Bool} (hp : Shows p form) :
    Shows (p >>= fun _ => q) form := by
  intro c hc r
  obtain ⟨_, c₁, c₂, hp₁, -, rfl⟩ := Printer.run_bind_ok_iff.mp hc
  rw [List.append_assoc]
  exact hp c₁ hp₁ (c₂ ++ r)

theorem shows_single {p : Enc} {form : Bool}
    (hp : Starts p fun t => t ≠ .array ∧ t ≠ .arrayIndef ∧ t.isInt = form) : Shows p form := by
  intro c hc r
  obtain ⟨t, ⟨harray, hindef, hform⟩, htype⟩ := hp c hc
  exact ⟨c ++ r, peekForm_single (htype r) harray hindef hform⟩

theorem shows_range {p : Enc} {form : Bool} (hp : Starts p fun t => t.isInt = form) :
    Shows (do Encoder.array 2; p) form := by
  intro c hc r
  obtain ⟨_, h, s, hh, hs, rfl⟩ := Printer.run_bind_ok_iff.mp hc
  obtain ⟨t, hform, htype⟩ := hp s hs
  cases hh
  have hhead : Head 4 2 (Minicbor.writeArray 2) := by
    rw [LawfulMinicbor.writeArray_eq]
    exact head_shortHead 4 (by decide)
  rw [List.append_assoc]
  exact ⟨s ++ r, peekForm_range hhead (htype r) hform⟩

/-! ### The int form -/

omit [LawfulMinicbor] in
theorem encodeDelta_eq {c : Chain} (hc : c.InRange) {abs : Int} (hlo : 0 ≤ abs)
    (hhi : abs < 2 ^ 64) : encodeDelta (c.nextDelta abs) = Encoder.int (c.nextDelta abs) :=
  if_pos (Chain.nextDelta_bounds hc hlo hhi)

theorem starts_delta {c : Chain} (hc : c.InRange) {abs : Int} (hlo : 0 ≤ abs)
    (hhi : abs < 2 ^ 64) : Starts (encodeDelta (c.nextDelta abs)) fun t => t.isInt = true := by
  obtain ⟨h1, h2⟩ := Chain.nextDelta_bounds hc hlo hhi
  rw [encodeDelta_eq hc hlo hhi]
  exact starts_int h1 h2

/-- **A difference read back gives the number it was taken of.** -/
theorem writes_delta {c : Chain} (hc : c.InRange) {abs : Int} (hlo : 0 ≤ abs) (hhi : abs < 2 ^ 64)
    {α : Type} {q : Enc} {f : Int → Dec α} {a : α} (hq : Writes q (f abs) a) :
    Writes (do encodeDelta (c.nextDelta abs); q) (do
      let raw ← Decoder.int
      f (c.nextAbsolute raw)) a := by
  obtain ⟨h1, h2⟩ := Chain.nextDelta_bounds hc hlo hhi
  rw [encodeDelta_eq hc hlo hhi]
  refine Writes.bind (writes_int h1 h2) ?_
  rwa [Chain.nextAbsolute_nextDelta]

/-- The last difference of an entry. -/
theorem writes_last_delta {c : Chain} (hc : c.InRange) {abs : Int} (hlo : 0 ≤ abs)
    (hhi : abs < 2 ^ 64) {α : Type} {f : Int → Dec α} {a : α} (hf : Yields (f abs) [] a) :
    Writes (encodeDelta (c.nextDelta abs)) (do
      let raw ← Decoder.int
      f (c.nextAbsolute raw)) a := by
  obtain ⟨h1, h2⟩ := Chain.nextDelta_bounds hc hlo hhi
  rw [encodeDelta_eq hc hlo hhi]
  obtain ⟨o, ho, hy⟩ := writes_int h1 h2
  refine ⟨o, ho, fun r => ?_⟩
  rw [Parser.run_bind_of_ok (hy r), Chain.nextAbsolute_nextDelta]
  exact hf r

/-! An entry that is short is framed by 64-bit numbers, which unframe to it. -/

omit [Minicbor] [LawfulMinicbor] in
theorem absoluteInt_prefix {net : IpNet}
    (hshort : (IpAddressOrRange.addressPrefix net).resolve.isShort = true) :
    ∃ abs, absoluteIntFromFramed (prefixToFramed net).1 (prefixToFramed net).2 = .ok abs ∧
      1 ≤ abs ∧ abs < 2 ^ 64 ∧ framedFromAbsoluteInt abs = .ok (prefixToFramed net) := by
  have hlen : (prefixToFramed net).1.length < 8 := of_decide_eq_true hshort
  have hunused := prefixToFramed_unused net
  exact absoluteIntFromFramed_ok (by omega) (by omega)

omit [Minicbor] [LawfulMinicbor] in
theorem absoluteInt_bound {addr : IpAddr} {fill : UInt8}
    (hlen : (addrToFramedTrimmed addr fill).length < 8) :
    ∃ abs, absoluteIntFromFramed (addrToFramedTrimmed addr fill) 0 = .ok abs ∧
      1 ≤ abs ∧ abs < 2 ^ 64 ∧
        framedFromAbsoluteInt abs = .ok (addrToFramedTrimmed addr fill, 0) :=
  absoluteIntFromFramed_ok (by omega) (by decide)

omit [Minicbor] [LawfulMinicbor] in
theorem range_isShort {min max : IpAddr}
    (hshort : (IpAddressOrRange.range min max).resolve.isShort = true) :
    (addrToFramedTrimmed min 0x00).length < 8 ∧ (addrToFramedTrimmed max 0xFF).length < 8 :=
  have h := Bool.and_eq_true_iff.mp hshort
  ⟨of_decide_eq_true h.1, of_decide_eq_true h.2⟩

/-- One round of the int form: what it writes, and that the decoder's round reads it. -/
theorem writes_intEntry {afi : UInt16} {e : IpAddressOrRange} (he : e.OfFamily afi)
    (hshort : e.resolve.isShort = true) {c : Chain} (hc : c.InRange) :
    ∃ c' p, c'.InRange ∧ encodeIntEntry c e.resolve = (p >>= fun _ => pure c') ∧
      Writes p (decodeEntry afi true c) (e.normalise, c') ∧ Shows p true := by
  cases e with
  | addressPrefix net =>
      obtain ⟨abs, habs, hlo, hhi, hback⟩ := absoluteInt_prefix hshort
      have hint := starts_delta hc (by omega) hhi
      refine ⟨Chain.after abs, encodeDelta (c.nextDelta abs),
        Chain.inRange_after (by omega) hhi, ?_, ?_, ?_⟩
      · rw [IpAddressOrRange.resolve, encodeIntEntry, habs, toEncodeErr, Printer.pure_bind]
      · refine writes_single (hint.weaken fun _ => Or.inl) ?_
        refine writes_last_delta (f := fun abs => do
          let framed ← result (framedFromAbsoluteInt abs)
          let net ← result (buildPrefix afi framed.1 framed.2)
          return (IpAddressOrRange.addressPrefix net, Chain.after abs)) hc (by omega) hhi ?_
        exact Yields.bind (c := []) (yields_result hback) (Yields.bind (c := [])
          (yields_result (buildPrefix_prefixToFramed he)) (Yields.pure _))
      · refine shows_single (hint.weaken fun t ht => ⟨?_, ?_, ht⟩) <;> rintro rfl <;> cases ht
  | range min max =>
      obtain ⟨hshortMin, hshortMax⟩ := range_isShort hshort
      obtain ⟨minAbs, hmin, hlo, hhi, hbackMin⟩ := absoluteInt_bound hshortMin
      obtain ⟨maxAbs, hmax, hlo', hhi', hbackMax⟩ := absoluteInt_bound hshortMax
      have hc' : (Chain.after minAbs).InRange := Chain.inRange_after (by omega) hhi
      refine ⟨Chain.after maxAbs, do
        Encoder.array 2
        encodeDelta (c.nextDelta minAbs)
        encodeDelta ((Chain.after minAbs).nextDelta maxAbs),
        Chain.inRange_after (by omega) hhi', ?_, ?_, ?_⟩
      · rw [IpAddressOrRange.resolve, encodeIntEntry, hmin, hmax, toEncodeErr, Printer.pure_bind,
          toEncodeErr, Printer.pure_bind, Printer.bind_assoc, Printer.bind_assoc]
      · refine writes_range ?_
        refine writes_delta (f := fun minAbs => do
          let maxRaw ← Decoder.int
          let maxAbs := (Chain.after minAbs).nextAbsolute maxRaw
          let minFramed ← result (framedFromAbsoluteInt minAbs)
          let maxFramed ← result (framedFromAbsoluteInt maxAbs)
          let min ← result (buildAddr afi minFramed.1 0x00)
          let max ← result (buildAddr afi maxFramed.1 0xFF)
          return (IpAddressOrRange.range min max, Chain.after maxAbs)) hc (by omega) hhi ?_
        refine writes_last_delta (f := fun maxAbs => do
          let minFramed ← result (framedFromAbsoluteInt minAbs)
          let maxFramed ← result (framedFromAbsoluteInt maxAbs)
          let min ← result (buildAddr afi minFramed.1 0x00)
          let max ← result (buildAddr afi maxFramed.1 0xFF)
          return (IpAddressOrRange.range min max, Chain.after maxAbs)) hc' (by omega) hhi' ?_
        exact Yields.bind (c := []) (yields_result hbackMin) (Yields.bind (c := [])
          (yields_result hbackMax) (Yields.bind (c := [])
          (yields_result (buildAddr_addrToFramedTrimmed he.1 0x00)) (Yields.bind (c := [])
          (yields_result (buildAddr_addrToFramedTrimmed he.2 0xFF)) (Yields.pure _))))
      · exact shows_range (starts_delta hc (by omega) hhi).bind

/-! ### The byte-string form -/

theorem writes_bound {afi : UInt16} {addr : IpAddr} (h : addr.OfFamily afi) (fill : UInt8) :
    Writes (Encoder.bytes (0 :: addrToFramedTrimmed addr fill)) (decodeBound afi fill) addr := by
  have hlen := addrToFramedTrimmed_length addr fill
  obtain ⟨o, ho, hy⟩ := writes_bytes (s := 0 :: addrToFramedTrimmed addr fill)
    (by rw [List.length_cons]; omega)
  refine ⟨o, ho, fun r => ?_⟩
  unfold decodeBound
  have hsplit : splitFirst (0 :: addrToFramedTrimmed addr fill) =
      .ok (0, addrToFramedTrimmed addr fill) := rfl
  rw [Parser.run_bind_of_ok (hy r), Parser.run_bind_of_ok (run_result hsplit r),
    Parser.run_bind_of_ok (Parser.run_ensure rfl _ r)]
  exact run_result (buildAddr_addrToFramedTrimmed h fill) r

/-- One entry in byte-string form. -/
theorem writes_bytesEntry {afi : UInt16} {e : IpAddressOrRange} (he : e.OfFamily afi) (c : Chain) :
    Writes (encodeBytesEntry e.resolve) (decodeEntry afi false c) (e.normalise, c) ∧
      Shows (encodeBytesEntry e.resolve) false := by
  have hbytes : ∀ {s : Bytes}, s.length ≤ 16 → ∀ x : UInt8, (x :: s).length < 2 ^ 64 := by
    intro s hs x
    rw [List.length_cons]
    omega
  cases e with
  | addressPrefix net =>
      have hlen : (prefixToFramed net).1.length ≤ 16 := by
        have := prefixToFramed_length net
        have := net.le
        have := net.addr.size
        omega
      have hstart := starts_bytes (hbytes hlen (prefixToFramed net).2)
      constructor
      · refine writes_single (hstart.weaken fun _ => Or.inr) ?_
        obtain ⟨o, ho, hy⟩ := writes_bytes (hbytes hlen (prefixToFramed net).2)
        refine ⟨o, ho, fun r => ?_⟩
        unfold decodeBytesPrefix
        have hsplit : splitFirst ((prefixToFramed net).2 :: (prefixToFramed net).1) =
            .ok ((prefixToFramed net).2, (prefixToFramed net).1) := rfl
        rw [Parser.run_bind_of_ok (hy r), Parser.run_bind_of_ok (run_result hsplit r),
          Parser.run_bind_of_ok (run_result (buildPrefix_prefixToFramed he) r)]
        rfl
      · refine shows_single (hstart.weaken ?_)
        rintro t rfl
        exact ⟨by decide, by decide, rfl⟩
  | range min max =>
      constructor
      · exact writes_range (Writes.bind (writes_bound he.1 0x00)
          (Writes.map (writes_bound he.2 0xFF)))
      · have hmin := starts_bytes (hbytes (addrToFramedTrimmed_length min 0x00) 0)
        refine shows_range (hmin.bind.weaken ?_)
        rintro t rfl
        rfl

/-! ### Families -/

/-- What the loop of the int form writes shows at its first entry. -/
theorem shows_intEntries {afi : UInt16} {e : IpAddressOrRange} (he : e.OfFamily afi)
    (hshort : e.resolve.isShort = true) (es : List IpAddressOrRange) :
    Shows (Printer.iterate encodeIntEntry ((e :: es).map IpAddressOrRange.resolve) Chain.start)
      true := by
  obtain ⟨c', p, -, heq, -, hp⟩ := writes_intEntry he hshort Chain.inRange_start
  rw [List.map_cons, Printer.iterate, heq, Printer.bind_assoc]
  simp only [Printer.pure_bind]
  exact hp.bind

/-- The entries of a family, in the form the encoder picks. -/
theorem writes_entries {afi : UInt16} {entries : List IpAddressOrRange}
    (hlen : entries.length < 2 ^ 64) (hentries : ∀ e ∈ entries, e.OfFamily afi) :
    Writes (encodeIpAddressChoice (.prefixes entries)) (decodeEntries afi)
      (.prefixes (entries.map IpAddressOrRange.normalise)) := by
  have hn : (UInt64.ofNat entries.length).toNat = entries.length :=
    UInt64.toNat_ofNat_of_lt' hlen
  refine Writes.bind (writes_definiteArray _) ?_
  cases entries with
  | nil => exact Writes.done _
  | cons e es =>
      have hne : UInt64.ofNat (e :: es).length ≠ 0 := by
        intro h
        rw [h] at hn
        cases hn
      rw [if_neg hne, hn]
      by_cases hform : ((e :: es).map IpAddressOrRange.resolve).all ResolvedEntry.isShort = true
      · have hshort : ∀ x ∈ e :: es, x.resolve.isShort = true := fun x hx =>
          List.all_eq_true.mp hform _ (List.mem_map_of_mem hx)
        simp only [hform, if_true]
        refine Writes.probe (shows_intEntries (hentries e (by simp)) (hshort e (by simp)) es)
          (Writes.step (yields_withBoundedCapacity _ _) (Writes.map ?_))
        rw [Printer.iterate_map]
        refine Writes.iterate (e :: es) (fun c hc x hx => ?_) Chain.start Chain.inRange_start
        obtain ⟨c', p, hc', heq, hw, -⟩ := writes_intEntry (hentries x hx) (hshort x hx) hc
        exact ⟨c', p, hc', heq, hw⟩
      · rw [if_neg hform]
        have hfirst := (writes_bytesEntry (hentries e (by simp)) Chain.start).2
        refine Writes.probe (a := false) ?_
          (Writes.step (yields_withBoundedCapacity _ _) (Writes.map ?_))
        · rw [List.map_cons, List.forM_cons]
          exact hfirst.bind
        · rw [← Printer.iterate_const _ Chain.start, Printer.iterate_map]
          refine Writes.iterate (I := fun _ => True) (e :: es) (fun c _ x hx => ?_) _ trivial
          exact ⟨c, _, trivial, rfl, (writes_bytesEntry (hentries x hx) c).1⟩

theorem starts_ipAddressChoice (choice : IpAddressChoice) :
    Starts (encodeIpAddressChoice choice) fun t =>
      match choice with
      | .inherit => t = .null
      | .prefixes _ => t = .array := by
  cases choice with
  | inherit => exact starts_null
  | prefixes entries => exact (starts_array _).bind

theorem writes_ipAddressChoice {afi : UInt16} {choice : IpAddressChoice} (h : choice.Valid afi) :
    Writes (encodeIpAddressChoice choice) (decodeIpAddressChoice afi) choice.normalise := by
  have hstart := starts_ipAddressChoice choice
  cases choice with
  | inherit => exact writes_peek_eq hstart (Writes.map writes_null)
  | prefixes entries => exact writes_peek_eq hstart (writes_entries h.1 h.2)

theorem writes_safi (safi : Option UInt16) : Writes (encodeSafi safi) decodeSafi safi := by
  cases safi with
  | none => exact writes_peek_eq starts_null (Writes.map writes_null)
  | some s =>
      refine writes_peek (starts_u16 s) (t := .u8) rfl fun t ht => ?_
      rw [if_neg (by rintro rfl; cases ht)]
      exact Writes.map (writes_u16 s)

theorem writes_family {fam : IpAddressFamily} (h : fam.Valid) :
    Writes (encodeFamily fam) decodeFamily fam.normalise :=
  Writes.bind (writes_u16 fam.afi) (Writes.bind (writes_safi fam.safi)
    (Writes.map (writes_ipAddressChoice h)))

/-- **Address blocks are read back normalised.** -/
theorem writes_ipAddressFamilies {families : List IpAddressFamily} (h : FamiliesValid families) :
    Writes (encodeIpAddressFamilies families) decodeIpAddressFamilies
      (families.map IpAddressFamily.normalise) :=
  writes_decodeGroups (by decide) h.1 (yields_withBoundedCapacity _) fun fam hfam =>
    writes_family (h.2 fam hfam)

/-! ### AS identifiers -/

omit [Minicbor] [LawfulMinicbor] in
theorem u64TryFrom_toNat (n : UInt64) : u64TryFrom n.toNat = some n := by
  have hn := n.toNat_lt
  unfold u64TryFrom
  rw [if_pos ⟨by omega, by omega⟩, Int.toNat_natCast, UInt64.ofNat_toNat]

theorem writes_asEntry (id : AsIdOrRange) {c : Chain} (hc : c.InRange) :
    ∃ c' p, c'.InRange ∧ encodeAsEntry c id = (p >>= fun _ => pure c') ∧
      Writes p (decodeAsEntry c) (id, c') := by
  cases id with
  | id n =>
      have hn := n.toNat_lt
      refine ⟨Chain.after n.toNat, encodeDelta (c.nextDelta n.toNat),
        Chain.inRange_after (by omega) (by omega), rfl, ?_⟩
      refine writes_single ((starts_delta hc (by omega) (by omega)).weaken fun _ => Or.inl) ?_
      refine writes_last_delta (f := fun abs => do
        let n ← okOr (u64TryFrom abs) "AS id out of range"
        return (AsIdOrRange.id n, Chain.after abs)) hc (by omega) (by omega) ?_
      rw [u64TryFrom_toNat]
      exact fun r => rfl
  | range min max =>
      have hmin := min.toNat_lt
      have hmax := max.toNat_lt
      have hc' : (Chain.after min.toNat).InRange := Chain.inRange_after (by omega) (by omega)
      refine ⟨Chain.after max.toNat, do
        Encoder.array 2
        encodeDelta (c.nextDelta min.toNat)
        encodeDelta ((Chain.after min.toNat).nextDelta max.toNat),
        Chain.inRange_after (by omega) (by omega), ?_, ?_⟩
      · rw [encodeAsEntry, Printer.bind_assoc, Printer.bind_assoc]
      · refine writes_range ?_
        refine writes_delta (f := fun minAbs => do
          let maxRaw ← Decoder.int
          let maxAbs := (Chain.after minAbs).nextAbsolute maxRaw
          let min ← okOr (u64TryFrom minAbs) "AS id out of range"
          let max ← okOr (u64TryFrom maxAbs) "AS id out of range"
          return (AsIdOrRange.range min max, Chain.after maxAbs)) hc (by omega) (by omega) ?_
        refine writes_last_delta (f := fun maxAbs => do
          let min ← okOr (u64TryFrom min.toNat) "AS id out of range"
          let max ← okOr (u64TryFrom maxAbs) "AS id out of range"
          return (AsIdOrRange.range min max, Chain.after maxAbs)) hc' (by omega) (by omega) ?_
        rw [u64TryFrom_toNat, u64TryFrom_toNat]
        exact fun r => rfl

/-- **AS identifiers are read back as they are.** -/
theorem writes_asIdentifiers {ids : Option (List AsIdOrRange)} (h : AsIdsValid ids) :
    Writes (encodeAsIdentifiers ids) decodeAsIdentifiers ids := by
  cases ids with
  | none => exact writes_peek_eq starts_null (Writes.map writes_null)
  | some l =>
      have hlen : l.length < 2 ^ 64 := h l rfl
      have hn : (UInt64.ofNat l.length).toNat = l.length := UInt64.toNat_ofNat_of_lt' hlen
      have hstep : ∀ c : Chain, c.InRange → ∀ id ∈ l, ∃ c' p, c'.InRange ∧
          encodeAsEntry c id = (p >>= fun _ => pure c') ∧ Writes p (decodeAsEntry c) (id, c') :=
        fun c hc id _ => writes_asEntry id hc
      have hloop := Writes.iterate l hstep Chain.start Chain.inRange_start
      rw [List.map_id'] at hloop
      refine writes_peek_eq (starts_array _).bind (Writes.bind (writes_definiteArray _) ?_)
      refine Writes.step (yields_withBoundedCapacity _ _) (Writes.map ?_)
      rwa [hn]

end

end C509
