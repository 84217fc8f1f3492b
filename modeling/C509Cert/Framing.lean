/-
Typed decoders and the generic framing of CBOR.

A typed decoder that succeeds where an item starts has taken exactly that item, the one
`raw_item` captures from the same place.  So an id the decoder does not know costs the value
of its own extension and nothing else: what follows is read from the same place as before.

Where no item starts a decoder may succeed all the same, with what `raw_item` captures there:
a lone break, under an id it does not know.

The same holds of the input itself.  A certificate is decided by the units it is made of:
nothing after them changes it, and none of it is returned while one of them is cut short.
-/
import C509Cert.RawItems

namespace C509

open Cbor Codec

section

variable [Minicbor]

/-- From `b` to `r` is one item, and the one `raw_item` captures. -/
def IsRawItem (b r : Bytes) : Prop := ∃ c, b = c ++ r ∧ Item c ∧ rawItem.run b = .ok (c, r)

/-- Whenever `m` succeeds, what it took is one item, and the one `raw_item` captures. -/
def TakesRawItem {α : Type} (m : Dec α) : Prop :=
  ∀ b a r, m.run b = .ok (a, r) → IsRawItem b r

/-- The same of the inputs that start with an item, and of no others. -/
def TakesRawItemIff {α : Type} (m : Dec α) : Prop :=
  ∀ b a r, m.run b = .ok (a, r) → (IsRawItem b r ↔ Begins 1 b)

variable [LawfulMinicbor]

theorem isRawItem_iff {b r : Bytes} : IsRawItem b r ↔ ∃ c, b = c ++ r ∧ Item c := by
  constructor
  · rintro ⟨c, hb, hc, -⟩
    exact ⟨c, hb, hc⟩
  · rintro ⟨c, rfl, hc⟩
    exact ⟨c, rfl, hc, rawItem_run (LawfulMinicbor.skip_item hc) r⟩

theorem takesRawItem_of_reads {α : Type} {m : Dec α} {P : α → Prop}
    (hm : Reads NoPieces 1 m P) : TakesRawItem m := by
  intro b a r hrun
  obtain ⟨c, hb, hc, -, -⟩ := hm b a r hrun
  exact isRawItem_iff.mpr ⟨c, hb, hc.items fun _ => False.elim⟩

theorem takesRawItemIff_of_reads {α : Type} {m : Dec α} {P : α → Prop}
    (hm : Reads Skipped 1 m P) : TakesRawItemIff m := fun _ _ _ hrun =>
  isRawItem_iff.trans (hm.items_iff selfDelimiting_skipped hrun)

variable [OidCrate]

omit [LawfulMinicbor] in
/-- An unknown id takes the same item, and keeps it raw. -/
theorem decode_unregistered {id : UInt32} (hid : id ∉ ExtensionValue.registeredIds)
    {b c r : Bytes} (h : rawItem.run b = .ok (c, r)) :
    (ExtensionValue.decode id).run b = .ok (.raw c, r) := by
  rw [ExtensionValue.decode_of_unregistered hid]
  exact Parser.run_bind_of_ok h

/-- The extension after an int: its magnitude is the id, its sign the criticality. -/
theorem Extension.decode_intHead {n : Int32} {h b : Bytes} (hh : IntHead n.toInt h) :
    Extension.decode.run (h ++ b) = (do
      let value ← ExtensionValue.decode (unsignedAbs n)
      return { id := .int (unsignedAbs n).toInt32, critical := decide (n < 0), value } :
        Dec Extension).run b := by
  obtain ⟨t, ht, htype⟩ := typeOf_intHead hh
  have hpeek : Decoder.datatype.run (h ++ b) = .ok (t, h ++ b) :=
    datatype_run_ok.mpr ⟨htype b, rfl⟩
  have hraw : Decoder.i32.run (h ++ b) = .ok (n, b) :=
    Decoder.lift_run_ok.mpr (LawfulMinicbor.readI32_ok.mpr ⟨h, hh, rfl⟩)
  have hmagnitude : decodeCriticalMagnitude.run (h ++ b) =
      .ok ((unsignedAbs n, decide (n < 0)), b) := Parser.run_bind_of_ok hraw
  have hstep : (do
      let x ← decodeCriticalMagnitude
      let value ← ExtensionValue.decode x.1
      return { id := .int x.1.toInt32, critical := x.2, value } : Dec Extension).run (h ++ b) = _ :=
    Parser.run_bind_of_ok hmagnitude
  unfold Extension.decode
  rw [Parser.run_bind_of_ok hpeek]
  cases t <;> first | exact hstep | cases ht

/-- Another id before the same value leaves the rest of the input where it was: exactly where
the value starts with an item, that item is the value and is kept raw. -/
theorem Extension.decode_replace_iff [LawfulOid] {n n' : Int32} {h h' b r : Bytes} {e : Extension}
    (hh : IntHead n.toInt h) (hh' : IntHead n'.toInt h')
    (hid : unsignedAbs n' ∉ ExtensionValue.registeredIds)
    (hrun : Extension.decode.run (h ++ b) = .ok (e, r)) :
    (∃ c, b = c ++ r ∧ Item c ∧ Extension.decode.run (h' ++ b) = .ok
      ({ id := .int (unsignedAbs n').toInt32, critical := decide (n' < 0), value := .raw c },
        r)) ↔ Begins 1 b := by
  rw [Extension.decode_intHead hh] at hrun
  obtain ⟨v, r', hv, hpure⟩ := Parser.run_bind_ok_iff.mp hrun
  cases hpure
  constructor
  · rintro ⟨c, hb, hc, -⟩
    exact ⟨c, r, hb, hc⟩
  · intro hbegins
    obtain ⟨c, hb, hc, hraw⟩ :=
      (takesRawItemIff_of_reads (ExtensionValue.reads _) b v r hv).mpr hbegins
    refine ⟨c, hb, hc, ?_⟩
    rw [Extension.decode_intHead hh']
    exact Parser.run_bind_of_ok (decode_unregistered hid hraw)

/--
**Typed decoders and generic framing agree, where there is an item to frame.**  Names and
algorithms take exactly the item `raw_item` captures.  A value, whatever its id, a list of
extensions and the array form of a certificate do on the inputs that start with an item, and
on those alone; the bare form takes eleven items where eleven are.  And an extension whose id
is replaced by an unknown one keeps its value raw and leaves the rest where it was, one item
on, exactly where the value starts with an item.
-/
theorem decoders_takeRawItem_iff [LawfulOid] :
    TakesRawItem Name.decode ∧ TakesRawItem Name.decodeOptional ∧
      TakesRawItem AlgorithmIdentifier.decode ∧
      (∀ id, TakesRawItemIff (ExtensionValue.decode id)) ∧ TakesRawItemIff Extensions.decode ∧
      TakesRawItemIff C509Certificate.decodeItem ∧
      (∀ b c r, C509Certificate.decodeFields.run b = .ok (c, r) →
        ((∃ d, b = d ++ r ∧ Items 11 d) ↔ Begins 11 b)) ∧
      ∀ (n n' : Int32) (h h' b r : Bytes) (e : Extension), IntHead n.toInt h →
        IntHead n'.toInt h' → unsignedAbs n' ∉ ExtensionValue.registeredIds →
        Extension.decode.run (h ++ b) = .ok (e, r) →
        ((∃ c, b = c ++ r ∧ Item c ∧ Extension.decode.run (h' ++ b) = .ok
          ({ id := .int (unsignedAbs n').toInt32, critical := decide (n' < 0), value := .raw c },
            r)) ↔ Begins 1 b) :=
  ⟨takesRawItem_of_reads Name.reads, takesRawItem_of_reads Name.reads_optional,
    takesRawItem_of_reads AlgorithmIdentifier.reads,
    fun id => takesRawItemIff_of_reads (ExtensionValue.reads id),
    takesRawItemIff_of_reads Extensions.reads,
    takesRawItemIff_of_reads C509Certificate.reads_decodeItem,
    fun _ _ _ hrun => C509Certificate.reads_decodeFields.items_iff selfDelimiting_skipped hrun,
    fun _ _ _ _ _ _ _ hh hh' hid hrun => Extension.decode_replace_iff hh hh' hid hrun⟩

end

open scoped Reference in
/-- A keyUsage of 5, under its own id and under the unknown id 37. -/
theorem decode_replace_keyUsage :
    ∃ c, [0x05, 0x40] = c ++ [0x40] ∧ Item c ∧ Extension.decode.run [0x18, 0x25, 0x05, 0x40] =
      .ok ({ id := .int 37, critical := false, value := .raw c }, [0x40]) :=
  (decoders_takeRawItem_iff.2.2.2.2.2.2.2 2 37 [0x02] [0x18, 0x25] [0x05, 0x40] [0x40]
    ⟨.int 2, false, .keyUsage 5⟩ (Or.inl ⟨by decide, Head.short (by decide)⟩)
    (Or.inl ⟨by decide, Head.long 0 (by decide) (by decide)⟩) (by decide) rfl).mpr (by decide)

open scoped Reference in
/-- **A lone break is a value of an unknown id**, and no item: neither is what the decoder of
the value takes, nor are the eleven of the certificate it stands in. -/
theorem loneBreak_noItem :
    ¬ TakesRawItem (ExtensionValue.decode 99) ∧
      ∃ c r, C509Certificate.decodeFields.run C509Certificate.loneBreakBytes = .ok (c, r) ∧
        ¬ ∃ d, C509Certificate.loneBreakBytes = d ++ r ∧ Items 11 d := by
  refine ⟨fun h => ?_, C509Certificate.keepingText [0xff], [], rfl, ?_⟩
  · obtain ⟨c, hb, hc, -⟩ := h [0xff] (.raw [0xff]) [] rfl
    exact absurd ⟨c, [], hb, hc⟩ (by decide : ¬ Begins 1 [0xff])
  · rintro ⟨d, hb, hd⟩
    exact C509Certificate.loneBreak_begins ⟨d, [], hb, hd⟩

/-! ### Truncated certificates -/

section

variable [Minicbor] [OidCrate] [LawfulMinicbor]

omit [OidCrate] [LawfulMinicbor] in
/-- Locality, of a decoder that does not return where it stopped. -/
theorem C509Certificate.decodeFront_local {m : Dec C509Certificate} (hm : Local m) {b : Bytes}
    {c : C509Certificate} (h : decodeFront m b = .ok c) :
    ∃ k, k ≤ b.length ∧ (∀ b', b'.take k = b.take k → decodeFront m b' = .ok c) ∧
      ∀ p, p <+: b → p.length < k → ∃ e, decodeFront m p = .error e := by
  obtain ⟨r, hrun⟩ := decodeFront_ok.mp h
  obtain ⟨k, hk, -, hsame, hcut⟩ := hm b c r hrun
  refine ⟨k, hk, fun b' hb' => decodeFront_ok.mpr ⟨_, hsame b' hb'⟩, fun p hp hlt => ?_⟩
  obtain ⟨e, he⟩ := hcut p hp hlt
  exact ⟨.decode e, by rw [decodeFront, he]⟩

/--
**Truncation is always detected, and decoding is local**: both decoders, with the bytes they
take, and the two functions that call them.
-/
theorem decoding_isLocal [LawfulOid] :
    Local C509Certificate.decodeFields ∧ Local C509Certificate.decodeItem ∧
      ∀ b c,
        (C509Certificate.decodeSequence b = .ok c →
          ∃ k, k ≤ b.length ∧
            (∀ b', b'.take k = b.take k → C509Certificate.decodeSequence b' = .ok c) ∧
            ∀ p, p <+: b → p.length < k → ∃ e, C509Certificate.decodeSequence p = .error e) ∧
        (C509Certificate.decode b = .ok c →
          ∃ k, k ≤ b.length ∧
            (∀ b', b'.take k = b.take k → C509Certificate.decode b' = .ok c) ∧
            ∀ p, p <+: b → p.length < k → ∃ e, C509Certificate.decode p = .error e) := by
  have hfields : Local C509Certificate.decodeFields := C509Certificate.reads_decodeFields.isLocal
  have hitem : Local C509Certificate.decodeItem := C509Certificate.reads_decodeItem.isLocal
  exact ⟨hfields, hitem, fun b c =>
    ⟨C509Certificate.decodeFront_local hfields, C509Certificate.decodeFront_local hitem⟩⟩

end

open scoped Reference in
/-- The sample, with anything after it, and cut anywhere. -/
theorem decoding_isLocal_sample :
    ∃ k, k ≤ C509Certificate.sampleBytes.length ∧
      (∀ b', b'.take k = C509Certificate.sampleBytes.take k →
        C509Certificate.decodeSequence b' = .ok C509Certificate.sample) ∧
      ∀ p, p <+: C509Certificate.sampleBytes → p.length < k →
        ∃ e, C509Certificate.decodeSequence p = .error e :=
  (decoding_isLocal.2.2 C509Certificate.sampleBytes C509Certificate.sample).1
    C509Certificate.sample_decodes

end C509
