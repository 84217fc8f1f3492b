/-
The two forms of a certificate, against each other.

The array form is the bare form behind the head of an array of eleven, however that head is
spelled: it is accepted where the bare form is, with the same certificate, and where it is
not, its error is the bare form's, turned into one of `minicbor`.  The first item tells the
forms apart.  What is written is a prefix code: no certificate is written as the beginning
of another, and two are written alike exactly where they are read back alike.
-/
import C509Cert.RoundTrip

namespace C509

open Cbor Codec

section

variable [Minicbor] [OidCrate]

/-- `map_err(|e| Error::Cbor(e.into_minicbor()))` -/
def Error.intoCbor : Error → Error
  | .decode e => .decode (.cbor e.intoMinicbor)
  | e => e

namespace C509Certificate

variable [LawfulMinicbor]

/-! ### The array form is the bare form behind a head -/

omit [OidCrate] in
theorem array_run_head {n : Nat} {h : Bytes} (hh : Head 4 n h) (r : Bytes) :
    Decoder.array.run (h ++ r) = .ok (some (UInt64.ofNat n), r) := by
  have hn : (UInt64.ofNat n).toNat = n := UInt64.toNat_ofNat_of_lt' hh.lt
  exact Decoder.lift_run_ok.mpr (LawfulMinicbor.readArray_some.mpr ⟨h, by rwa [hn], rfl⟩)

/-- Behind the head of eleven. -/
theorem decode_wrapped {h : Bytes} (hh : Head 4 11 h) (r : Bytes) :
    decode (h ++ r) = (decodeSequence r).mapError Error.intoCbor := by
  have hrun : decodeItem.run (h ++ r) =
      (Parser.mapError (fun e => .cbor e.intoMinicbor) decodeFields).run r :=
    Parser.run_bind_of_ok (array_run_head hh r)
  unfold decode decodeSequence decodeFront
  rw [hrun]
  simp only [Parser.mapError]
  cases decodeFields.run r <;> rfl

/-- The message about an array of another length. -/
def wrongLength (n : UInt64) : String :=
  s!"C509Certificate array must have exactly {FIELD_COUNT} elements, got {n}"

/-- Behind the head of any other number. -/
theorem decode_wrong_length {n : Nat} {h : Bytes} (hh : Head 4 n h) (hn : n ≠ 11) (r : Bytes) :
    decode (h ++ r) =
      .error (.decode (.cbor (Minicbor.message (wrongLength (UInt64.ofNat n))))) := by
  have hne : UInt64.ofNat n ≠ FIELD_COUNT := by
    intro heq
    have hlt := hh.lt
    have hnat := congrArg UInt64.toNat heq
    rw [UInt64.toNat_ofNat_of_lt' hlt] at hnat
    exact hn hnat
  have hrun : decodeItem.run (h ++ r) =
      .error (.cbor (Minicbor.message (wrongLength (UInt64.ofNat n)))) := by
    refine (Parser.run_bind_of_ok (array_run_head hh r)).trans ?_
    refine (Parser.run_bind_of_ok (Parser.run_pure (UInt64.ofNat n) r)).trans ?_
    rw [Parser.ensure, if_neg hne]
    rfl
  rw [decode, decodeFront, hrun]

theorem decode_ok_iff {b : Bytes} {c : C509Certificate} :
    decode b = .ok c ↔ ∃ h r, Head 4 11 h ∧ b = h ++ r ∧ decodeSequence r = .ok c := by
  constructor
  · intro hdec
    obtain ⟨t, hrun⟩ := decodeFront_ok.mp hdec
    obtain ⟨o, b', harray, hrest⟩ := Parser.run_bind_ok_iff.mp hrun
    obtain ⟨n, b₁, hget, hrest⟩ := Parser.run_bind_ok_iff.mp hrest
    obtain ⟨_, b₂, hensure, hfields⟩ := Parser.run_bind_ok_iff.mp hrest
    cases o with
    | none => cases hget
    | some m =>
        cases hget
        obtain ⟨hn, rfl⟩ := Parser.run_ensure_ok_iff.mp hensure
        obtain ⟨h, hh, rfl⟩ := LawfulMinicbor.readArray_some.mp (Decoder.lift_run_ok.mp harray)
        subst hn
        exact ⟨h, b₂, hh, rfl, decodeFront_ok.mpr ⟨t, Parser.mapError_run_ok.mp hfields⟩⟩
  · rintro ⟨h, r, hh, rfl, hdec⟩
    rw [decode_wrapped hh, hdec]
    rfl

omit [LawfulMinicbor] in
/-- Whatever is wrong with the array form is an error of `minicbor`. -/
theorem decode_error {b : Bytes} {e : Error} (h : decode b = .error e) :
    ∃ err, e = .decode (.cbor err) := by
  have hitem : ∀ e', decodeItem.run b = .error e' → ∃ err, e' = .cbor err := by
    intro e' hrun
    unfold decodeItem at hrun
    rw [Parser.run_bind] at hrun
    cases harray : Decoder.array.run b with
    | error e₁ =>
        rw [harray] at hrun
        cases hrun
        unfold Decoder.array Decoder.lift at harray
        simp only at harray
        split at harray
        · cases harray
        · cases harray
          exact ⟨_, rfl⟩
    | ok v =>
        obtain ⟨o, r⟩ := v
        rw [harray] at hrun
        cases o with
        | none =>
            cases hrun
            exact ⟨_, rfl⟩
        | some n =>
            by_cases hn : n = FIELD_COUNT
            · simp only [Parser.get, Parser.ensure, if_pos hn, Parser.pure_bind] at hrun
              simp only [Parser.mapError] at hrun
              split at hrun
              · cases hrun
              · cases hrun
                exact ⟨_, rfl⟩
            · simp only [Parser.get, Parser.ensure, if_neg hn, Parser.pure_bind] at hrun
              cases hrun
              exact ⟨_, rfl⟩
  unfold decode decodeFront at h
  split at h
  · cases h
  · cases h
    obtain ⟨err, rfl⟩ := hitem _ ‹_›
    exact ⟨err, rfl⟩

/--
**The two forms agree.**  Behind a head of eleven the array form is the bare form, errors
included; it is nothing else, and it never fails but with an error of `minicbor`.
-/
theorem forms_agree (b : Bytes) :
    (∀ c, decode b = .ok c ↔ ∃ h r, Head 4 11 h ∧ b = h ++ r ∧ decodeSequence r = .ok c) ∧
    (∀ h r, Head 4 11 h → b = h ++ r →
      decode b = (decodeSequence r).mapError Error.intoCbor) ∧
    (∀ n h r, Head 4 n h → n ≠ 11 → b = h ++ r →
      decode b = .error (.decode (.cbor (Minicbor.message (wrongLength (UInt64.ofNat n)))))) ∧
    ∀ e, decode b = .error e → ∃ err, e = .decode (.cbor err) := by
  refine ⟨fun c => decode_ok_iff, ?_, ?_, fun e => decode_error⟩
  · rintro h r hh rfl
    exact decode_wrapped hh r
  · rintro n h r hh hn rfl
    exact decode_wrong_length hh hn r

/-! ### The first item tells the forms apart -/

/-- An array, of whatever length. -/
def StartsArray (b : Bytes) : Prop :=
  Minicbor.datatype b = .ok .array ∨ Minicbor.datatype b = .ok .arrayIndef

theorem startsArray_of_decode {b : Bytes} {c : C509Certificate} (h : decode b = .ok c) :
    StartsArray b := by
  obtain ⟨head, r, hh, rfl, -⟩ := decode_ok_iff.mp h
  exact Or.inl (LawfulMinicbor.datatype_ok.mpr (typeOf_head (by decide) (by decide) hh r))

omit [OidCrate] in
theorem not_startsArray_of_readI32 {b r : Bytes} {n : Int32}
    (h : Decoder.i32.run b = .ok (n, r)) : ¬ StartsArray b := by
  obtain ⟨head, hh, rfl⟩ := LawfulMinicbor.readI32_ok.mp (Decoder.lift_run_ok.mp h)
  obtain ⟨ty, hint, htype⟩ := typeOf_intHead hh
  have hseen := htype r
  rintro (harray | harray) <;>
    · rw [LawfulMinicbor.datatype_ok.mp harray] at hseen
      cases hseen
      cases hint

theorem not_startsArray_of_decodeSequence {b : Bytes} {c : C509Certificate}
    (h : decodeSequence b = .ok c) : ¬ StartsArray b := by
  obtain ⟨t, hrun⟩ := decodeFront_ok.mp h
  obtain ⟨n, r, hread, -⟩ := Parser.run_bind_ok_iff.mp hrun
  exact not_startsArray_of_readI32 hread

/-! ### What is written is a prefix code -/

variable [LawfulOid] {c c' : C509Certificate} {b b' : Bytes}

theorem yields_encode (hc : c.Valid .readBack) (h : c.encode = .returned b) :
    Yields decodeItem b c.normalise := by
  obtain ⟨o, ho, hy⟩ := writes_item hc (encodable_of_encode hc h)
  cases ho.symm.trans (Outcome.expect_eq_returned.mp h)
  exact hy

theorem yields_encodeSequence (hc : c.Valid .readBack) (h : c.encodeSequence = .returned b) :
    Yields decodeFields b c.normalise := by
  obtain ⟨o, ho, hy⟩ := writes_fields hc (encodable_of_encodeSequence hc h)
  cases ho.symm.trans (Outcome.expect_eq_returned.mp h)
  exact hy

omit [OidCrate] [LawfulMinicbor] [LawfulOid] in
theorem decodeFront_of_yields {m : Dec C509Certificate} (h : Yields m b c) (r : Bytes) :
    decodeFront m (b ++ r) = .ok c := decodeFront_ok.mpr ⟨r, h r⟩

/--
**The bytes of a certificate identify it**, up to its normal form, and no more bytes do: of two
valid certificates whose identifiers are read back, one is written as a prefix of the other
only where both are written as the same bytes, and that is where their normal forms agree.
Across the two forms, neither is ever a prefix of the other.
-/
theorem encode_prefix_iff (hc : c.Valid .readBack) (hc' : c'.Valid .readBack) :
    (c.encode = .returned b → c'.encode = .returned b' →
      (b <+: b' ↔ b = b') ∧ (b = b' ↔ c.normalise = c'.normalise)) ∧
    (c.encodeSequence = .returned b → c'.encodeSequence = .returned b' →
      (b <+: b' ↔ b = b') ∧ (b = b' ↔ c.normalise = c'.normalise)) ∧
    (c.encode = .returned b → c'.encodeSequence = .returned b' → ¬ b <+: b' ∧ ¬ b' <+: b) := by
  have hcode : ∀ {m : Dec C509Certificate}, Yields m b c.normalise → Yields m b' c'.normalise →
      (c.normalise = c'.normalise → b = b') →
      (b <+: b' ↔ b = b') ∧ (b = b' ↔ c.normalise = c'.normalise) := by
    intro m hm hm' hsame
    refine ⟨⟨fun hp => (hm.unique hm' hp).1, ?_⟩, ⟨?_, hsame⟩⟩
    · rintro rfl
      exact List.prefix_refl b
    · rintro rfl
      exact (hm.unique hm' (List.prefix_refl b)).2
  refine ⟨fun h h' => ?_, fun h h' => ?_, fun h h' => ⟨?_, ?_⟩⟩
  · refine hcode (yields_encode hc h) (yields_encode hc' h') fun hnormal => ?_
    rw [← encode_normalise, hnormal, encode_normalise, h'] at h
    exact (Outcome.returned.inj h).symm
  · refine hcode (yields_encodeSequence hc h) (yields_encodeSequence hc' h') fun hnormal => ?_
    rw [← encodeSequence_normalise, hnormal, encodeSequence_normalise, h'] at h
    exact (Outcome.returned.inj h).symm
  · rintro ⟨r, rfl⟩
    have hseq := decodeFront_of_yields (yields_encodeSequence hc' h') []
    rw [List.append_nil] at hseq
    exact not_startsArray_of_decodeSequence hseq
      (startsArray_of_decode (decodeFront_of_yields (yields_encode hc h) r))
  · rintro ⟨r, rfl⟩
    have harray := decodeFront_of_yields (yields_encode hc h) []
    rw [List.append_nil] at harray
    exact not_startsArray_of_decodeSequence
      (decodeFront_of_yields (yields_encodeSequence hc' h') r) (startsArray_of_decode harray)

end C509Certificate

end

open scoped Reference in
/-- The sample behind a head of two bytes. -/
theorem C509Certificate.forms_agree_sample :
    decode ([0x98, 0x0b] ++ sampleBytes) = .ok sample :=
  ((forms_agree _).1 sample).mpr ⟨[0x98, 0x0b], sampleBytes,
    Head.long 0 (by decide) (by decide), rfl, sample_decodes⟩

open scoped Reference in
/-- The sample, and the same with another serial number. -/
theorem C509Certificate.encode_prefix_iff_sample :
    (sampleBytes <+: sampleBytes.set 4 0x0e ↔ sampleBytes = sampleBytes.set 4 0x0e) ∧
      ∃ c, decodeSequence (sampleBytes.set 4 0x0e) = .ok c ∧
        (sampleBytes = sampleBytes.set 4 0x0e ↔ sample.normalise = c.normalise) := by
  obtain ⟨c, hc, henc⟩ : ∃ c, decodeSequence (sampleBytes.set 4 0x0e) = .ok c ∧
    c.encodeSequence = .returned (sampleBytes.set 4 0x0e) := ⟨_, rfl, rfl⟩
  have hiff := (encode_prefix_iff (b := sampleBytes)
    ((valid_of_decodeSequence sample_decodes).mono Demands.decoded_meet)
    ((valid_of_decodeSequence hc).mono Demands.decoded_meet)).2.1 rfl henc
  exact ⟨hiff.1, c, hc, hiff.2⟩

end C509
