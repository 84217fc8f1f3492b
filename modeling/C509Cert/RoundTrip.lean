/-
Decoding and encoding certificates, together.

Every decoded certificate is valid, and a valid one whose extensions can be written is
read back normalised, as far as the `oid` crate reads back its identifiers.  From these two
facts follows exactly which certificates survive the wire, and that encoding after decoding
settles after one pass: a certificate and its normal form are written alike.
-/
import C509Cert.Minicbor.Reference
import C509Cert.Writable

namespace C509

open Cbor Codec

namespace C509Certificate

section

variable [Minicbor] [OidCrate] [LawfulMinicbor]

/-! ### Decoded certificates -/

theorem valid_of_decode [LawfulOid] {b : Bytes} {c : C509Certificate} (h : decode b = .ok c) :
    c.Valid .decoded := by
  obtain ⟨r, hrun⟩ := decodeFront_ok.mp h
  obtain ⟨-, -, -, hc, -⟩ := reads_decodeItem b c r hrun
  exact hc

theorem valid_of_decodeSequence [LawfulOid] {b : Bytes} {c : C509Certificate}
    (h : decodeSequence b = .ok c) : c.Valid .decoded := by
  obtain ⟨r, hrun⟩ := decodeFront_ok.mp h
  obtain ⟨-, -, -, hc, -⟩ := reads_decodeFields b c r hrun
  exact hc

/-! ### Written certificates -/

theorem decode_encode [LawfulOid] {c : C509Certificate} (hc : c.Valid .readBack)
    (hfits : c.tbs.extensions.Encodable) :
    ∃ b, c.encode = .returned b ∧ decode b = .ok c.normalise := by
  obtain ⟨b, hb, hy⟩ := writes_item hc hfits
  refine ⟨b, Outcome.expect_eq_returned.mpr hb, decodeFront_ok.mpr ⟨[], ?_⟩⟩
  simpa using hy []

theorem decodeSequence_encodeSequence [LawfulOid] {c : C509Certificate} (hc : c.Valid .readBack)
    (hfits : c.tbs.extensions.Encodable) :
    ∃ b, c.encodeSequence = .returned b ∧ decodeSequence b = .ok c.normalise := by
  obtain ⟨b, hb, hy⟩ := writes_fields hc hfits
  refine ⟨b, Outcome.expect_eq_returned.mpr hb, decodeFront_ok.mpr ⟨[], ?_⟩⟩
  simpa using hy []

/-- Only what can be written is written. -/
theorem encodable_of_encodeSequence {D : Demands} {c : C509Certificate} (hc : c.Valid D)
    {b : Bytes} (h : c.encodeSequence = .returned b) : c.tbs.extensions.Encodable :=
  hc.writable_iff.mp (encode_returns_iff.2.mp ⟨b, h⟩)

theorem encodable_of_encode {D : Demands} {c : C509Certificate} (hc : c.Valid D) {b : Bytes}
    (h : c.encode = .returned b) : c.tbs.extensions.Encodable :=
  hc.writable_iff.mp (encode_returns_iff.1.mp ⟨b, h⟩)

/-! ### Certificates that survive the wire -/

/-- Both forms are written, and read back as the certificate. -/
def RoundTrips (c : C509Certificate) : Prop :=
  (∃ b, c.encode = .returned b ∧ decode b = .ok c) ∧
    ∃ b, c.encodeSequence = .returned b ∧ decodeSequence b = .ok c

/-- The wire can express the certificate. -/
structure WireConsistent (D : Demands) (c : C509Certificate) : Prop where
  /-- ids and values, kinds and values, families and addresses agree; times, path lengths
  and signs are in range; identifiers and raw values are as `D` asks -/
  valid : c.Valid D
  /-- no id is `i32::MIN`, and a keyUsage alone fits an `i32` -/
  encodable : c.tbs.extensions.Encodable
  /-- a keyUsage alone is not critical with value 0 -/
  signed : c.tbs.extensions.bareKeyUsage ≠ some (true, 0)
  /-- no address prefix has host bits -/
  networks : ∀ e ∈ c.tbs.extensions.exts, e.value.NoHostBits

omit [Minicbor] [OidCrate] [LawfulMinicbor] in
theorem extensions_normalise_eq_iff {v : Extensions} :
    v.normalise = v ↔ v.bareKeyUsage ≠ some (true, 0) ∧ ∀ e ∈ v.exts, e.value.NoHostBits := by
  constructor
  · intro h
    have hsigned : v.bareKeyUsage ≠ some (true, 0) := by
      intro hbare
      obtain rfl := Extensions.bareKeyUsage_eq_some.mp hbare
      exact absurd h (by decide)
    refine ⟨hsigned, fun e he => ?_⟩
    rw [Extensions.normalise, if_neg hsigned] at h
    have hexts : v.exts.map Extension.normalise = v.exts := congrArg Extensions.exts h
    obtain ⟨i, hi, rfl⟩ := List.getElem_of_mem he
    have hget : (v.exts.map Extension.normalise)[i]? = v.exts[i]? := by rw [hexts]
    rw [List.getElem?_map, List.getElem?_eq_getElem hi] at hget
    exact ExtensionValue.noHostBits_of_normalise_eq
      (congrArg Extension.value (Option.some.inj hget))
  · rintro ⟨hsigned, hnets⟩
    rw [Extensions.normalise, if_neg hsigned]
    have hexts : v.exts.map Extension.normalise = v.exts := by
      conv_rhs => rw [← List.map_id v.exts]
      refine List.map_congr_left fun e he => ?_
      rw [Extension.normalise, ExtensionValue.normalise_eq (hnets e he)]
      rfl
    rw [hexts]

omit [Minicbor] [OidCrate] [LawfulMinicbor] in
theorem normalise_eq_iff {c : C509Certificate} :
    c.normalise = c ↔ c.tbs.extensions.normalise = c.tbs.extensions := by
  constructor
  · intro h
    exact congrArg (fun c => c.tbs.extensions) h
  · intro h
    rw [normalise, h]

/-- **The certificates that survive the wire are those it can express**, where what decoding
ensures of the parts that other crates answer for is enough to read them back. -/
theorem roundTrips_iff [LawfulOid] {c : C509Certificate}
    (hback : c.Valid .decoded → c.Valid .readBack) :
    c.RoundTrips ↔ c.WireConsistent .readBack := by
  constructor
  · rintro ⟨⟨b, henc, hdec⟩, -⟩
    have hc := hback (valid_of_decode hdec)
    have hfits := encodable_of_encode hc henc
    obtain ⟨b', henc', hdec'⟩ := decode_encode hc hfits
    obtain rfl : b' = b := Outcome.returned.inj (henc'.symm.trans henc)
    have hnormal : c.normalise = c := Except.ok.inj (hdec'.symm.trans hdec)
    obtain ⟨hsigned, hnets⟩ := extensions_normalise_eq_iff.mp (normalise_eq_iff.mp hnormal)
    exact ⟨hc, hfits, hsigned, hnets⟩
  · rintro ⟨hc, hfits, hsigned, hnets⟩
    have hnormal : c.normalise = c :=
      normalise_eq_iff.mpr (extensions_normalise_eq_iff.mpr ⟨hsigned, hnets⟩)
    have harray := decode_encode hc hfits
    have hsequence := decodeSequence_encodeSequence hc hfits
    rw [hnormal] at harray hsequence
    exact ⟨harray, hsequence⟩

/-- **Every certificate the wire can express survives it**: its identifiers are ones the
`oid` crate reads back, and its raw values single items, whose texts are UTF-8. -/
theorem wireConsistent_roundTrips [LawfulOid] {c : C509Certificate}
    (h : c.WireConsistent .wellFormed) : c.RoundTrips := by
  obtain ⟨hc, hfits, hsigned, hnets⟩ := h
  have hback := hc.mono Demands.wellFormed_meet
  exact (roundTrips_iff fun _ => hback).mpr ⟨hback, hfits, hsigned, hnets⟩

end

/-- A certificate with a name in each of its forms, criticality in each of its signs, a
range of addresses, and a value without a registered id. -/
def sample : C509Certificate where
  tbs := {
    c509CertificateType := 3
    certificateSerialNumber := 128269
    issuerSignatureAlgorithm := .int 0
    issuer := some ⟨[.registered 1 false (.text "CA")]⟩
    validityNotBefore := ⟨1672531200000000000⟩
    validityNotAfter := none
    subject := ⟨[.registered 4 true (.text "SE"), .oid ⟨[2, 5, 4, 3]⟩ [0xfe]]⟩
    subjectPublicKeyAlgorithm := .oid ⟨[1, 2, 840]⟩ none
    subjectPublicKey := [0xfe]
    extensions := ⟨[
      { id := .int 2, critical := true, value := .keyUsage 5 },
      { id := .int 4, critical := true, value := .basicConstraints (.ca (some 0)) },
      { id := .int 32, critical := false, value := .ipAddrBlocks [
        { afi := 1, safi := none, choice := .prefixes [
          .range ⟨[10, 0, 0, 0], by decide⟩ ⟨[10, 0, 0, 255], by decide⟩] }] },
      { id := .int 99, critical := true, value := .raw [0x81, 0x61, 0x78] }]⟩ }
  issuerSignatureValue := [0x99]

/-- The sample on the wire. -/
def sampleBytes : Bytes :=
  [0x03, 0x43, 0x01, 0xf5, 0x0d, 0x00, 0x62, 0x43, 0x41, 0x1a, 0x63, 0xb0, 0xcd, 0x00, 0xf6,
    0x84, 0x23, 0x62, 0x53, 0x45, 0x43, 0x55, 0x04, 0x03, 0x41, 0xfe, 0x43, 0x2a, 0x86, 0x48,
    0x41, 0xfe, 0x88, 0x21, 0x05, 0x23, 0x00, 0x18, 0x20, 0x83, 0x01, 0xf6, 0x81, 0x82, 0x19,
    0x01, 0x0a, 0x1a, 0x01, 0x09, 0xfe, 0xf6, 0x38, 0x62, 0x81, 0x61, 0x78, 0x41, 0x99]

open scoped Reference in
theorem sample_decodes : decodeSequence sampleBytes = .ok sample := rfl

theorem item_sampleRaw : Item [0x81, 0x61, 0x78] := by
  have htext : Item ([0x61] ++ [0x78]) :=
    Head.string_item (m := 3) (Or.inr rfl) (Head.short (by decide)) (by decide)
  exact Items.array (n := 1) (h := [0x81]) (Head.short (by decide)) htext

open scoped Reference in
theorem sample_valid : sample.Valid .wellFormed := by
  have hback := (valid_of_decodeSequence sample_decodes).mono Demands.decoded_meet
  refine { hback with
    signatureAlgorithm := hback.signatureAlgorithm
    issuer := hback.issuer
    subject := hback.subject
    publicKeyAlgorithm := hback.publicKeyAlgorithm
    extensions := ⟨by decide, fun e he => ?_⟩ }
  have hvalid := hback.extensions.2 e he
  simp only [sample, List.mem_cons, List.not_mem_nil, or_false] at he
  rcases he with rfl | rfl | rfl | rfl
  · exact hvalid
  · exact hvalid
  · exact hvalid
  · exact ⟨hvalid.1, hvalid.2.1, hvalid.2.2.1, item_sampleRaw⟩

open scoped Reference in
theorem sample_wireConsistent : sample.WireConsistent .wellFormed where
  valid := sample_valid
  encodable := by
    refine ⟨?_, fun _ _ h => by cases h⟩
    show ∀ e ∈ sample.tbs.extensions.exts, e.id ≠ .int Int32.minValue
    decide
  signed := by decide
  networks := by
    rintro e he
    simp only [sample, List.mem_cons, List.not_mem_nil, or_false] at he
    rcases he with rfl | rfl | rfl | rfl
    · trivial
    · trivial
    · rintro fam hfam entries hentries net hnet
      rw [List.mem_singleton.mp hfam] at hentries
      cases hentries
      cases List.mem_singleton.mp hnet
    · trivial

open scoped Reference in
theorem sample_roundTrips : sample.RoundTrips := wireConsistent_roundTrips sample_wireConsistent

/-- A text string by its shape alone: a head, and as many bytes as it announces. -/
def TextShaped (b : Bytes) : Prop := ∃ h s, Head 3 s.length h ∧ b = h ++ s

/-- A certificate that keeps a text raw, under the id 99. -/
def keepingText (text : Bytes) : C509Certificate where
  tbs := {
    c509CertificateType := 3
    certificateSerialNumber := 5
    issuerSignatureAlgorithm := .int 0
    issuer := none
    validityNotBefore := ⟨0⟩
    validityNotAfter := none
    subject := ⟨[]⟩
    subjectPublicKeyAlgorithm := .int 1
    subjectPublicKey := []
    extensions := ⟨[{ id := .int 99, critical := false, value := .raw text }]⟩ }
  issuerSignatureValue := []

theorem keepingText_wireConsistent [Minicbor] [LawfulMinicbor] {D : Demands} {text : Bytes}
    (h : D.raw text) : (keepingText text).WireConsistent D where
  valid := {
    serialNumber := show (biguintBytes 5).length < 2 ^ 64 by decide
    signatureAlgorithm := trivial
    issuer := fun _ h => by cases h
    notBefore := ⟨0, by decide, by decide, rfl⟩
    notAfter := fun _ h => by cases h
    subject := ⟨by simp [keepingText], fun _ h => by cases h⟩
    publicKeyAlgorithm := trivial
    publicKey := by simp [keepingText]
    extensions := by
      refine ⟨by simp [keepingText], fun e he => ?_⟩
      rw [List.mem_singleton.mp he]
      exact ⟨Or.inl (by decide), fun h => (by cases h.2),
        show (99 : UInt32) ∉ ExtensionValue.registeredIds by decide, h⟩
    signatureValue := by simp [keepingText] }
  encodable := by
    refine ⟨fun e he => ?_, fun _ _ h => by cases h⟩
    rw [List.mem_singleton.mp he]
    exact fun h => by cases h
  signed := by rintro ⟨⟩
  networks := by
    intro e he
    rw [List.mem_singleton.mp he]
    trivial

open scoped Reference in
/-- **A raw text that is not UTF-8 does not survive**, whatever else the wire can express:
`skip` refuses it. -/
theorem illText_not_roundTrips :
    (keepingText [0x61, 0xff]).WireConsistent ⟨ObjectIdentifier.Valid, TextShaped⟩ ∧
      ¬ (keepingText [0x61, 0xff]).RoundTrips := by
  have hbytes : (keepingText [0x61, 0xff]).encodeSequence =
      .returned [0x03, 0x41, 0x05, 0x00, 0xf6, 0x00, 0xf6, 0x80, 0x01, 0x40, 0x82, 0x18, 0x63,
        0x61, 0xff, 0x40] := rfl
  refine ⟨keepingText_wireConsistent ⟨[0x61], [0xff], Head.short (by decide), rfl⟩, ?_⟩
  · rintro ⟨-, b, henc, hdec⟩
    rw [hbytes] at henc
    cases henc
    cases hdec

/-! ### Encoding after decoding -/

section

variable [Minicbor] [OidCrate] [LawfulMinicbor]

/--
**A decoded certificate can be encoded exactly where its extensions can.**  An id that is
`i32::MIN` has no negation, and a keyUsage alone must fit an `i32`; both come off the wire.
-/
theorem encode_decoded_iff [LawfulOid] {b : Bytes} {c : C509Certificate}
    (h : decode b = .ok c ∨ decodeSequence b = .ok c) :
    ((∃ o, c.encode = .returned o) ∧ ∃ o, c.encodeSequence = .returned o) ↔
      c.tbs.extensions.Encodable := by
  have hc : c.Valid .decoded := h.elim valid_of_decode valid_of_decodeSequence
  rw [← hc.writable_iff, encode_returns_iff.1, encode_returns_iff.2, and_self_iff]

end

/-- Ten fields with nothing in them, up to the extensions. -/
def fieldsBefore : Bytes := [0x03, 0x41, 0x05, 0x00, 0xf6, 0x00, 0xf6, 0x80, 0x01, 0x40]

open scoped Reference in
/-- The magnitude `2^31`, as a keyUsage alone and as a critical id. -/
theorem encode_decoded_panics :
    (∃ c, decodeSequence (fieldsBefore ++ [0x3a, 0x7f, 0xff, 0xff, 0xff, 0x40]) = .ok c ∧
      c.encode = .panicked "Vec<u8> writer is infallible") ∧
    ∃ c, decodeSequence (fieldsBefore ++ [0x82, 0x3a, 0x7f, 0xff, 0xff, 0xff, 0x00, 0x40]) =
        .ok c ∧ c.encode = .panicked "Vec<u8> writer is infallible" :=
  ⟨⟨_, rfl, rfl⟩, _, rfl, rfl⟩

open scoped Reference in
theorem encode_sample_iff :
    ((∃ o, sample.encode = .returned o) ∧ ∃ o, sample.encodeSequence = .returned o) ↔
      sample.tbs.extensions.Encodable :=
  encode_decoded_iff (b := sampleBytes) (Or.inr rfl)

section

variable [Minicbor] [OidCrate] [LawfulMinicbor]

/-- **Encoding settles after one pass**: what was written is accepted, and written again
as the same bytes. -/
theorem reencode_idempotent [LawfulOid] [OidReadsBack] {b b₁ : Bytes} {c : C509Certificate} :
    (decode b = .ok c → c.encode = .returned b₁ →
      ∃ c₁, decode b₁ = .ok c₁ ∧ c₁.encode = .returned b₁) ∧
    (decodeSequence b = .ok c → c.encodeSequence = .returned b₁ →
      ∃ c₁, decodeSequence b₁ = .ok c₁ ∧ c₁.encodeSequence = .returned b₁) := by
  refine ⟨fun hdec henc => ?_, fun hdec henc => ?_⟩
  · have hc := (valid_of_decode hdec).mono Demands.decoded_meet
    obtain ⟨b₂, henc₂, hdec₂⟩ := decode_encode hc (encodable_of_encode hc henc)
    obtain rfl : b₂ = b₁ := Outcome.returned.inj (henc₂.symm.trans henc)
    exact ⟨c.normalise, hdec₂, (encode_normalise c).trans henc⟩
  · have hc := (valid_of_decodeSequence hdec).mono Demands.decoded_meet
    obtain ⟨b₂, henc₂, hdec₂⟩ :=
      decodeSequence_encodeSequence hc (encodable_of_encodeSequence hc henc)
    obtain rfl : b₂ = b₁ := Outcome.returned.inj (henc₂.symm.trans henc)
    exact ⟨c.normalise, hdec₂, (encodeSequence_normalise c).trans henc⟩

end

open scoped Reference in
/-- A long head, a leading zero in the serial number and a common name in an array, all
gone after one pass. -/
theorem reencode_idempotent_long :
    ∃ c, decodeSequence [0x03, 0x41, 0x05, 0x00, 0xf6, 0x00, 0xf6, 0x61, 0x78, 0x01, 0x40, 0x80,
        0x40] = .ok c ∧
      c.encodeSequence = .returned [0x03, 0x41, 0x05, 0x00, 0xf6, 0x00, 0xf6, 0x61, 0x78, 0x01,
        0x40, 0x80, 0x40] :=
  (reencode_idempotent (b := [0x18, 0x03, 0x42, 0x00, 0x05, 0x00, 0xf6, 0x00, 0xf6, 0x82, 0x01,
    0x61, 0x78, 0x01, 0x40, 0x80, 0x40])).2 rfl rfl

end C509Certificate

end C509
