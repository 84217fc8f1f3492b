/-
Certificates (`certificate.rs`).

The eleven fields stand one after the other, either bare or under an array header.  The
two encoders panic where a field cannot be written: their writer is infallible, the
encoders of the fields are not.
-/
import C509Cert.Algorithm
import C509Cert.Extensions

namespace C509

open Cbor Codec

/-! ### Types -/

/-- The number of fields in array form. -/
def FIELD_COUNT : UInt64 := 11

/-- A to-be-signed certificate. -/
structure TbsCertificate where
  c509CertificateType : Int32
  certificateSerialNumber : BigUint
  issuerSignatureAlgorithm : AlgorithmIdentifier
  /-- `none` means identical to the subject -/
  issuer : Option Name
  validityNotBefore : OffsetDateTime
  /-- `none` means no expiration -/
  validityNotAfter : Option OffsetDateTime
  subject : Name
  subjectPublicKeyAlgorithm : AlgorithmIdentifier
  subjectPublicKey : Bytes
  extensions : Extensions
  deriving DecidableEq

/-- A CBOR-encoded X.509 certificate. -/
structure C509Certificate where
  tbs : TbsCertificate
  issuerSignatureValue : Bytes
  deriving DecidableEq

/-- What a call that may panic comes to. -/
inductive Outcome (α : Type)
  | returned (a : α)
  | panicked (msg : String)
  deriving DecidableEq

/-- `Result::expect`, on what an encoder wrote. -/
def Outcome.expect (msg : String) (p : Enc) : Outcome Bytes :=
  match p.run with
  | .ok ((), o) => .returned o
  | .error _ => .panicked msg

theorem Outcome.expect_eq_returned {msg : String} {p : Enc} {o : Bytes} :
    Outcome.expect msg p = .returned o ↔ p.run = .ok ((), o) := by
  unfold expect
  split <;> rename_i heq <;> rw [heq]
  · constructor
    · rintro ⟨⟩
      rfl
    · rintro ⟨⟩
      rfl
  · constructor
    · rintro ⟨⟩
    · rintro ⟨⟩

namespace C509Certificate

/-- The certificate that is read back. -/
def normalise (c : C509Certificate) : C509Certificate :=
  { c with tbs := { c.tbs with extensions := c.tbs.extensions.normalise } }

variable [Minicbor] [OidCrate]

/-! ### Decoding -/

/-- `validityNotAfter: ~time / null` -/
def decodeNotAfter : Dec (Option OffsetDateTime) := do
  if (← Decoder.datatype) = .null then
    Decoder.null
    return none
  else
    return some (← readTime)

/-- `decode_fields` -/
def decodeFields : Dec C509Certificate := do
  let c509CertificateType ← Decoder.i32
  let certificateSerialNumber ← readBiguint
  let issuerSignatureAlgorithm ← AlgorithmIdentifier.decode
  let issuer ← Name.decodeOptional
  let validityNotBefore ← readTime
  let validityNotAfter ← decodeNotAfter
  let subject ← Name.decode
  let subjectPublicKeyAlgorithm ← AlgorithmIdentifier.decode
  let subjectPublicKey ← Decoder.bytes
  let extensions ← Extensions.decode
  let issuerSignatureValue ← Decoder.bytes
  return {
    tbs := {
      c509CertificateType, certificateSerialNumber, issuerSignatureAlgorithm, issuer,
      validityNotBefore, validityNotAfter, subject, subjectPublicKeyAlgorithm,
      subjectPublicKey, extensions },
    issuerSignatureValue }

/-- `impl minicbor::Decode for C509Certificate` -/
def decodeItem : Dec C509Certificate := do
  let n ← Parser.get (← Decoder.array)
    (.cbor (Minicbor.message "C509Certificate must be a definite-length array"))
  Parser.ensure (n = FIELD_COUNT) (.cbor (Minicbor.message
    s!"C509Certificate array must have exactly {FIELD_COUNT} elements, got {n}"))
  Parser.mapError (fun e => .cbor e.intoMinicbor) decodeFields

/-- What a decoder returns at the front of an input; the rest is not looked at. -/
def decodeFront (m : Dec C509Certificate) (b : Bytes) : Except Error C509Certificate :=
  match m.run b with
  | .ok (c, _) => .ok c
  | .error e => .error (.decode e)

/-- `C509Certificate::decode` -/
def decode : Bytes → Except Error C509Certificate := decodeFront decodeItem

/-- `C509Certificate::decode_sequence` -/
def decodeSequence : Bytes → Except Error C509Certificate := decodeFront decodeFields

omit [OidCrate] in
theorem decodeFront_ok {m : Dec C509Certificate} {b : Bytes} {c : C509Certificate} :
    decodeFront m b = .ok c ↔ ∃ r, m.run b = .ok (c, r) := by
  unfold decodeFront
  split <;> rename_i heq
  · rw [heq]
    constructor
    · rintro ⟨⟩
      exact ⟨_, rfl⟩
    · rintro ⟨r, ⟨⟩⟩
      rfl
  · rw [heq]
    constructor
    · rintro ⟨⟩
    · rintro ⟨r, ⟨⟩⟩

/-! ### Encoding -/

def encodeNotAfter : Option OffsetDateTime → Enc
  | some t => encodeTime t
  | none => Encoder.null

/-- `encode_fields` -/
def encodeFields (c : C509Certificate) : Enc := do
  Encoder.i32 c.tbs.c509CertificateType
  Encoder.bytes (biguintBytes c.tbs.certificateSerialNumber)
  c.tbs.issuerSignatureAlgorithm.encode
  Name.encodeOptional c.tbs.issuer
  encodeTime c.tbs.validityNotBefore
  encodeNotAfter c.tbs.validityNotAfter
  c.tbs.subject.encode
  c.tbs.subjectPublicKeyAlgorithm.encode
  Encoder.bytes c.tbs.subjectPublicKey
  c.tbs.extensions.encode
  Encoder.bytes c.issuerSignatureValue

/-- `impl minicbor::Encode for C509Certificate` -/
def encodeItem (c : C509Certificate) : Enc := do
  Encoder.array FIELD_COUNT
  c.encodeFields

/-- `C509Certificate::encode` -/
def encode (c : C509Certificate) : Outcome Bytes :=
  Outcome.expect "Vec<u8> writer is infallible" c.encodeItem

/-- `C509Certificate::encode_sequence` -/
def encodeSequence (c : C509Certificate) : Outcome Bytes :=
  Outcome.expect "Vec<u8> writer is infallible" c.encodeFields

/-- **A certificate and its normal form are written alike.** -/
theorem encodeFields_normalise (c : C509Certificate) :
    c.normalise.encodeFields = c.encodeFields := by
  unfold encodeFields normalise
  simp only [Extensions.encode_normalise]

theorem encode_normalise (c : C509Certificate) : c.normalise.encode = c.encode := by
  unfold encode encodeItem
  rw [encodeFields_normalise]

theorem encodeSequence_normalise (c : C509Certificate) :
    c.normalise.encodeSequence = c.encodeSequence := by
  unfold encodeSequence
  rw [encodeFields_normalise]

/-! ### Reading and writing -/

variable [LawfulMinicbor]

/-- What every decoded certificate satisfies, as far as the crate itself answers for it. -/
structure Valid (D : Demands) (c : C509Certificate) : Prop where
  serialNumber : BigUint.Valid c.tbs.certificateSerialNumber
  signatureAlgorithm : c.tbs.issuerSignatureAlgorithm.Valid D
  issuer : Name.OptionalValid D c.tbs.issuer
  notBefore : c.tbs.validityNotBefore.Valid
  notAfter : ∀ t ∈ c.tbs.validityNotAfter, t.Valid
  subject : c.tbs.subject.Valid D
  publicKeyAlgorithm : c.tbs.subjectPublicKeyAlgorithm.Valid D
  publicKey : c.tbs.subjectPublicKey.length < 2 ^ 64
  extensions : c.tbs.extensions.Valid D
  signatureValue : c.issuerSignatureValue.length < 2 ^ 64

omit [OidCrate] in
theorem Valid.mono {D E : Demands} (h : D.Meet E) {c : C509Certificate} (hc : c.Valid D) :
    c.Valid E where
  serialNumber := hc.serialNumber
  signatureAlgorithm := hc.signatureAlgorithm.mono h
  issuer := hc.issuer.mono h
  notBefore := hc.notBefore
  notAfter := hc.notAfter
  subject := hc.subject.mono h
  publicKeyAlgorithm := hc.publicKeyAlgorithm.mono h
  publicKey := hc.publicKey
  extensions := hc.extensions.mono h
  signatureValue := hc.signatureValue

omit [OidCrate] in
theorem reads_decodeNotAfter {X : Bytes → Prop} :
    Reads X 1 decodeNotAfter fun o => ∀ t ∈ o, t.Valid := by
  refine reads_peek fun t => ?_
  split
  · exact Reads.map reads_null fun _ _ => by simp
  · exact Reads.map reads_readTime fun _ h => by simpa using h

/-- **The bare form is eleven items.** -/
theorem reads_decodeFields [LawfulOid] : Reads Skipped 11 decodeFields (Valid .decoded) :=
  Reads.bind (j := 10) reads_i32 fun _ _ =>
  Reads.bind (j := 9) reads_readBiguint fun _ hserial =>
  Reads.bind (j := 8) AlgorithmIdentifier.reads fun _ hsig =>
  Reads.bind (j := 7) Name.reads_optional fun _ hissuer =>
  Reads.bind (j := 6) reads_readTime fun _ hbefore =>
  Reads.bind (j := 5) reads_decodeNotAfter fun _ hafter =>
  Reads.bind (j := 4) Name.reads fun _ hsubject =>
  Reads.bind (j := 3) AlgorithmIdentifier.reads fun _ hpk =>
  Reads.bind (j := 2) reads_bytes fun _ hkey =>
  Reads.bind (j := 1) Extensions.reads fun _ hexts =>
  Reads.map reads_bytes fun _ hvalue =>
    ⟨hserial, hsig, hissuer, hbefore, hafter, hsubject, hpk, hkey, hexts, hvalue⟩

/-- **The array form is one item.** -/
theorem reads_decodeItem [LawfulOid] : Reads Skipped 1 decodeItem (Valid .decoded) := by
  refine reads_array (fun n => ?_) (fun b y h => ?_)
  · refine Reads.step (Reads.get _ _) fun m hm => Reads.step (Reads.ensure _) fun _ hn => ?_
    obtain rfl := Option.some.inj hm
    rw [hn]
    exact reads_decodeFields.mapError
  · cases h

omit [OidCrate] in
theorem writes_notAfter {o : Option OffsetDateTime} (h : ∀ t ∈ o, t.Valid) :
    Writes (encodeNotAfter o) decodeNotAfter o := by
  cases o with
  | none => exact writes_peek_eq starts_null (Writes.map writes_null)
  | some t =>
      refine writes_peek (starts_time t) (t := .u8) rfl fun ty hty => ?_
      rw [if_neg (by rintro rfl; cases hty)]
      exact Writes.map (writes_time (h t rfl))

/-- **A certificate whose extensions can be written is read back normalised.** -/
theorem writes_fields [LawfulOid] {c : C509Certificate} (hc : c.Valid .readBack)
    (hfits : c.tbs.extensions.Encodable) : Writes c.encodeFields decodeFields c.normalise :=
  Writes.bind (writes_i32 _) <|
  Writes.bind (writes_biguint hc.serialNumber) <|
  Writes.bind (AlgorithmIdentifier.writes hc.signatureAlgorithm) <|
  Writes.bind (Name.writes_optional hc.issuer) <|
  Writes.bind (writes_time hc.notBefore) <|
  Writes.bind (writes_notAfter hc.notAfter) <|
  Writes.bind (Name.writes hc.subject) <|
  Writes.bind (AlgorithmIdentifier.writes hc.publicKeyAlgorithm) <|
  Writes.bind (writes_bytes hc.publicKey) <|
  Writes.bind (Extensions.writes hc.extensions hfits) <|
  Writes.map (writes_bytes hc.signatureValue)

theorem writes_item [LawfulOid] {c : C509Certificate} (hc : c.Valid .readBack)
    (hfits : c.tbs.extensions.Encodable) : Writes c.encodeItem decodeItem c.normalise :=
  Writes.bind (writes_array FIELD_COUNT) <|
  Writes.step (a := FIELD_COUNT) (fun _ => rfl) <|
  Writes.step (a := ()) (fun _ => rfl) (writes_fields hc hfits).mapError

omit [OidCrate] [LawfulMinicbor] in
theorem logs_decodeNotAfter {E : Reserve → Prop} : Logs decodeNotAfter E := by
  refine Logs.bind (logs_lift _) fun t => ?_
  split
  · exact Logs.bind (logs_lift _) fun _ => Logs.pure _
  · exact Logs.bind logs_readTime fun _ => Logs.pure _

theorem logs_decodeFields : Logs decodeFields Reserve.Computed :=
  Logs.bind (logs_lift _) fun _ =>
  Logs.bind logs_readBiguint fun _ =>
  Logs.bind AlgorithmIdentifier.logs fun _ =>
  Logs.bind Name.logs_optional fun _ =>
  Logs.bind logs_readTime fun _ =>
  Logs.bind logs_decodeNotAfter fun _ =>
  Logs.bind Name.logs fun _ =>
  Logs.bind AlgorithmIdentifier.logs fun _ =>
  Logs.bind (logs_lift _) fun _ =>
  Logs.bind Extensions.logs fun _ =>
  Logs.bind (logs_lift _) fun _ => Logs.pure _

theorem logs_decodeItem : Logs decodeItem Reserve.Computed :=
  Logs.bind (logs_lift _) fun _ => Logs.bind (Logs.get _ _) fun _ =>
    Logs.bind (Logs.ensure _ _) fun _ => logs_decodeFields.mapError

end C509Certificate

end C509
