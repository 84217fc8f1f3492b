/-
Whether an input is PEM or DER (`from_x509`).

The converter looks for the marker of a PEM block in the first 1024 bytes, at any place.  A
DER certificate may hold these bytes in a name; text in front of a PEM block may be longer.
Both inputs are sent to the wrong parser, which fails on them, unless it happens to find a
certificate there too.

Errors tell the two routes apart: a failure of the detection begins with `failed`, and no
failure of a conversion does.
-/
import C509Cert.X509ToC509.Correspondence

namespace C509

open Cbor Codec
open X509 hiding GeneralName BasicConstraints AuthorityKeyIdentifier AlgorithmIdentifier
  TbsCertificate

/-! ### PEM texts -/

/-- The start of a PEM block. -/
def beginMarker : Bytes := utf8 "-----BEGIN "

/-- A line of text, with its end, that does not start a block. -/
structure TextLine (line : Bytes) : Prop where
  text : ∃ s, line = utf8 s
  ending : ∃ l, line = l ++ [0x0A] ∧ 0x0A ∉ l
  unmarked : ¬ beginMarker <+: line

/-- The lines in front of a block, any number of them, of any length. -/
def Preamble (text : Bytes) : Prop :=
  ∃ lines : List Bytes, (∀ line ∈ lines, TextLine line) ∧ text = lines.flatten

/-- What the two parsers are known to do: a block is looked for line by line, and a certificate
is a sequence. -/
class LawfulDetection [X509Parser] : Prop where
  read_preamble {text block : Bytes} (ht : Preamble text) (hb : beginMarker <+: block) :
    X509Parser.pemRead (text ++ block) = X509Parser.pemRead block
  read_ok {input : Bytes} {pem : Pem} (h : X509Parser.pemRead input = .ok pem) :
    ∃ text block, Preamble text ∧ beginMarker <+: block ∧ input = text ++ block
  der_tag {input : Bytes} {cert : X509Certificate} (h : X509Parser.fromDer input = .ok cert) :
    ∃ rest, input = 0x30 :: rest

/-- Lines of text, and then a block with a certificate in it. -/
def PemText [X509Parser] (input : Bytes) (cert : X509Certificate) : Prop :=
  ∃ text block, Preamble text ∧ beginMarker <+: block ∧ input = text ++ block ∧
    ∃ pem, X509Parser.pemRead block = .ok pem ∧ X509Parser.parseX509 pem = .ok cert

/-- A block with nothing in front has its marker in place. -/
theorem looksLikePem_of_block {block : Bytes} (h : beginMarker <+: block) :
    looksLikePem block = true := by
  refine decide_eq_true (List.IsPrefix.isInfix ?_)
  exact List.prefix_take_iff.mpr ⟨h, by decide⟩

section

variable [X509Parser] [LawfulDetection] {input : Bytes} {cert : X509Certificate}

/-- The reader finds the block behind the lines, and nothing else. -/
theorem pemText_iff : PemText input cert ↔
    ∃ pem, X509Parser.pemRead input = .ok pem ∧ X509Parser.parseX509 pem = .ok cert := by
  constructor
  · rintro ⟨text, block, ht, hb, rfl, pem, hread, hparse⟩
    exact ⟨pem, (LawfulDetection.read_preamble ht hb).trans hread, hparse⟩
  · rintro ⟨pem, hread, hparse⟩
    obtain ⟨text, block, ht, hb, rfl⟩ := LawfulDetection.read_ok hread
    rw [LawfulDetection.read_preamble ht hb] at hread
    exact ⟨text, block, ht, hb, rfl, pem, hread, hparse⟩

/-! ### The two routes -/

variable [Minicbor] [MacCrate]

theorem fromX509_pem (hlooks : looksLikePem input = true) (h : PemText input cert) :
    fromX509 input = convertCertificate cert := by
  obtain ⟨pem, hread, hparse⟩ := pemText_iff.mp h
  unfold fromX509
  rw [if_pos hlooks, hread]
  show (inContext _ (X509Parser.parseX509 pem) >>= convertCertificate) = _
  rw [hparse]
  rfl

omit [LawfulDetection] in
theorem fromX509_der (hlooks : ¬ looksLikePem input = true)
    (h : X509Parser.fromDer input = .ok cert) : fromX509 input = convertCertificate cert := by
  unfold fromX509
  rw [if_neg hlooks, h]
  rfl

omit [LawfulDetection] in
/-- **A failure of the detection is none of a conversion.** -/
theorem convertCertificate_ne_inContext {α : Type} {context : String} {r : Except String α}
    {f : α → Except Error C509Certificate} (hcontext : context.toList.head? = some 'f')
    (h : inContext context r >>= f = convertCertificate cert) : ∃ a, r = .ok a := by
  cases r with
  | ok a => exact ⟨a, rfl⟩
  | error e =>
      obtain ⟨message, hmessage, c, hc, hne⟩ := convertCertificate_context cert _ h.symm
      cases hmessage
      have hhead : (context ++ ": " ++ e).toList.head? = some 'f' := by simp [hcontext]
      cases hc.symm.trans hhead
      exact absurd rfl hne

/-- What is sent to the reader of blocks and comes out converted is a text with a block. -/
theorem pemText_of_converted (hlooks : looksLikePem input = true)
    (h : fromX509 input = convertCertificate cert) :
    ∃ cert', PemText input cert' ∧ convertCertificate cert' = convertCertificate cert := by
  unfold fromX509 at h
  rw [if_pos hlooks] at h
  obtain ⟨pem, hread⟩ := convertCertificate_ne_inContext rfl h
  rw [hread] at h
  obtain ⟨cert', hparse⟩ := convertCertificate_ne_inContext (r := X509Parser.parseX509 pem) rfl h
  refine ⟨cert', pemText_iff.mpr ⟨pem, hread, hparse⟩, ?_⟩
  have hroute : (inContext _ (X509Parser.parseX509 pem) >>= convertCertificate) = _ := h
  rw [hparse] at hroute
  exact hroute

omit [LawfulDetection] in
/-- What is sent to the DER parser and comes out converted is a DER certificate. -/
theorem der_of_converted (hlooks : ¬ looksLikePem input = true)
    (h : fromX509 input = convertCertificate cert) :
    ∃ cert', X509Parser.fromDer input = .ok cert' ∧
      convertCertificate cert' = convertCertificate cert := by
  unfold fromX509 at h
  rw [if_neg hlooks] at h
  obtain ⟨cert', hder⟩ := convertCertificate_ne_inContext rfl h
  rw [hder] at h
  exact ⟨cert', hder, h⟩

/-! ### Detection -/

/-- Whatever certificate an input holds, as DER or as a block behind lines of text, its
conversion is returned. -/
def DetectedRight (input : Bytes) : Prop :=
  (∀ cert, X509Parser.fromDer input = .ok cert → fromX509 input = convertCertificate cert) ∧
    ∀ cert, PemText input cert → fromX509 input = convertCertificate cert

/-- A DER certificate has no marker in its first 1024 bytes, and a text with a block has one,
save where the input is read as both, to the same end. -/
structure MarkerInPlace (input : Bytes) : Prop where
  der : ∀ cert, X509Parser.fromDer input = .ok cert → looksLikePem input = true →
    ∃ cert', PemText input cert' ∧ convertCertificate cert' = convertCertificate cert
  pem : ∀ cert, PemText input cert → ¬ looksLikePem input = true →
    ∃ cert', X509Parser.fromDer input = .ok cert' ∧
      convertCertificate cert' = convertCertificate cert

/-- **A block with nothing in front is detected.** -/
theorem markerInPlace_of_block (h : beginMarker <+: input) : MarkerInPlace input where
  der cert hder := by
    obtain ⟨rest, rfl⟩ := LawfulDetection.der_tag hder
    obtain ⟨tail, htail⟩ := h
    have hhead : some (0x2D : UInt8) = some 0x30 := congrArg List.head? htail
    cases hhead
  pem cert _ hlooks := absurd (looksLikePem_of_block h) hlooks

/-- **The detection is right where the marker is in its place**, and nowhere else. -/
theorem fromX509_detects_iff (input : Bytes) : DetectedRight input ↔ MarkerInPlace input := by
  constructor
  · rintro ⟨hder, hpem⟩
    constructor
    · intro cert hcert hlooks
      exact pemText_of_converted hlooks (hder cert hcert)
    · intro cert hcert hlooks
      exact der_of_converted hlooks (hpem cert hcert)
  · intro h
    constructor
    · intro cert hcert
      by_cases hlooks : looksLikePem input = true
      · obtain ⟨cert', hpem, heq⟩ := h.der cert hcert hlooks
        exact (fromX509_pem hlooks hpem).trans heq
      · exact fromX509_der hlooks hcert
    · intro cert hcert
      by_cases hlooks : looksLikePem input = true
      · exact fromX509_pem hlooks hcert
      · obtain ⟨cert', hder, heq⟩ := h.pem cert hcert hlooks
        exact (fromX509_der hlooks hder).trans heq

/-- A DER certificate with the marker in front, and no text with a block, is not detected. -/
theorem not_detectedRight_of_der (hder : X509Parser.fromDer input = .ok cert)
    (hlooks : looksLikePem input = true) (htext : ∀ cert', ¬ PemText input cert') :
    ¬ DetectedRight input := by
  intro h
  obtain ⟨cert', hpem, -⟩ := pemText_of_converted hlooks (h.1 cert hder)
  exact htext cert' hpem

omit [LawfulDetection] in
/-- A block behind a longer text, and no DER certificate, is not detected. -/
theorem not_detectedRight_of_text (hpem : PemText input cert)
    (hlooks : ¬ looksLikePem input = true)
    (hder : ∀ cert', X509Parser.fromDer input ≠ .ok cert') : ¬ DetectedRight input := by
  intro h
  obtain ⟨cert', hcert', -⟩ := der_of_converted hlooks (h.2 cert hpem)
  exact hder cert' hcert'

end

/-! ### A certificate for the name of the marker -/

/-- `CN=-----BEGIN `, in DER, with a key of type Ed25519. -/
def markerName : Bytes :=
  [0x30, 0x16, 0x31, 0x14, 0x30, 0x12, 0x06, 0x03, 0x55, 0x04, 0x03, 0x0C, 0x0B] ++ beginMarker

def markerDer : Bytes :=
  [0x30, 0x74, 0x30, 0x67, 0x02, 0x01, 0x05, 0x30, 0x05, 0x06, 0x03, 0x2B, 0x65, 0x70] ++
    markerName ++
    [0x30, 0x1E] ++ [0x17, 0x0D] ++ utf8 "700101000000Z" ++ [0x17, 0x0D] ++ utf8 "700101000000Z" ++
    markerName ++
    [0x30, 0x0B, 0x30, 0x05, 0x06, 0x03, 0x2B, 0x65, 0x70, 0x03, 0x02, 0x00, 0x05,
      0x30, 0x05, 0x06, 0x03, 0x2B, 0x65, 0x70, 0x03, 0x02, 0x00, 0x05]

/-- What is encoded there. -/
def markerCertificate : X509Certificate :=
  X509.small ⟨OID_X509_COMMON_NAME, ⟨⟨12⟩, beginMarker⟩⟩ [] X509.inMemory_nil

/-- A parser of this certificate, which has no block to read in it. -/
@[reducible] def markerParser : X509Parser :=
  { Reference.x509Parser with
    fromDer := fun b => if b = markerDer then .ok markerCertificate else .error "no DER" }

theorem markerParser_lawful : @LawfulDetection markerParser :=
  letI := markerParser
  { read_preamble := fun _ _ => rfl
    read_ok := nofun
    der_tag := by
      intro input cert h
      have hder : (if input = markerDer then .ok markerCertificate
        else .error "no DER" : Except String X509Certificate) = .ok cert := h
      split at hder
      · rename_i hinput
        exact ⟨markerDer.tail, by rw [hinput]; rfl⟩
      · cases hder }

open scoped Reference in
/-- The certificate would be converted, and is refused. -/
theorem fromX509_refuses_marker : ∃ (_ : X509Parser) (_ : LawfulDetection),
    X509Parser.fromDer markerDer = .ok markerCertificate ∧
      (∃ c, convertCertificate markerCertificate = .ok c) ∧
        (∃ message, fromX509 markerDer = .error (.x509 message)) ∧ ¬ DetectedRight markerDer := by
  let _ := markerParser
  refine ⟨markerParser, markerParser_lawful, rfl, ⟨_, rfl⟩, ⟨_, rfl⟩, ?_⟩
  have := markerParser_lawful
  have hder : X509Parser.fromDer markerDer = .ok markerCertificate := rfl
  refine not_detectedRight_of_der hder (by decide) fun cert' h => ?_
  obtain ⟨pem, hread, -⟩ := pemText_iff.mp h
  cases hread

open scoped Reference in
theorem fromX509_detects_iff_marker : ∃ (_ : X509Parser) (_ : LawfulDetection),
    DetectedRight markerDer ↔ MarkerInPlace markerDer :=
  ⟨markerParser, markerParser_lawful, @fromX509_detects_iff markerParser markerParser_lawful _ _ _⟩

end C509
