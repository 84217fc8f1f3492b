/-
Which certificates a document can describe.

The schema of `cert_json.rs` knows registered algorithms, registered attributes with a text or
a MAC address, and the five extensions.  A certificate of that shape has a document, provided
its times can be written as text; no other has one.  What `from_x509` returns is of that shape,
so whatever can be converted from X.509 can be described in JSON as well.
-/
import C509Cert.CertJson.Acceptance
import C509Cert.TextCrates
import C509Cert.X509ToC509.Acceptance

namespace C509

open Cbor Codec

section

variable [JsonCrates]

/-- Every byte string has its hex. -/
class HexWriter : Prop where
  hexDecode_surjective (b : Bytes) : ∃ s, JsonCrates.hexDecode (cleaned s) = .ok b

/-- A time with a text that is read as it. -/
def HasText (t : OffsetDateTime) : Prop := ∃ s, JsonCrates.parseRfc3339 s = .ok t

end

/-! ### The shape of a document -/

/-- What a document can describe. -/
structure C509Certificate.Expressible [JsonCrates] [MacCrate] (c : C509Certificate) : Prop where
  signatureAlgorithm : ∃ id, c.tbs.issuerSignatureAlgorithm = .int id
  issuer : ∀ name ∈ c.tbs.issuer, name.Expressible
  notBefore : HasText c.tbs.validityNotBefore
  notAfter : ∀ t ∈ c.tbs.validityNotAfter, HasText t
  subject : c.tbs.subject.Expressible
  publicKeyAlgorithm : ∃ id, c.tbs.subjectPublicKeyAlgorithm = .int id
  extensions : ∀ e ∈ c.tbs.extensions.exts, e.Expressible

/-! ### Documents -/

section

variable [Minicbor] [JsonCrates]

theorem hexBytes_ok_iff {field s : String} {b : Bytes} :
    hexBytes field s = .ok b ↔ JsonCrates.hexDecode (cleaned s) = .ok b := by
  unfold hexBytes
  cases JsonCrates.hexDecode (cleaned s) with
  | ok b' => exact ⟨fun h => (by cases h; rfl), fun h => (by cases h; rfl)⟩
  | error e => exact ⟨fun h => (by cases h), fun h => (by cases h)⟩

variable [HexWriter]

theorem exists_hexBytes (field : String) (b : Bytes) : ∃ s, hexBytes field s = .ok b := by
  obtain ⟨s, hs⟩ := HexWriter.hexDecode_surjective b
  exact ⟨s, hexBytes_ok_iff.mpr hs⟩

theorem Extension.intoExtension_iff {e : Extension} :
    (∃ j : JsonExtension, j.intoExtension = .ok e) ↔ e.Expressible := by
  constructor
  · rintro ⟨j, h⟩
    exact j.intoExtension_expressible h
  · intro h
    cases h with
    | basicConstraints critical bc =>
        cases bc with
        | notCa => exact ⟨.basicConstraints critical false none, rfl⟩
        | ca pathLen => exact ⟨.basicConstraints critical true pathLen, rfl⟩
    | keyUsage critical n => exact ⟨.keyUsage critical n, rfl⟩
    | subjectAltName critical names => exact ⟨.subjectAltName critical names, rfl⟩
    | authorityKeyIdentifier critical keyIdentifier =>
        obtain ⟨text, htext⟩ :=
          exists_hexBytes "authority_key_identifier.key_identifier" keyIdentifier
        exact ⟨.authorityKeyIdentifier critical text, bind_eq_ok.mpr ⟨_, htext, rfl⟩⟩
    | extKeyUsage critical ids => exact ⟨.extKeyUsage critical ids, rfl⟩

omit [Minicbor] [JsonCrates] [HexWriter] in
theorem Name.intoName_iff [MacCrate] {n : Name} :
    (∃ j : JsonName, j.intoName = n) ↔ n.Expressible := by
  constructor
  · rintro ⟨j, rfl⟩
    exact j.intoName_expressible
  · intro h
    have hattrs : n.attrs ∈ Set.range (List.map fun a : JsonRdnAttribute =>
        (.registered a.id a.printableString (specialText a.value) : RdnAttribute)) := by
      rw [Set.range_list_map]
      intro a ha
      obtain ⟨id, printable, s, rfl⟩ := h a ha
      exact ⟨⟨id, printable, s⟩, rfl⟩
    obtain ⟨attrs, hlist⟩ := hattrs
    exact ⟨.attributes attrs, by rw [JsonName.intoName, hlist]⟩

variable [MacCrate]

omit [HexWriter] [MacCrate] in
/-- Every time has its text, where there is one. -/
theorem exists_parseOptTime (field : String) {after : Option OffsetDateTime}
    (h : ∀ t ∈ after, HasText t) : ∃ o, parseOptTime field o = .ok after := by
  cases after with
  | none => exact ⟨none, rfl⟩
  | some t =>
      obtain ⟨s, hs⟩ := h t rfl
      exact ⟨some s, bind_eq_ok.mpr ⟨t, parseTime_eq_ok.mpr hs, rfl⟩⟩

/-- **The certificates a document can describe** are those of its shape whose times have a
text. -/
theorem C509Certificate.expressible_iff {c : C509Certificate} :
    (∃ doc : JsonCertificate, doc.intoCertificate = .ok c) ↔ c.Expressible := by
  constructor
  · rintro ⟨doc, h⟩
    have hconverted := doc.intoCertificate_converted h
    obtain ⟨serial, -, h₁⟩ := bind_eq_ok.mp h
    obtain ⟨before, hbefore, h₂⟩ := bind_eq_ok.mp h₁
    obtain ⟨after, hafter, h₃⟩ := bind_eq_ok.mp h₂
    obtain ⟨key, -, h₄⟩ := bind_eq_ok.mp h₃
    obtain ⟨value, -, h₅⟩ := bind_eq_ok.mp h₄
    obtain ⟨exts, -, h₆⟩ := bind_eq_ok.mp h₅
    cases h₆
    refine { hconverted with
      notBefore := ⟨_, parseTime_eq_ok.mp hbefore⟩
      notAfter := ?_ }
    intro t ht
    cases hopt : doc.validityNotAfter with
    | none =>
        rw [hopt] at hafter
        cases hafter
        cases ht
    | some s =>
        rw [hopt] at hafter
        obtain ⟨t', ht', hpure⟩ := bind_eq_ok.mp hafter
        cases hpure
        cases ht
        exact ⟨s, parseTime_eq_ok.mp ht'⟩
  · intro h
    obtain ⟨⟨certType, serial, sig, issuer, before, after, subject, pk, key, exts⟩, value⟩ := c
    obtain ⟨⟨sigId, rfl⟩, hissuer, ⟨before', hbefore⟩, hafter, hsubject, ⟨pkId, rfl⟩, hexts⟩ := h
    obtain ⟨serial', hserial⟩ := exists_hexBytes "serial_number" (BigUint.toBytesBe serial)
    obtain ⟨after', hafter'⟩ := exists_parseOptTime "validity_not_after" hafter
    obtain ⟨subject', rfl⟩ := Name.intoName_iff.mpr hsubject
    obtain ⟨key', hkey⟩ := exists_hexBytes "subject_public_key" key
    obtain ⟨value', hvalue⟩ := exists_hexBytes "issuer_signature_value" value
    obtain ⟨issuer', rfl⟩ : ∃ o : Option JsonName, o.map JsonName.intoName = issuer := by
      cases issuer with
      | none => exact ⟨none, rfl⟩
      | some name =>
          obtain ⟨j, rfl⟩ := Name.intoName_iff.mpr (hissuer name rfl)
          exact ⟨some j, rfl⟩
    obtain ⟨exts', hexts'⟩ : ∃ l : List JsonExtension,
        l.mapM JsonExtension.intoExtension = .ok exts.exts := by
      have hall := fun e he => Extension.intoExtension_iff.mpr (hexts e he)
      have : Nonempty JsonExtension := ⟨.keyUsage false 0⟩
      choose! j hj using hall
      exact ⟨exts.exts.map j, mapM_ok_iff.mpr
        (List.forall₂_map_left_iff.mpr (List.forall₂_same.mpr hj))⟩
    refine ⟨⟨certType, serial', sigId, issuer', before', after', subject', pkId, key', exts',
      value'⟩, ?_⟩
    exact bind_eq_ok.mpr ⟨_, hserial, bind_eq_ok.mpr ⟨_, parseTime_eq_ok.mpr hbefore,
      bind_eq_ok.mpr ⟨_, hafter', bind_eq_ok.mpr ⟨_, hkey, bind_eq_ok.mpr ⟨_, hvalue,
        bind_eq_ok.mpr ⟨_, hexts', by rw [BigUint.fromBytesBe_toBytesBe]; rfl⟩⟩⟩⟩⟩⟩

end

/-! ### What comes from X.509 -/

section

open X509 (X509Parser)

variable [Minicbor] [MacCrate] [X509Parser]

variable [JsonCrates] [HexWriter]

/--
**Whatever is converted from X.509 can be described in JSON**, exactly where the times of its
validity have a text.
-/
theorem convertCertificate_expressible_iff {cert : X509.X509Certificate} {c : C509Certificate}
    (h : convertCertificate cert = .ok c) :
    (∃ doc : JsonCertificate, doc.intoCertificate = .ok c) ↔
      HasText cert.tbsCertificate.validity.notBefore ∧
        (cert.tbsCertificate.validity.notAfter.unixTimestamp = NO_EXPIRATION_TIMESTAMP ∨
          HasText cert.tbsCertificate.validity.notAfter) := by
  have hconverted := convertCertificate_converted h
  obtain ⟨exts, hexts, h₁⟩ := bind_eq_ok.mp h
  obtain ⟨sig, -, h₂⟩ := bind_eq_ok.mp h₁
  obtain ⟨issuer, hissuer, h₃⟩ := bind_eq_ok.mp h₂
  obtain ⟨subject, hsubject, h₄⟩ := bind_eq_ok.mp h₃
  obtain ⟨key, -, h₅⟩ := bind_eq_ok.mp h₄
  cases h₅
  rw [C509Certificate.expressible_iff]
  constructor
  · intro hc
    exact ⟨hc.notBefore, notAfter_forall_iff.mp hc.notAfter⟩
  · rintro ⟨hbefore, hafter⟩
    exact { hconverted with
      notBefore := hbefore
      notAfter := notAfter_forall_iff.mpr hafter }

end

/-! ### Hex that can be run -/

theorem cleaned_eq_self {s : String} (h : ∀ c ∈ s.toList, isWhitespace c = false) :
    cleaned s = s := by
  rw [cleaned, List.filter_eq_self.mpr fun c hc => by rw [h c hc]; rfl, String.ofList_toList]

namespace Reference

open TextCrates

/-- `hex::encode` -/
def lowerHex (b : Bytes) : String := String.ofList (b.flatMap (hexByte lower))

/-- `hex::decode`, with one text for its errors. -/
def hexDecodeText (s : String) : Except String Bytes :=
  match readHex s.toList with
  | some b => .ok b
  | none => .error "Odd number of digits"

theorem hexDecodeText_lowerHex (b : Bytes) : hexDecodeText (lowerHex b) = .ok b := by
  rw [hexDecodeText, lowerHex, String.toList_ofList, readHex_lower]

theorem lowerHex_digits (b : Bytes) : ∀ c ∈ (lowerHex b).toList, isWhitespace c = false := by
  have hdigit : ∀ d, d < 16 → isWhitespace (lower d) = false := by decide
  intro c hc
  rw [lowerHex, String.toList_ofList] at hc
  obtain ⟨x, -, hx⟩ := List.mem_flatMap.mp hc
  have hlt := x.toNat_lt
  rcases List.mem_cons.mp hx with rfl | hx
  · exact hdigit _ (by omega)
  · rw [List.mem_singleton.mp hx]
    exact hdigit _ (by omega)

/-- The readers of `jsonCrates`, and all of hex. -/
@[reducible] def hexJson : JsonCrates where
  fromStr := JsonCrates.fromStr
  hexDecode := hexDecodeText
  parseRfc3339 := JsonCrates.parseRfc3339

theorem hexJson_writer : @HexWriter hexJson :=
  @HexWriter.mk hexJson fun b => ⟨lowerHex b, by
    rw [cleaned_eq_self (lowerHex_digits b)]
    exact hexDecodeText_lowerHex b⟩

end Reference

open scoped Reference in
theorem expressible_iff_email : ∃ (_ : JsonCrates), ∃ c,
    fromJson printableEmailText = .ok c ∧ c.Expressible := by
  let _ := Reference.hexJson
  have := Reference.hexJson_writer
  have hdoc : JsonCrates.fromStr printableEmailText = .ok (.small true (.keyUsage false 5)) :=
    fromStr_printableEmail
  obtain ⟨c, hc⟩ : ∃ c, (JsonCertificate.small true (.keyUsage false 5)).intoCertificate = .ok c :=
    ⟨_, rfl⟩
  exact ⟨Reference.hexJson, c, (fromJson_eq hdoc).trans hc,
    C509Certificate.expressible_iff.mp ⟨_, hc⟩⟩

open scoped Reference in
/-- A certificate with a keyUsage and basicConstraints has a document. -/
theorem convertCertificate_expressible_iff_keyUsageFirst : ∃ (_ : JsonCrates),
    ∃ (c : C509Certificate) (doc : JsonCertificate),
      convertCertificate keyUsageFirst = .ok c ∧ doc.intoCertificate = .ok c := by
  let _ := Reference.hexJson
  have := Reference.hexJson_writer
  have htext : HasText ⟨0⟩ := ⟨"1970-01-01T00:00:00Z", rfl⟩
  obtain ⟨c, hc⟩ : ∃ c, convertCertificate keyUsageFirst = .ok c := ⟨_, rfl⟩
  obtain ⟨doc, hdoc⟩ := (convertCertificate_expressible_iff hc).mpr ⟨htext, Or.inr htext⟩
  exact ⟨Reference.hexJson, c, doc, hc, hdoc⟩

end C509
