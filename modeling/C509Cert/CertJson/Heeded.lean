/-
The members `from_json` heeds.

The texts of a certificate are converted one by one, and the certificate is assembled from what
they come to, so a field that is given another value shows in its own place.  Strictness of
the whole is that of its names and its extensions: unknown members of the certificate itself
are denied.
-/
import C509Cert.CertJson.Parts

namespace C509

open Cbor Serde Reader CertJson

/-- The names and the extensions of the document are strict. -/
structure StrictDocument (v : Value) : Prop where
  issuer : ∀ x, (v.members JsonCertificate.fields.names).lookup "issuer" = some x →
    JsonName.Strict x
  subject : ∀ x, (v.members JsonCertificate.fields.names).lookup "subject" = some x →
    JsonName.Strict x
  extensions : ∀ l, (v.members JsonCertificate.fields.names).lookup "extensions" =
    some (.array l) → ∀ e ∈ l, JsonExtension.Strict e

section

variable [Minicbor] [JsonCrates] [MacCrate] [LawfulShortTexts]

/-- The certificate of a document, from what its texts come to. -/
def JsonCertificate.assemble (doc : JsonCertificate) (serial : Bytes)
    (validityNotBefore : OffsetDateTime) (validityNotAfter : Option OffsetDateTime)
    (subjectPublicKey issuerSignatureValue : Bytes) (extensions : List Extension) :
    C509Certificate where
  tbs := {
    c509CertificateType := doc.certificateType
    certificateSerialNumber := BigUint.fromBytesBe serial
    issuerSignatureAlgorithm := .int doc.issuerSignatureAlgorithm
    issuer := doc.issuer.map JsonName.intoName
    validityNotBefore
    validityNotAfter
    subject := doc.subject.intoName
    subjectPublicKeyAlgorithm := .int doc.subjectPublicKeyAlgorithm
    subjectPublicKey
    extensions := ⟨extensions⟩ }
  issuerSignatureValue

/-- What the texts of a document come to. -/
structure JsonCertificate.Converts (doc : JsonCertificate) (serial : Bytes)
    (before : OffsetDateTime) (after : Option OffsetDateTime) (key signature : Bytes)
    (exts : List Extension) : Prop where
  serial : hexBytes "serial_number" doc.serialNumber = .ok serial
  before : parseTime "validity_not_before" doc.validityNotBefore = .ok before
  after : parseOptTime "validity_not_after" doc.validityNotAfter = .ok after
  key : hexBytes "subject_public_key" doc.subjectPublicKey = .ok key
  signature : hexBytes "issuer_signature_value" doc.issuerSignatureValue = .ok signature
  extensions : doc.extensions.mapM JsonExtension.intoExtension = .ok exts

omit [LawfulShortTexts] in
theorem JsonCertificate.exists_converts {doc : JsonCertificate} {c : C509Certificate}
    (h : doc.intoCertificate = .ok c) :
    ∃ serial before after key signature exts,
      doc.Converts serial before after key signature exts := by
  obtain ⟨serial, hserial, h₁⟩ := bind_eq_ok.mp h
  obtain ⟨before, hbefore, h₂⟩ := bind_eq_ok.mp h₁
  obtain ⟨after, hafter, h₃⟩ := bind_eq_ok.mp h₂
  obtain ⟨key, hkey, h₄⟩ := bind_eq_ok.mp h₃
  obtain ⟨signature, hsignature, h₅⟩ := bind_eq_ok.mp h₄
  obtain ⟨exts, hexts, -⟩ := bind_eq_ok.mp h₅
  exact ⟨serial, before, after, key, signature, exts, hserial, hbefore, hafter, hkey, hsignature,
    hexts⟩

theorem parseTime_zero (field : String) :
    parseTime field "1970-01-01T00:00:00Z" = .ok ⟨0⟩ :=
  parseTime_eq_ok.mpr LawfulShortTexts.parseRfc3339_zero

theorem parseTime_one (field : String) :
    parseTime field "1970-01-01T00:00:01Z" = .ok ⟨1000000000⟩ :=
  parseTime_eq_ok.mpr LawfulShortTexts.parseRfc3339_one

theorem parseOptTime_zero (field : String) :
    parseOptTime field (some "1970-01-01T00:00:00Z") = .ok (some ⟨0⟩) := by
  show (parseTime field _ >>= fun t => pure (some t)) = _
  rw [parseTime_zero]
  rfl

section

variable {doc : JsonCertificate} {serial key signature : Bytes} {before : OffsetDateTime}
  {after : Option OffsetDateTime} {exts : List Extension} {inObject : Prop} {u : Value}

omit [LawfulShortTexts] in
/-- Whatever its extensions, only they can still fail. -/
theorem JsonCertificate.Converts.withExtensions
    (h : doc.Converts serial before after key signature exts) (l : List JsonExtension) :
    ({ doc with extensions := l } : JsonCertificate).intoCertificate.toOption =
      (l.mapM JsonExtension.intoExtension).toOption.map
        (doc.assemble serial before after key signature) := by
  unfold JsonCertificate.intoCertificate
  simp only [h.serial, h.before, h.after, h.key, h.signature]
  cases l.mapM JsonExtension.intoExtension with
  | error e => rfl
  | ok exts => rfl

omit [LawfulShortTexts] in
theorem JsonCertificate.Converts.toOption
    (h : doc.Converts serial before after key signature exts) :
    doc.intoCertificate.toOption = some (doc.assemble serial before after key signature exts) := by
  have hall := h.withExtensions doc.extensions
  rw [h.extensions] at hall
  exact hall

omit [LawfulShortTexts] in
/-- A plain field, of which two values come to certificates that can be told apart. -/
theorem slot_plain {α δ : Type} {set : α → JsonCertificate} {r : Reader α} (hr : Plain r) {x : α}
    (hu : r u = some x) {w₁ w₂ : Value} {x₁ x₂ : α} (h₁ : r w₁ = some x₁) (h₂ : r w₂ = some x₂)
    {c₁ c₂ : C509Certificate} (hc₁ : (set x₁).intoCertificate.toOption = some c₁)
    (hc₂ : (set x₂).intoCertificate.toOption = some c₂) (observe : C509Certificate → δ)
    (hne : observe c₁ ≠ observe c₂) :
    Slot inObject (fun w => (r w).bind fun x => (set x).intoCertificate.toOption) u := by
  refine slot_of_two hr hu h₁ h₂ hc₁ hc₂ ?_ inObject
  rintro rfl
  exact hne rfl

omit [LawfulShortTexts] in
theorem slot_certificateType (h : doc.Converts serial before after key signature exts)
    {n : Int32} (hu : i32 u = some n) : Slot inObject (fun w => (i32 w).bind fun n =>
      ({ doc with certificateType := n } : JsonCertificate).intoCertificate.toOption) u := by
  have hconv (n : Int32) :
      ({ doc with certificateType := n } : JsonCertificate).Converts serial before after key
        signature exts := ⟨h.serial, h.before, h.after, h.key, h.signature, h.extensions⟩
  exact slot_plain (plain_integer _) hu i32_zero i32_one (hconv 0).toOption (hconv 1).toOption
    (fun c => c.tbs.c509CertificateType) (show (0 : Int32) ≠ 1 by decide)

theorem slot_serialNumber (h : doc.Converts serial before after key signature exts)
    {s : String} (hu : string u = some s) : Slot inObject (fun w => (string w).bind fun s =>
      ({ doc with serialNumber := s } : JsonCertificate).intoCertificate.toOption) u := by
  have hconv {s : String} {b : Bytes} (hs : hexBytes "serial_number" s = .ok b) :
      ({ doc with serialNumber := s } : JsonCertificate).Converts b before after key
        signature exts := ⟨hs, h.before, h.after, h.key, h.signature, h.extensions⟩
  exact slot_plain plain_string hu (reads_string "00") (reads_string "01")
    (hconv (hexBytes_zero _)).toOption (hconv (hexBytes_one _)).toOption
    (fun c => c.tbs.certificateSerialNumber)
    (show BigUint.fromBytesBe [0] ≠ BigUint.fromBytesBe [1] by decide)

omit [LawfulShortTexts] in
theorem slot_issuerSignatureAlgorithm (h : doc.Converts serial before after key signature exts)
    {n : Int32} (hu : i32 u = some n) : Slot inObject (fun w => (i32 w).bind fun n =>
      ({ doc with issuerSignatureAlgorithm := n } : JsonCertificate).intoCertificate.toOption)
        u := by
  have hconv (n : Int32) :
      ({ doc with issuerSignatureAlgorithm := n } : JsonCertificate).Converts serial before after
        key signature exts := ⟨h.serial, h.before, h.after, h.key, h.signature, h.extensions⟩
  exact slot_plain (plain_integer _) hu i32_zero i32_one (hconv 0).toOption (hconv 1).toOption
    (fun c => c.tbs.issuerSignatureAlgorithm) (show AlgorithmIdentifier.int 0 ≠ .int 1 by decide)

theorem slot_validityNotBefore (h : doc.Converts serial before after key signature exts)
    {s : String} (hu : string u = some s) : Slot inObject (fun w => (string w).bind fun s =>
      ({ doc with validityNotBefore := s } : JsonCertificate).intoCertificate.toOption) u := by
  have hconv {s : String} {t : OffsetDateTime} (hs : parseTime "validity_not_before" s = .ok t) :
      ({ doc with validityNotBefore := s } : JsonCertificate).Converts serial t after key
        signature exts := ⟨h.serial, hs, h.after, h.key, h.signature, h.extensions⟩
  exact slot_plain plain_string hu (reads_string "1970-01-01T00:00:00Z")
    (reads_string "1970-01-01T00:00:01Z") (hconv (parseTime_zero _)).toOption
    (hconv (parseTime_one _)).toOption (fun c => c.tbs.validityNotBefore)
    (show (⟨0⟩ : OffsetDateTime) ≠ ⟨1000000000⟩ by decide)

theorem slot_validityNotAfter (h : doc.Converts serial before after key signature exts)
    {o : Option String} (hu : option string u = some o) :
    Slot inObject (fun w => (option string w).bind fun o =>
      ({ doc with validityNotAfter := o } : JsonCertificate).intoCertificate.toOption) u := by
  have hconv {o : Option String} {t : Option OffsetDateTime}
      (ho : parseOptTime "validity_not_after" o = .ok t) :
      ({ doc with validityNotAfter := o } : JsonCertificate).Converts serial before t key
        signature exts := ⟨h.serial, h.before, ho, h.key, h.signature, h.extensions⟩
  have hnull : option string .null = some none := rfl
  have htime : option string (.string "1970-01-01T00:00:00Z") =
    some (some "1970-01-01T00:00:00Z") := rfl
  exact slot_plain plain_string.option hu hnull htime (hconv rfl).toOption
    (hconv (parseOptTime_zero _)).toOption (fun c => c.tbs.validityNotAfter)
    (show (none : Option OffsetDateTime) ≠ some ⟨0⟩ by decide)

omit [LawfulShortTexts] in
theorem slot_subjectPublicKeyAlgorithm (h : doc.Converts serial before after key signature exts)
    {n : Int32} (hu : i32 u = some n) : Slot inObject (fun w => (i32 w).bind fun n =>
      ({ doc with subjectPublicKeyAlgorithm := n } : JsonCertificate).intoCertificate.toOption)
        u := by
  have hconv (n : Int32) :
      ({ doc with subjectPublicKeyAlgorithm := n } : JsonCertificate).Converts serial before after
        key signature exts := ⟨h.serial, h.before, h.after, h.key, h.signature, h.extensions⟩
  exact slot_plain (plain_integer _) hu i32_zero i32_one (hconv 0).toOption (hconv 1).toOption
    (fun c => c.tbs.subjectPublicKeyAlgorithm) (show AlgorithmIdentifier.int 0 ≠ .int 1 by decide)

theorem slot_subjectPublicKey (h : doc.Converts serial before after key signature exts)
    {s : String} (hu : string u = some s) : Slot inObject (fun w => (string w).bind fun s =>
      ({ doc with subjectPublicKey := s } : JsonCertificate).intoCertificate.toOption) u := by
  have hconv {s : String} {b : Bytes} (hs : hexBytes "subject_public_key" s = .ok b) :
      ({ doc with subjectPublicKey := s } : JsonCertificate).Converts serial before after b
        signature exts := ⟨h.serial, h.before, h.after, hs, h.signature, h.extensions⟩
  exact slot_plain plain_string hu (reads_string "00") (reads_string "01")
    (hconv (hexBytes_zero _)).toOption (hconv (hexBytes_one _)).toOption
    (fun c => c.tbs.subjectPublicKey) (show ([0] : Bytes) ≠ [1] by decide)

theorem slot_issuerSignatureValue (h : doc.Converts serial before after key signature exts)
    {s : String} (hu : string u = some s) : Slot inObject (fun w => (string w).bind fun s =>
      ({ doc with issuerSignatureValue := s } : JsonCertificate).intoCertificate.toOption) u := by
  have hconv {s : String} {b : Bytes} (hs : hexBytes "issuer_signature_value" s = .ok b) :
      ({ doc with issuerSignatureValue := s } : JsonCertificate).Converts serial before after key
        b exts := ⟨h.serial, h.before, h.after, h.key, hs, h.extensions⟩
  exact slot_plain plain_string hu (reads_string "00") (reads_string "01")
    (hconv (hexBytes_zero _)).toOption (hconv (hexBytes_one _)).toOption
    (fun c => c.issuerSignatureValue) (show ([0] : Bytes) ≠ [1] by decide)

theorem slot_issuer (h : doc.Converts serial before after key signature exts)
    {o : Option JsonName} (hu : option JsonName.deserialize u = some o) :
    Slot inObject (fun w => (option JsonName.deserialize w).bind fun o =>
      ({ doc with issuer := o } : JsonCertificate).intoCertificate.toOption) u ↔
        JsonName.Strict u := by
  let build (issuer : Option Name) : C509Certificate :=
    let c := doc.assemble serial before after key signature exts
    { c with tbs := { c.tbs with issuer } }
  have hf : ∀ o, ({ doc with issuer := o } : JsonCertificate).intoCertificate.toOption =
      (some (o.map JsonName.intoName)).map build := fun o =>
    JsonCertificate.Converts.toOption
      ⟨h.serial, h.before, h.after, h.key, h.signature, h.extensions⟩
  have hbuild : Function.Injective build := fun _ _ heq =>
    congrArg (fun c => c.tbs.issuer) heq
  have hvaries : Varies (fun w => (option JsonName.deserialize w).bind fun o =>
      some (o.map JsonName.intoName)) u := by
    have hnull : ((option JsonName.deserialize .null).bind fun o =>
      some (o.map JsonName.intoName)) = some none := rfl
    have hempty : ((option JsonName.deserialize (.array [])).bind fun o =>
      some (o.map JsonName.intoName)) = some (some ⟨[]⟩) := rfl
    exact varies_of_two hnull hempty (by simp) u
  exact (slot_iff_heeds hf hbuild hvaries inObject).trans (heeds_optionalName hu)

theorem slot_subject (h : doc.Converts serial before after key signature exts)
    {name : JsonName} (hu : JsonName.deserialize u = some name) :
    Slot inObject (fun w => (JsonName.deserialize w).bind fun n =>
      ({ doc with subject := n } : JsonCertificate).intoCertificate.toOption) u ↔
        JsonName.Strict u := by
  let build (subject : Name) : C509Certificate :=
    let c := doc.assemble serial before after key signature exts
    { c with tbs := { c.tbs with subject } }
  have hf : ∀ n, ({ doc with subject := n } : JsonCertificate).intoCertificate.toOption =
      (some n.intoName).map build := fun n =>
    JsonCertificate.Converts.toOption
      ⟨h.serial, h.before, h.after, h.key, h.signature, h.extensions⟩
  have hbuild : Function.Injective build := fun _ _ heq =>
    congrArg (fun c => c.tbs.subject) heq
  have hvaries : Varies (fun w => (JsonName.deserialize w).bind fun n => some n.intoName) u := by
    have hempty : ((JsonName.deserialize (.array [])).bind fun n => some n.intoName) =
      some ⟨[]⟩ := rfl
    have hstring : ((JsonName.deserialize (.string "a")).bind fun n => some n.intoName) =
      some ⟨[.registered COMMON_NAME_ID false (specialText "a")]⟩ := rfl
    exact varies_of_two hempty hstring (by simp) u
  exact (slot_iff_heeds hf hbuild hvaries inObject).trans (heeds_name hu)

theorem slot_extensions (h : doc.Converts serial before after key signature exts)
    (hu : list JsonExtension.deserialize u = some doc.extensions) :
    Slot inObject (fun w => (list JsonExtension.deserialize w).bind fun l =>
      ({ doc with extensions := l } : JsonCertificate).intoCertificate.toOption) u ↔
        ∀ es, u = .array es → ∀ e ∈ es, JsonExtension.Strict e := by
  have hbuild : Function.Injective (doc.assemble serial before after key signature) :=
    fun _ _ heq => congrArg (fun c => c.tbs.extensions.exts) heq
  have hvaries : Varies (fun w => (list JsonExtension.deserialize w).bind fun l =>
      (l.mapM JsonExtension.intoExtension).toOption) u := by
    have hnil : ((list JsonExtension.deserialize (.array [])).bind fun l =>
      (l.mapM JsonExtension.intoExtension).toOption) = some [] := rfl
    have hcons : ((list JsonExtension.deserialize
        (.array [.object [("basic_constraints", .array [])]])).bind fun l =>
          (l.mapM JsonExtension.intoExtension).toOption) =
            some [⟨.int EXT_BASIC_CONSTRAINTS_ID, false, .basicConstraints .notCa⟩] := rfl
    exact varies_of_two hnil hcons (by simp) u
  exact (slot_iff_heeds h.withExtensions hbuild hvaries inObject).trans
    (heeds_extensions hu h.extensions)

end

/-- **A document is heeded where it is strict.** -/
theorem heeds_certificate {v : Value} {c : C509Certificate} (h : certificateOf v = some c) :
    Heeds certificateOf v ↔ StrictDocument v := by
  obtain ⟨doc, hdoc, hc⟩ := Option.bind_eq_some_iff.mp h
  obtain ⟨⟨certificateType, serialNumber, signatureAlgorithm, issuer, validityNotBefore,
    validityNotAfter, subject, keyAlgorithm, subjectPublicKey, extensions, signatureValue, _⟩,
    rfl, hread, hiff⟩ := heeds_struct_map (f := fun doc => doc.intoCertificate.toOption)
      (by decide) hdoc
  obtain ⟨serial, before, after, key, signature, exts, hconv⟩ :=
    JsonCertificate.exists_converts (toOption_eq_some.mp hc)
  have hconv : JsonCertificate.Converts ⟨certificateType, serialNumber, signatureAlgorithm, issuer,
    validityNotBefore, validityNotAfter, subject, keyAlgorithm, subjectPublicKey, extensions,
    signatureValue⟩ serial before after key signature exts := hconv
  refine hiff.trans ((and_iff_right (fieldsOnly_of_deny hread)).trans ?_)
  constructor
  · rintro ⟨-, -, -, hissuer, -, -, hsubject, -, -, hextensions, -⟩
    obtain ⟨-, h₁⟩ := Schema.read_cons.mp (read_members hread)
    obtain ⟨-, h₂⟩ := Schema.read_cons.mp h₁
    obtain ⟨-, h₃⟩ := Schema.read_cons.mp h₂
    obtain ⟨hissuerRead, h₄⟩ := Schema.read_cons.mp h₃
    obtain ⟨-, h₅⟩ := Schema.read_cons.mp h₄
    obtain ⟨-, h₆⟩ := Schema.read_cons.mp h₅
    obtain ⟨hsubjectRead, h₇⟩ := Schema.read_cons.mp h₆
    obtain ⟨-, h₈⟩ := Schema.read_cons.mp h₇
    obtain ⟨-, h₉⟩ := Schema.read_cons.mp h₈
    obtain ⟨hextensionsRead, -⟩ := Schema.read_cons.mp h₉
    refine ⟨fun x hx => ?_, fun x hx => ?_, fun es hes => ?_⟩
    · have hu := Schema.field_eq_some hissuerRead hx
      exact (slot_issuer hconv hu).mp (hissuer x hx hu)
    · have hu := Schema.field_eq_some hsubjectRead hx
      exact (slot_subject hconv hu).mp (hsubject x hx hu)
    · have hu := Schema.field_eq_some hextensionsRead hes
      exact (slot_extensions hconv hu).mp (hextensions _ hes hu) es rfl
  · rintro ⟨hissuer, hsubject, hextensions⟩
    refine ⟨?_, ?_, ?_, ?_, ?_, ?_, ?_, ?_, ?_, ?_, ?_, trivial⟩
    · exact fun u _ hu => (slot_certificateType hconv hu :)
    · exact fun u _ hu => (slot_serialNumber hconv hu :)
    · exact fun u _ hu => (slot_issuerSignatureAlgorithm hconv hu :)
    · exact fun u hlookup hu => (slot_issuer hconv hu).mpr (hissuer u hlookup)
    · exact fun u _ hu => (slot_validityNotBefore hconv hu :)
    · exact fun u _ hu => (slot_validityNotAfter hconv hu :)
    · exact fun u hlookup hu => (slot_subject hconv hu).mpr (hsubject u hlookup)
    · exact fun u _ hu => (slot_subjectPublicKeyAlgorithm hconv hu :)
    · exact fun u _ hu => (slot_subjectPublicKey hconv hu :)
    · intro u hlookup hu
      refine (slot_extensions hconv hu).mpr ?_
      rintro es rfl
      exact hextensions es hlookup
    · exact fun u _ hu => (slot_issuerSignatureValue hconv hu :)

/-- **`from_json` ignores nothing in a strict document, and something in any other** it
accepts: every member of every object takes part in the certificate exactly if no attribute and
no content of an extension has a member that is none of its fields, and no basic constraints
but a CA's have a path length. -/
theorem fromJson_heeds_iff [JsonTexts] [LawfulJsonTexts] {input : String} {v : Value}
    {c : C509Certificate} (htree : JsonTexts.tree input = some v) (h : fromJson input = .ok c) :
    Heeds certificateOf v ↔ StrictDocument v :=
  heeds_certificate ((fromJson_ok_iff htree).mp h)

end

/-! ### A misspelt member -/

/-- A certificate whose subject has a member `printable_strng`, and whose basic constraints have
a path length without a CA. -/
def misspeltDocument (flag pathLen : Value) : Value :=
  .object ([
    ("certificate_type", .integer 3),
    ("serial_number", .string "01"),
    ("issuer_signature_algorithm", .integer 0),
    ("validity_not_before", .string "1970-01-01T00:00:00Z")] ++
    ("subject", .array [.object [("id", .integer 1), ("value", .string "a"),
      ("printable_strng", flag)]]) :: [
    ("subject_public_key_algorithm", .integer 1),
    ("subject_public_key", .string "01"),
    ("extensions", .array [.object [("basic_constraints", .object [("path_len", pathLen)])]]),
    ("issuer_signature_value", .string "01")])

theorem place_misspelt : Place fun w => misspeltDocument w (.integer 0) :=
  .inObject _ "subject" _ (.inArray [] [] (.here [("id", .integer 1), ("value", .string "a")]
    "printable_strng" []))

/-- What is read of it. -/
def misspelt (pathLen : UInt32) : JsonCertificate where
  certificateType := 3
  serialNumber := "01"
  issuerSignatureAlgorithm := 0
  issuer := none
  validityNotBefore := "1970-01-01T00:00:00Z"
  validityNotAfter := none
  subject := .attributes [⟨1, false, "a"⟩]
  subjectPublicKeyAlgorithm := 1
  subjectPublicKey := "01"
  extensions := [.basicConstraints false false (some pathLen)]
  issuerSignatureValue := "01"

theorem deserialize_misspelt (flag : Value) :
    JsonCertificate.deserialize (misspeltDocument flag (.integer 0)) = some (misspelt 0) := rfl

theorem deserialize_otherPathLen (flag : Value) :
    JsonCertificate.deserialize (misspeltDocument flag (.integer 1)) = some (misspelt 1) := rfl

section

variable [Minicbor] [JsonCrates] [MacCrate] [LawfulShortTexts]

theorem converts_misspelt (pathLen : UInt32) : (misspelt pathLen).Converts [0x01] ⟨0⟩ none [0x01]
    [0x01] [⟨.int EXT_BASIC_CONSTRAINTS_ID, false, .basicConstraints .notCa⟩] :=
  ⟨hexBytes_one _, parseTime_zero _, rfl, hexBytes_one _, hexBytes_one _, rfl⟩

def misspeltCertificate : C509Certificate := (misspelt 0).assemble [0x01] ⟨0⟩ none [0x01]
  [0x01] [⟨.int EXT_BASIC_CONSTRAINTS_ID, false, .basicConstraints .notCa⟩]

/-- No value of the misspelt member changes the certificate. -/
theorem certificateOf_misspelt (flag : Value) :
    certificateOf (misspeltDocument flag (.integer 0)) = some misspeltCertificate := by
  unfold certificateOf
  rw [deserialize_misspelt]
  exact (converts_misspelt 0).toOption

/-- Nor does the path length. -/
theorem certificateOf_otherPathLen (flag : Value) :
    certificateOf (misspeltDocument flag (.integer 1)) = some misspeltCertificate := by
  unfold certificateOf
  rw [deserialize_otherPathLen]
  exact (converts_misspelt 1).toOption

theorem not_heeds_misspelt (flag : Value) :
    ¬ Heeds certificateOf (misspeltDocument flag (.integer 0)) := by
  intro h
  refine not_varies (fun w c hw => ?_) (h _ flag place_misspelt rfl)
  rw [certificateOf_misspelt] at hw ⊢
  exact hw

end

def misspeltText : String :=
  "\x7b\"certificate_type\":3,\"serial_number\":\"01\",\"issuer_signature_algorithm\":0," ++
  "\"validity_not_before\":\"1970-01-01T00:00:00Z\"," ++
  "\"subject\":[\x7b\"id\":1,\"value\":\"a\",\"printable_strng\":true\x7d]," ++
  "\"subject_public_key_algorithm\":1,\"subject_public_key\":\"01\"," ++
  "\"extensions\":[\x7b\"basic_constraints\":\x7b\"path_len\":0\x7d\x7d]," ++
  "\"issuer_signature_value\":\"01\"\x7d"

/-- The readers, at the texts of this document. -/
@[reducible] def misspeltTexts : JsonTexts where
  tree s := if s = misspeltText then some (misspeltDocument (.bool true) (.integer 0)) else none

@[reducible] def misspeltCrates : JsonCrates where
  fromStr s :=
    match (misspeltTexts.tree s).bind JsonCertificate.deserialize with
    | some doc => .ok doc
    | none => .error "expected value at line 1 column 1"
  hexDecode s :=
    if s = "00" then .ok [0x00] else if s = "01" then .ok [0x01]
    else .error "Odd number of digits"
  parseRfc3339 s :=
    if s = "1970-01-01T00:00:00Z" then .ok ⟨0⟩
    else if s = "1970-01-01T00:00:01Z" then .ok ⟨1000000000⟩
    else .error "the 'year' component could not be parsed"

theorem misspeltTexts_lawful : @LawfulJsonTexts misspeltTexts misspeltCrates :=
  let _ := misspeltTexts
  let _ := misspeltCrates
  { fromStr_iff := by
      intro s v h doc
      simp only [JsonCrates.fromStr, h, Option.bind_some]
      cases JsonCertificate.deserialize v with
      | none => exact ⟨nofun, nofun⟩
      | some doc' => exact ⟨fun heq => by cases heq; rfl, fun heq => by cases heq; rfl⟩ }

open scoped Reference in
theorem misspeltCrates_lawful : @LawfulShortTexts misspeltCrates _ :=
  let _ := misspeltCrates
  { hexDecode_zero := rfl
    hexDecode_one := rfl
    parseRfc3339_zero := rfl
    parseRfc3339_one := rfl
    parse_a := rfl
    parse_b := rfl }

open scoped Reference in
/-- The document is accepted, and neither the misspelt member nor the path length takes part in
its certificate. -/
theorem fromJson_ignores_misspelt : ∃ (_ : JsonTexts) (_ : JsonCrates) (_ : LawfulJsonTexts)
    (_ : LawfulShortTexts) (c : C509Certificate),
      JsonTexts.tree misspeltText = some (misspeltDocument (.bool true) (.integer 0)) ∧
        fromJson misspeltText = .ok c ∧
          (∀ w, certificateOf (misspeltDocument w (.integer 0)) = some c) ∧
            certificateOf (misspeltDocument (.bool true) (.integer 1)) = some c ∧
              ¬ Heeds certificateOf (misspeltDocument (.bool true) (.integer 0)) := by
  let _ := misspeltTexts
  let _ := misspeltCrates
  have := misspeltTexts_lawful
  have := misspeltCrates_lawful
  have htree : JsonTexts.tree misspeltText =
    some (misspeltDocument (.bool true) (.integer 0)) := if_pos rfl
  exact ⟨misspeltTexts, misspeltCrates, misspeltTexts_lawful, misspeltCrates_lawful,
    misspeltCertificate, htree, (fromJson_ok_iff htree).mpr (certificateOf_misspelt _),
    certificateOf_misspelt, certificateOf_otherPathLen _, not_heeds_misspelt _⟩

open scoped Reference in
theorem fromJson_heeds_iff_misspelt : ∃ (_ : JsonTexts) (_ : JsonCrates),
    Heeds certificateOf (misspeltDocument (.bool true) (.integer 0)) ↔
      StrictDocument (misspeltDocument (.bool true) (.integer 0)) := by
  let _ := misspeltTexts
  let _ := misspeltCrates
  have := misspeltTexts_lawful
  have := misspeltCrates_lawful
  have htree : JsonTexts.tree misspeltText =
    some (misspeltDocument (.bool true) (.integer 0)) := if_pos rfl
  exact ⟨misspeltTexts, misspeltCrates,
    fromJson_heeds_iff htree ((fromJson_ok_iff htree).mpr (certificateOf_misspelt _))⟩

end C509
