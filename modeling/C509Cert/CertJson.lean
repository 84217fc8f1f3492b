/-
Certificates from JSON (`cert_json.rs`).

The JSON reader, hex, and RFC 3339 belong to other crates and are parameters; what they
return is taken to be held in memory.  `from_json` checks their results and nothing else:
path lengths, keyUsage values, attribute ids and times go to the encoders as they are.
Which documents survive the wire is settled here exactly.
-/
import C509Cert.Conversion

namespace C509

open Cbor Codec

/-! ### Documents -/

/-- `JsonRdnAttribute` -/
structure JsonRdnAttribute where
  id : UInt16
  printableString : Bool
  value : String
  deriving DecidableEq

/-- `JsonName`: a bare common name, or a list of attributes. -/
inductive JsonName
  | commonName (s : String)
  | attributes (attrs : List JsonRdnAttribute)
  deriving DecidableEq

/-- `JsonExtension` -/
inductive JsonExtension
  | basicConstraints (critical ca : Bool) (pathLen : Option UInt32)
  | keyUsage (critical : Bool) (value : UInt32)
  | subjectAltName (critical : Bool) (dnsNames : List String)
  | authorityKeyIdentifier (critical : Bool) (keyIdentifier : String)
  | extKeyUsage (critical : Bool) (oids : List Int32)
  deriving DecidableEq

/-- `JsonCertificate` -/
structure JsonCertificate where
  certificateType : Int32
  serialNumber : String
  issuerSignatureAlgorithm : Int32
  issuer : Option JsonName
  validityNotBefore : String
  validityNotAfter : Option String
  subject : JsonName
  subjectPublicKeyAlgorithm : Int32
  subjectPublicKey : String
  extensions : List JsonExtension
  issuerSignatureValue : String
  deriving DecidableEq

/-! ### What is held in memory

A string has fewer than `2^64` bytes, and a list of attributes or extensions, which take
more than two bytes each, fewer than `2^63` elements.
-/

def JsonName.InMemory : JsonName → Prop
  | .commonName s => (utf8 s).length < 2 ^ 64
  | .attributes attrs => attrs.length * 2 < 2 ^ 64 ∧ ∀ a ∈ attrs, (utf8 a.value).length < 2 ^ 64

def JsonExtension.InMemory : JsonExtension → Prop
  | .subjectAltName _ names => names.length * 2 < 2 ^ 64 ∧ ∀ s ∈ names, (utf8 s).length < 2 ^ 64
  | .extKeyUsage _ oids => oids.length < 2 ^ 64
  | _ => True

structure JsonCertificate.InMemory (doc : JsonCertificate) : Prop where
  issuer : ∀ name ∈ doc.issuer, name.InMemory
  subject : doc.subject.InMemory
  extensions : doc.extensions.length * 2 < 2 ^ 64 ∧ ∀ e ∈ doc.extensions, e.InMemory

/-- The functions of other crates `from_json` calls. -/
class JsonCrates where
  /-- `serde_json::from_str`, at `JsonCertificate` -/
  fromStr : String → Except String JsonCertificate
  /-- `hex::decode` -/
  hexDecode : String → Except String Bytes
  /-- `OffsetDateTime::parse`, with `Rfc3339` -/
  parseRfc3339 : String → Except String OffsetDateTime

/-- What they return is held in memory. -/
class LawfulJsonCrates [JsonCrates] : Prop where
  fromStr_inMemory {s : String} {doc : JsonCertificate} (h : JsonCrates.fromStr s = .ok doc) :
    doc.InMemory
  hexDecode_length {s : String} {b : Bytes} (h : JsonCrates.hexDecode s = .ok b) :
    b.length < 2 ^ 64

/-! ### Conversion -/

/-- `char::is_whitespace` -/
def isWhitespace (c : Char) : Bool :=
  (0x09 ≤ c.toNat && c.toNat ≤ 0x0d) || c.toNat == 0x20 || c.toNat == 0x85 || c.toNat == 0xa0 ||
    c.toNat == 0x1680 || (0x2000 ≤ c.toNat && c.toNat ≤ 0x200a) || c.toNat == 0x2028 ||
    c.toNat == 0x2029 || c.toNat == 0x202f || c.toNat == 0x205f || c.toNat == 0x3000

/-- A string without its whitespace. -/
def cleaned (s : String) : String := String.ofList (s.toList.filter fun c => !isWhitespace c)

def JsonName.intoName [MacCrate] : JsonName → Name
  | .commonName s => ⟨[.registered COMMON_NAME_ID false (specialText s)]⟩
  | .attributes attrs =>
      ⟨attrs.map fun a => .registered a.id a.printableString (specialText a.value)⟩

section

variable [Minicbor] [JsonCrates]

/-- `hex_bytes` -/
def hexBytes (field s : String) : Except Error Bytes :=
  match JsonCrates.hexDecode (cleaned s) with
  | .ok b => .ok b
  | .error e => .error (.json s!"{field}: invalid hex: {e}")

/-- `OffsetDateTime::parse`, with the error of a field. -/
def parseTime (field s : String) : Except Error OffsetDateTime :=
  match JsonCrates.parseRfc3339 s with
  | .ok t => .ok t
  | .error e => .error (.json s!"{field}: {e}")

def parseOptTime (field : String) : Option String → Except Error (Option OffsetDateTime)
  | none => .ok none
  | some s => do return some (← parseTime field s)

def JsonExtension.intoExtension : JsonExtension → Except Error Extension
  | .basicConstraints critical ca pathLen =>
      .ok { id := .int EXT_BASIC_CONSTRAINTS_ID, critical,
            value := .basicConstraints (if ca then .ca pathLen else .notCa) }
  | .keyUsage critical value =>
      .ok { id := .int EXT_KEY_USAGE_ID, critical, value := .keyUsage value }
  | .subjectAltName critical dnsNames =>
      .ok { id := .int EXT_SUBJECT_ALT_NAME_ID, critical,
            value := .subjectAltName (dnsGeneralNames dnsNames) }
  | .authorityKeyIdentifier critical keyIdentifier => do
      let keyIdentifier ← hexBytes "authority_key_identifier.key_identifier" keyIdentifier
      return { id := .int EXT_AUTHORITY_KEY_IDENTIFIER_ID, critical,
               value := .authorityKeyIdentifier
                { keyIdentifier, certIssuer := none, certSerial := none } }
  | .extKeyUsage critical oids =>
      .ok { id := .int EXT_EXT_KEY_USAGE_ID, critical,
            value := .extKeyUsage ⟨oids.map IntOrOid.int⟩ }

variable [MacCrate]

def JsonCertificate.intoCertificate (doc : JsonCertificate) : Except Error C509Certificate := do
  let serial ← hexBytes "serial_number" doc.serialNumber
  let validityNotBefore ← parseTime "validity_not_before" doc.validityNotBefore
  let validityNotAfter ← parseOptTime "validity_not_after" doc.validityNotAfter
  let subjectPublicKey ← hexBytes "subject_public_key" doc.subjectPublicKey
  let issuerSignatureValue ← hexBytes "issuer_signature_value" doc.issuerSignatureValue
  let extensions ← doc.extensions.mapM JsonExtension.intoExtension
  return {
    tbs := {
      c509CertificateType := doc.certificateType
      certificateSerialNumber := BigUint.fromBytesBe serial
      issuerSignatureAlgorithm := .int doc.issuerSignatureAlgorithm
      issuer := doc.issuer.map JsonName.intoName
      validityNotBefore
      validityNotAfter
      subject := doc.subject.intoName
      subjectPublicKeyAlgorithm := .int doc.subjectPublicKeyAlgorithm
      subjectPublicKey
      extensions := ⟨extensions⟩ }
    issuerSignatureValue }

/-- `from_json` -/
def fromJson (input : String) : Except Error C509Certificate :=
  match JsonCrates.fromStr input with
  | .ok json => json.intoCertificate
  | .error e => .error (.json s!"invalid JSON: {e}")

/-! ### Documents the wire can express -/

/-- No attribute of id 0 is a printable string. -/
def JsonName.Representable : JsonName → Prop
  | .commonName _ => True
  | .attributes attrs => ∀ a ∈ attrs, ¬ (a.id = 0 ∧ a.printableString = true)

/-- The path length of a CA fits an `i32`. -/
def JsonExtension.Representable : JsonExtension → Prop
  | .basicConstraints _ true (some n) => n.toNat < 2 ^ 31
  | _ => True

/-- What the wire can express of a document. -/
structure JsonCertificate.Representable (doc : JsonCertificate) : Prop where
  /-- whole seconds from 1970 to 9999 -/
  notBefore : ∀ t, JsonCrates.parseRfc3339 doc.validityNotBefore = .ok t → t.Valid
  notAfter : ∀ s ∈ doc.validityNotAfter, ∀ t, JsonCrates.parseRfc3339 s = .ok t → t.Valid
  issuer : ∀ name ∈ doc.issuer, name.Representable
  subject : doc.subject.Representable
  pathLens : ∀ e ∈ doc.extensions, e.Representable
  /-- a keyUsage alone fits an `i32`, and is not critical with value 0 -/
  keyUsage : ∀ critical value, doc.extensions = [.keyUsage critical value] →
    value.toNat < 2 ^ 31 ∧ ¬ (critical = true ∧ value = 0)

omit [MacCrate] in
theorem hexBytes_length [LawfulJsonCrates] {field s : String} {b : Bytes}
    (h : hexBytes field s = .ok b) : b.length < 2 ^ 64 := by
  unfold hexBytes at h
  split at h
  · cases h
    exact LawfulJsonCrates.hexDecode_length ‹_›
  · cases h

omit [MacCrate] in
theorem parseTime_eq_ok {field s : String} {t : OffsetDateTime} :
    parseTime field s = .ok t ↔ JsonCrates.parseRfc3339 s = .ok t := by
  unfold parseTime
  split <;> rename_i heq
  · rw [heq]
    constructor
    · rintro ⟨⟩
      rfl
    · rintro ⟨⟩
      rfl
  · rw [heq]
    exact ⟨fun h => (by cases h), fun h => (by cases h)⟩

omit [MacCrate] in
theorem parseOptTime_valid_iff {field : String} {o : Option String} {after : Option OffsetDateTime}
    (h : parseOptTime field o = .ok after) :
    (∀ t ∈ after, t.Valid) ↔ ∀ s ∈ o, ∀ t, JsonCrates.parseRfc3339 s = .ok t → t.Valid := by
  cases o with
  | none =>
      cases h
      exact ⟨fun _ _ hs => (by cases hs), fun _ _ ht => (by cases ht)⟩
  | some s =>
      obtain ⟨t, ht, hpure⟩ := bind_eq_ok.mp h
      cases hpure
      have hparsed := parseTime_eq_ok.mp ht
      constructor
      · rintro hvalid _ ⟨⟩ t' ht'
        obtain rfl := Except.ok.inj (ht'.symm.trans hparsed)
        exact hvalid _ rfl
      · rintro hall _ ⟨⟩
        exact hall s rfl t hparsed

variable [OidCrate] [LawfulMinicbor] {D : Demands}

omit [JsonCrates] [OidCrate] in
theorem JsonName.intoName_valid_iff {name : JsonName} (h : name.InMemory) :
    name.intoName.Valid D ↔ name.Representable := by
  cases name with
  | commonName s =>
      refine ⟨fun _ => trivial, fun _ => ⟨by simp [intoName], fun a ha => ?_⟩⟩
      rw [List.mem_singleton.mp ha]
      exact ⟨fun h0 => absurd h0.2 (by decide), specialText_valid h⟩
  | attributes attrs =>
      constructor
      · intro hvalid a ha
        exact (hvalid.2 _ (List.mem_map_of_mem ha)).1
      · intro hrep
        refine ⟨by rw [intoName, List.length_map]; exact h.1, fun a ha => ?_⟩
        obtain ⟨j, hj, rfl⟩ := List.mem_map.mp ha
        exact ⟨hrep j hj, specialText_valid (h.2 j hj)⟩

omit [JsonCrates] [OidCrate] in
theorem optionalName_valid_iff {issuer : Option JsonName} (h : ∀ name ∈ issuer, name.InMemory) :
    Name.OptionalValid D (issuer.map JsonName.intoName) ↔ ∀ name ∈ issuer, name.Representable := by
  cases issuer with
  | none => exact ⟨fun _ _ hname => (by cases hname), fun _ _ hname => (by cases hname)⟩
  | some name =>
      have hiff := JsonName.intoName_valid_iff (D := D) (h name rfl)
      constructor
      · rintro hvalid _ ⟨⟩
        exact hiff.mp (hvalid _ rfl)
      · rintro hrep _ ⟨⟩
        exact hiff.mpr (hrep name rfl)

omit [MacCrate] [OidCrate] in
/-- The one field of an extension that is checked too late is the path length. -/
theorem JsonExtension.intoExtension_valid_iff [LawfulJsonCrates] {j : JsonExtension}
    {e : Extension} (hmem : j.InMemory) (h : j.intoExtension = .ok e) :
    e.Valid D ↔ j.Representable := by
  cases j with
  | basicConstraints critical ca pathLen =>
      cases h
      refine Iff.trans (Extension.valid_int (by decide) ?_) ?_
      · rfl
      · match ca, pathLen with
        | false, _ => exact ⟨fun _ => trivial, fun _ => trivial⟩
        | true, none => exact ⟨fun _ => trivial, fun _ => trivial⟩
        | true, some n => exact Iff.rfl
  | keyUsage critical value =>
      cases h
      refine Iff.trans (Extension.valid_int (by decide) ?_) ?_
      · rfl
      · exact ⟨fun _ => trivial, fun _ => trivial⟩
  | subjectAltName critical dnsNames =>
      cases h
      refine Iff.trans (Extension.valid_int (by decide) ?_) ?_
      · rfl
      · exact ⟨fun _ => trivial, fun _ => dnsGeneralNames_valid hmem.1 hmem.2⟩
  | authorityKeyIdentifier critical keyIdentifier =>
      obtain ⟨b, hb, hpure⟩ := bind_eq_ok.mp h
      cases hpure
      refine Iff.trans (Extension.valid_int (by decide) ?_) ?_
      · rfl
      · exact ⟨fun _ => trivial, fun _ => ⟨hexBytes_length hb, rfl, by simp, by simp⟩⟩
  | extKeyUsage critical oids =>
      cases h
      refine Iff.trans (Extension.valid_int (by decide) ?_) ?_
      · rfl
      · exact ⟨fun _ => trivial, fun _ => intPurposes_valid hmem⟩

omit [MacCrate] [OidCrate] [LawfulMinicbor] in
theorem JsonExtension.intoExtension_fits {j : JsonExtension} {e : Extension}
    (h : j.intoExtension = .ok e) : e.IdFits ∧ e.value.NoHostBits := by
  cases j with
  | authorityKeyIdentifier critical keyIdentifier =>
      obtain ⟨b, -, hpure⟩ := bind_eq_ok.mp h
      cases hpure
      exact ⟨fun h => absurd (IntOrOid.int.inj h) (by decide), trivial⟩
  | _ =>
      cases h
      exact ⟨fun h => absurd (IntOrOid.int.inj h) (by decide), trivial⟩

omit [MacCrate] [OidCrate] [LawfulMinicbor] in
/-- A keyUsage alone comes from a document with a keyUsage alone. -/
theorem bareKeyUsage_iff_of_json {l : List JsonExtension} {exts : List Extension}
    (h : List.Forall₂ (fun j e => j.intoExtension = .ok e) l exts) {critical : Bool} {n : UInt32} :
    (⟨exts⟩ : Extensions).bareKeyUsage = some (critical, n) ↔ l = [.keyUsage critical n] := by
  rw [Extensions.bareKeyUsage_eq_some]
  constructor
  · intro hexts
    obtain rfl := congrArg Extensions.exts hexts
    obtain ⟨j, l', hj, hnil, rfl⟩ := List.forall₂_cons_right_iff.mp h
    cases hnil
    cases j with
    | keyUsage critical' value => cases hj; rfl
    | authorityKeyIdentifier critical' keyIdentifier =>
        obtain ⟨b, -, hpure⟩ := bind_eq_ok.mp hj
        cases hpure
    | _ => cases hj
  · rintro rfl
    obtain ⟨e, l', he, hnil, rfl⟩ := List.forall₂_cons_left_iff.mp h
    cases hnil
    cases he
    rfl

omit [MacCrate] [OidCrate] [LawfulMinicbor] in
theorem JsonExtension.intoExtension_expressible {j : JsonExtension} {e : Extension}
    (h : j.intoExtension = .ok e) : e.Expressible := by
  cases j with
  | basicConstraints critical ca pathLen => cases h; exact .basicConstraints critical _
  | keyUsage critical value => cases h; exact .keyUsage critical value
  | subjectAltName critical names => cases h; exact .subjectAltName critical names
  | authorityKeyIdentifier critical text =>
      obtain ⟨keyIdentifier, -, hpure⟩ := bind_eq_ok.mp h
      cases hpure
      exact .authorityKeyIdentifier critical keyIdentifier
  | extKeyUsage critical ids => cases h; exact .extKeyUsage critical ids

omit [Minicbor] [JsonCrates] [OidCrate] [LawfulMinicbor] in
theorem JsonName.intoName_expressible (name : JsonName) : name.intoName.Expressible := by
  intro a ha
  cases name with
  | commonName s =>
      rw [List.mem_singleton.mp ha]
      exact ⟨COMMON_NAME_ID, false, s, rfl⟩
  | attributes attrs =>
      obtain ⟨j, -, rfl⟩ := List.mem_map.mp ha
      exact ⟨j.id, j.printableString, j.value, rfl⟩

omit [OidCrate] [LawfulMinicbor] in
theorem JsonCertificate.intoCertificate_converted {doc : JsonCertificate} {c : C509Certificate}
    (h : doc.intoCertificate = .ok c) : c.Converted := by
  obtain ⟨serial, hserial, h₁⟩ := bind_eq_ok.mp h
  obtain ⟨before, hbefore, h₂⟩ := bind_eq_ok.mp h₁
  obtain ⟨after, hafter, h₃⟩ := bind_eq_ok.mp h₂
  obtain ⟨key, hkey, h₄⟩ := bind_eq_ok.mp h₃
  obtain ⟨value, hvalue, h₅⟩ := bind_eq_ok.mp h₄
  obtain ⟨exts, hmap, h₆⟩ := bind_eq_ok.mp h₅
  cases h₆
  exact {
    signatureAlgorithm := ⟨_, rfl⟩
    issuer := fun name hname => by
      obtain ⟨j, -, rfl⟩ := Option.map_eq_some_iff.mp hname
      exact j.intoName_expressible
    subject := doc.subject.intoName_expressible
    publicKeyAlgorithm := ⟨_, rfl⟩
    extensions := forall₂_right (mapM_eq_ok hmap) fun j e he => j.intoExtension_expressible he }

/-- **A converted document survives the wire exactly where the wire can express it.** -/
theorem JsonCertificate.roundTrips_iff [LawfulOid] [LawfulJsonCrates] {doc : JsonCertificate}
    {c : C509Certificate} (hmem : doc.InMemory) (h : doc.intoCertificate = .ok c) :
    c.RoundTrips ↔ doc.Representable := by
  refine (C509Certificate.roundTrips_iff (doc.intoCertificate_converted h).valid).trans ?_
  obtain ⟨serial, hserial, h₁⟩ := bind_eq_ok.mp h
  obtain ⟨before, hbefore, h₂⟩ := bind_eq_ok.mp h₁
  obtain ⟨after, hafter, h₃⟩ := bind_eq_ok.mp h₂
  obtain ⟨key, hkey, h₄⟩ := bind_eq_ok.mp h₃
  obtain ⟨value, hvalue, h₅⟩ := bind_eq_ok.mp h₄
  obtain ⟨exts, hmap, h₆⟩ := bind_eq_ok.mp h₅
  cases h₆
  have hforall := mapM_eq_ok hmap
  obtain ⟨hlen, hexts⟩ := hmem.extensions
  have hvalid : (∀ e ∈ exts, e.Valid .readBack) ↔ ∀ j ∈ doc.extensions, j.Representable :=
    forall₂_all_iff hforall fun j hj e he => JsonExtension.intoExtension_valid_iff (hexts j hj) he
  rw [C509Certificate.wireConsistent_iff
    (BigUint.valid_fromBytesBe (hexBytes_length hserial)) (by trivial) (by trivial)
    (hexBytes_length hkey) (hexBytes_length hvalue) (by rw [← hforall.length_eq]; exact hlen)
    (forall₂_right hforall fun _ _ he => (JsonExtension.intoExtension_fits he).1)
    (forall₂_right hforall fun _ _ he => (JsonExtension.intoExtension_fits he).2)]
  have hbefore' := parseTime_eq_ok.mp hbefore
  constructor
  · rintro ⟨hissuer, htime, htimes, hsubject, hall, hbare⟩
    exact {
      notBefore := fun t ht => by rwa [Except.ok.inj (ht.symm.trans hbefore')]
      notAfter := (parseOptTime_valid_iff hafter).mp htimes
      issuer := (optionalName_valid_iff hmem.issuer).mp hissuer
      subject := (JsonName.intoName_valid_iff hmem.subject).mp hsubject
      pathLens := hvalid.mp hall
      keyUsage := fun critical n hn =>
        hbare critical n ((bareKeyUsage_iff_of_json hforall).mpr hn) }
  · rintro ⟨htime, htimes, hissuer, hsubject, hall, hbare⟩
    exact ⟨(optionalName_valid_iff hmem.issuer).mpr hissuer, htime before hbefore',
      (parseOptTime_valid_iff hafter).mpr htimes,
      (JsonName.intoName_valid_iff hmem.subject).mpr hsubject, hvalid.mpr hall,
      fun critical n hn => hbare critical n ((bareKeyUsage_iff_of_json hforall).mp hn)⟩

omit [LawfulMinicbor] [OidCrate] in
theorem fromJson_eq {input : String} {doc : JsonCertificate}
    (h : JsonCrates.fromStr input = .ok doc) : fromJson input = doc.intoCertificate := by
  unfold fromJson
  rw [h]

/-- **`from_json` keeps its promise exactly on the documents the wire can express.** -/
theorem fromJson_roundTrips_iff [LawfulOid] [LawfulJsonCrates] {input : String}
    {doc : JsonCertificate} {c : C509Certificate} (hdoc : JsonCrates.fromStr input = .ok doc)
    (h : fromJson input = .ok c) : c.RoundTrips ↔ doc.Representable := by
  rw [fromJson_eq hdoc] at h
  exact JsonCertificate.roundTrips_iff (LawfulJsonCrates.fromStr_inMemory hdoc) h

end

/-! ### Two documents -/

/-- A certificate with one extension, of a subject with an e-mail address. -/
def JsonCertificate.small (printableString : Bool) (e : JsonExtension) : JsonCertificate where
  certificateType := 3
  serialNumber := "05"
  issuerSignatureAlgorithm := 0
  issuer := none
  validityNotBefore := "1970-01-01T00:00:00Z"
  validityNotAfter := none
  subject := .attributes [⟨0, printableString, "a@b"⟩]
  subjectPublicKeyAlgorithm := 1
  subjectPublicKey := "05"
  extensions := [e]
  issuerSignatureValue := "05"

/-- A certificate of an authority with path length `2^31`, as JSON. -/
def longPathText : String :=
  "\x7b\"certificate_type\":3,\"serial_number\":\"05\",\"issuer_signature_algorithm\":0," ++
  "\"validity_not_before\":\"1970-01-01T00:00:00Z\"," ++
  "\"subject\":[\x7b\"id\":0,\"value\":\"a@b\"\x7d]," ++
  "\"subject_public_key_algorithm\":1,\"subject_public_key\":\"05\"," ++
  "\"extensions\":[\x7b\"basic_constraints\":\x7b\"ca\":true,\"path_len\":2147483648\x7d\x7d]," ++
  "\"issuer_signature_value\":\"05\"\x7d"

/-- A certificate of a subject with a printable e-mail address, as JSON. -/
def printableEmailText : String :=
  "\x7b\"certificate_type\":3,\"serial_number\":\"05\",\"issuer_signature_algorithm\":0," ++
  "\"validity_not_before\":\"1970-01-01T00:00:00Z\"," ++
  "\"subject\":[\x7b\"id\":0,\"printable_string\":true,\"value\":\"a@b\"\x7d]," ++
  "\"subject_public_key_algorithm\":1,\"subject_public_key\":\"05\"," ++
  "\"extensions\":[\x7b\"key_usage\":\x7b\"value\":5\x7d\x7d]," ++
  "\"issuer_signature_value\":\"05\"\x7d"

namespace Reference

/-- The JSON, hex and time readers, at the texts of the two documents. -/
scoped instance jsonCrates : JsonCrates where
  fromStr s :=
    if s = longPathText then .ok (.small false (.basicConstraints false true (some 2147483648)))
    else if s = printableEmailText then .ok (.small true (.keyUsage false 5))
    else .error "expected value at line 1 column 1"
  hexDecode s := if s = "05" then .ok [0x05] else .error "Odd number of digits"
  parseRfc3339 s :=
    if s = "1970-01-01T00:00:00Z" then .ok ⟨0⟩
    else .error "the 'year' component could not be parsed"

scoped instance lawfulJsonCrates : LawfulJsonCrates where
  fromStr_inMemory {s doc} h := by
    have hattrs (p : Bool) (e : JsonExtension) (he : e.InMemory) :
        (JsonCertificate.small p e).InMemory := {
      issuer := fun _ hname => by cases hname
      subject := by
        refine ⟨by show 1 * 2 < 2 ^ 64; decide, fun a ha => ?_⟩
        rw [List.mem_singleton.mp ha]
        show (utf8 "a@b").length < 2 ^ 64
        decide
      extensions := by
        refine ⟨by show 1 * 2 < 2 ^ 64; decide, fun e' he' => ?_⟩
        rwa [List.mem_singleton.mp he'] }
    simp only [JsonCrates.fromStr] at h
    split at h
    · cases h
      exact hattrs _ _ trivial
    · split at h
      · cases h
        exact hattrs _ _ trivial
      · cases h
  hexDecode_length {s b} h := by
    simp only [JsonCrates.hexDecode] at h
    split at h
    · cases h
      decide
    · cases h

end Reference

open scoped Reference in
theorem fromStr_longPath : JsonCrates.fromStr longPathText =
    .ok (.small false (.basicConstraints false true (some 2147483648))) := if_pos rfl

open scoped Reference in
theorem fromStr_printableEmail : JsonCrates.fromStr printableEmailText =
    .ok (.small true (.keyUsage false 5)) := by
  have hne : printableEmailText ≠ longPathText := by decide +kernel
  exact (if_neg hne).trans (if_pos rfl)

open scoped Reference in
/-- The path length panics; the printable e-mail address comes back as another string. -/
theorem fromJson_not_representable :
    (∃ c, fromJson longPathText = .ok c ∧
      c.encode = .panicked "Vec<u8> writer is infallible" ∧
      c.encodeSequence = .panicked "Vec<u8> writer is infallible") ∧
    ∃ c b c', fromJson printableEmailText = .ok c ∧ c.encode = .returned b ∧
      C509Certificate.decode b = .ok c' ∧ c' ≠ c :=
  ⟨⟨_, (fromJson_eq fromStr_longPath).trans rfl, rfl, rfl⟩,
    _, _, _, (fromJson_eq fromStr_printableEmail).trans rfl, rfl, rfl, by decide⟩

open scoped Reference in
theorem fromJson_roundTrips_iff_email :
    ∃ c, fromJson printableEmailText = .ok c ∧
      (c.RoundTrips ↔ (JsonCertificate.small true (.keyUsage false 5)).Representable) := by
  obtain ⟨c, hc⟩ : ∃ c, fromJson printableEmailText = .ok c :=
    ⟨_, (fromJson_eq fromStr_printableEmail).trans rfl⟩
  exact ⟨c, hc, fromJson_roundTrips_iff fromStr_printableEmail hc⟩

end C509
