/-
What `from_json` reads of a document (the derives of `cert_json.rs`).

The certificate denies members it has no field for; the attributes of its names and the
contents of its extensions do not, and skip them.  One field is read and then dropped: the
path length of basic constraints that are no CA's.  These are the members `from_json` ignores,
and the only ones: another value of any other member gives another certificate.
-/
import C509Cert.CertJson
import C509Cert.Serde.Reader

namespace C509

open Cbor Serde Reader

/-! ### Readers -/

namespace CertJson

def u16 : Reader UInt16 :=
  integer fun n => if 0 ≤ n ∧ n < 2 ^ 16 then some (UInt16.ofNat n.toNat) else none

def u32 : Reader UInt32 :=
  integer fun n => if 0 ≤ n ∧ n < 2 ^ 32 then some (UInt32.ofNat n.toNat) else none

def i32 : Reader Int32 :=
  integer fun n => if -2 ^ 31 ≤ n ∧ n < 2 ^ 31 then some (Int32.ofInt n) else none

theorem u16_zero : u16 (.integer 0) = some 0 := rfl
theorem u16_one : u16 (.integer 1) = some 1 := rfl
theorem u32_zero : u32 (.integer 0) = some 0 := rfl
theorem u32_one : u32 (.integer 1) = some 1 := rfl
theorem i32_zero : i32 (.integer 0) = some 0 := rfl
theorem i32_one : i32 (.integer 1) = some 1 := rfl

end CertJson

open CertJson

def JsonRdnAttribute.fields : Schema (UInt16 × Bool × String × Unit) :=
  .cons "id" u16 none <|
  .cons "printable_string" bool (some false) <|
  .cons "value" string none .nil

def JsonRdnAttribute.deserialize : Reader JsonRdnAttribute := fun v =>
  (struct false fields v).map fun (id, printableString, value, _) => { id, printableString, value }

/-- An untagged enumeration: a string is a common name. -/
def JsonName.deserialize : Reader JsonName
  | .string s => some (.commonName s)
  | v => (list JsonRdnAttribute.deserialize v).map .attributes

namespace JsonExtension

def basicConstraintsFields : Schema (Bool × Bool × Option UInt32 × Unit) :=
  .cons "critical" bool (some false) <|
  .cons "ca" bool (some false) <|
  .cons "path_len" (option u32) (some none) .nil

/-- The flag, and one field that is required. -/
def flagged {α : Type} (name : String) (r : Reader α) : Schema (Bool × α × Unit) :=
  .cons "critical" bool (some false) <| .cons name r none .nil

def keyUsageFields : Schema (Bool × UInt32 × Unit) := flagged "value" u32

def subjectAltNameFields : Schema (Bool × List String × Unit) := flagged "dns_names" (list string)

def authorityKeyIdentifierFields : Schema (Bool × String × Unit) :=
  flagged "key_identifier" string

def extKeyUsageFields : Schema (Bool × List Int32 × Unit) := flagged "oids" (list i32)

def readBasicConstraints : Reader JsonExtension := fun v =>
  (struct false basicConstraintsFields v).map
    fun (critical, ca, pathLen, _) => .basicConstraints critical ca pathLen

/-- The tags, in snake case, with the contents they announce. -/
def variants : List (String × Reader JsonExtension) := [
  ("basic_constraints", readBasicConstraints),
  ("key_usage", fun v => (struct false keyUsageFields v).map
    fun (critical, value, _) => .keyUsage critical value),
  ("subject_alt_name", fun v => (struct false subjectAltNameFields v).map
    fun (critical, dnsNames, _) => .subjectAltName critical dnsNames),
  ("authority_key_identifier", fun v => (struct false authorityKeyIdentifierFields v).map
    fun (critical, keyIdentifier, _) => .authorityKeyIdentifier critical keyIdentifier),
  ("ext_key_usage", fun v => (struct false extKeyUsageFields v).map
    fun (critical, oids, _) => .extKeyUsage critical oids)]

def deserialize : Reader JsonExtension := tagged variants

end JsonExtension

namespace JsonCertificate

def fields : Schema (Int32 × String × Int32 × Option JsonName × String × Option String ×
    JsonName × Int32 × String × List JsonExtension × String × Unit) :=
  .cons "certificate_type" i32 none <|
  .cons "serial_number" string none <|
  .cons "issuer_signature_algorithm" i32 none <|
  .cons "issuer" (option JsonName.deserialize) (some none) <|
  .cons "validity_not_before" string none <|
  .cons "validity_not_after" (option string) (some none) <|
  .cons "subject" JsonName.deserialize none <|
  .cons "subject_public_key_algorithm" i32 none <|
  .cons "subject_public_key" string none <|
  .cons "extensions" (list JsonExtension.deserialize) (some []) <|
  .cons "issuer_signature_value" string none .nil

/-- The only container with `deny_unknown_fields`. -/
def deserialize : Reader JsonCertificate := fun v =>
  (struct true fields v).map
    fun (certificateType, serialNumber, issuerSignatureAlgorithm, issuer, validityNotBefore,
        validityNotAfter, subject, subjectPublicKeyAlgorithm, subjectPublicKey, extensions,
        issuerSignatureValue, _) =>
      { certificateType, serialNumber, issuerSignatureAlgorithm, issuer, validityNotBefore,
        validityNotAfter, subject, subjectPublicKeyAlgorithm, subjectPublicKey, extensions,
        issuerSignatureValue }

end JsonCertificate

/-! ### Documents and texts -/

/-- The certificate of a document, where it is accepted. -/
def certificateOf [Minicbor] [JsonCrates] [MacCrate] : Reader C509Certificate := fun v =>
  (JsonCertificate.deserialize v).bind fun doc => doc.intoCertificate.toOption

/-- The trees of JSON texts. -/
class JsonTexts where
  tree : String → Option Value

/-- A text is read as its tree. -/
class LawfulJsonTexts [JsonTexts] [JsonCrates] : Prop where
  fromStr_iff {s : String} {v : Value} (h : JsonTexts.tree s = some v) (doc : JsonCertificate) :
    JsonCrates.fromStr s = .ok doc ↔ JsonCertificate.deserialize v = some doc

/-- Two short texts in hex, two times, and two texts that are no MAC addresses. -/
class LawfulShortTexts [JsonCrates] [MacCrate] : Prop where
  hexDecode_zero : JsonCrates.hexDecode "00" = .ok [0x00]
  hexDecode_one : JsonCrates.hexDecode "01" = .ok [0x01]
  parseRfc3339_zero : JsonCrates.parseRfc3339 "1970-01-01T00:00:00Z" = .ok ⟨0⟩
  parseRfc3339_one : JsonCrates.parseRfc3339 "1970-01-01T00:00:01Z" = .ok ⟨1000000000⟩
  parse_a : MacCrate.parse "a" = none
  parse_b : MacCrate.parse "b" = none

section

variable [Minicbor] [JsonTexts] [JsonCrates] [MacCrate] [LawfulJsonTexts]

theorem fromJson_ok_iff {input : String} {v : Value} (h : JsonTexts.tree input = some v)
    {c : C509Certificate} : fromJson input = .ok c ↔ certificateOf v = some c := by
  have hdoc := LawfulJsonTexts.fromStr_iff h
  unfold fromJson certificateOf
  cases hread : JsonCertificate.deserialize v with
  | none =>
      cases hstr : JsonCrates.fromStr input with
      | error e => exact ⟨nofun, nofun⟩
      | ok doc => exact absurd (((hdoc doc).mp hstr).symm.trans hread) nofun
  | some doc =>
      rw [(hdoc doc).mpr hread]
      show doc.intoCertificate = .ok c ↔ doc.intoCertificate.toOption = some c
      cases doc.intoCertificate with
      | error e => exact ⟨nofun, nofun⟩
      | ok c' => exact ⟨fun h => by cases h; rfl, fun h => by cases h; rfl⟩

end

end C509
