/-
Which documents are accepted, and which field a refusal names.

A document has a list of fields that must be hex or a time.  `from_json` goes through it in the
order of the source and stops at the first that is not: what it returns is decided by the list,
and nothing else in a document can make it fail.
-/
import C509Cert.CertJson
import C509Cert.Codec.Stops

namespace C509

open Cbor Codec

/-! ### Fields that are checked -/

/-- A field, and what its text must be. -/
inductive JsonCheck
  | hex (field text : String)
  | time (field text : String)

def JsonExtension.checks : JsonExtension → List JsonCheck
  | .authorityKeyIdentifier _ keyIdentifier =>
      [.hex "authority_key_identifier.key_identifier" keyIdentifier]
  | _ => []

/-- The checks of a document, in the order in which they are made. -/
def JsonCertificate.checks (doc : JsonCertificate) : List JsonCheck :=
  [.hex "serial_number" doc.serialNumber, .time "validity_not_before" doc.validityNotBefore] ++
    doc.validityNotAfter.toList.map (.time "validity_not_after") ++
    [.hex "subject_public_key" doc.subjectPublicKey,
      .hex "issuer_signature_value" doc.issuerSignatureValue] ++
    doc.extensions.flatMap JsonExtension.checks

section

variable [Minicbor] [JsonCrates]

/-- The error of a field whose text is not what it must be. -/
def JsonCheck.fault? : JsonCheck → Option Error
  | .hex field text =>
      match JsonCrates.hexDecode (cleaned text) with
      | .ok _ => none
      | .error e => some (.json s!"{field}: invalid hex: {e}")
  | .time field text =>
      match JsonCrates.parseRfc3339 text with
      | .ok _ => none
      | .error e => some (.json s!"{field}: {e}")

/-! ### The first fault -/

theorem stops_hexBytes (field s : String) :
    Stops (hexBytes field s) ([JsonCheck.hex field s].filterMap JsonCheck.fault?) := by
  unfold hexBytes
  cases h : JsonCrates.hexDecode (cleaned s) with
  | ok b =>
      have hnone : (JsonCheck.hex field s).fault? = none := by rw [JsonCheck.fault?, h]
      rw [List.filterMap_cons_none hnone]
      exact Stops.ok b
  | error e =>
      have hsome : (JsonCheck.hex field s).fault? = some (.json s!"{field}: invalid hex: {e}") := by
        rw [JsonCheck.fault?, h]
      rw [List.filterMap_cons_some hsome]
      exact Stops.error _

theorem stops_parseTime (field s : String) :
    Stops (parseTime field s) ([JsonCheck.time field s].filterMap JsonCheck.fault?) := by
  unfold parseTime
  cases h : JsonCrates.parseRfc3339 s with
  | ok t =>
      have hnone : (JsonCheck.time field s).fault? = none := by rw [JsonCheck.fault?, h]
      rw [List.filterMap_cons_none hnone]
      exact Stops.ok t
  | error e =>
      have hsome : (JsonCheck.time field s).fault? = some (.json s!"{field}: {e}") := by
        rw [JsonCheck.fault?, h]
      rw [List.filterMap_cons_some hsome]
      exact Stops.error _

theorem stops_parseOptTime (field : String) (o : Option String) :
    Stops (parseOptTime field o)
      ((o.toList.map (JsonCheck.time field)).filterMap JsonCheck.fault?) := by
  cases o with
  | none => exact Stops.ok none
  | some s => exact (stops_parseTime field s).map

theorem JsonExtension.stops_intoExtension (j : JsonExtension) :
    Stops j.intoExtension (j.checks.filterMap JsonCheck.fault?) := by
  cases j with
  | authorityKeyIdentifier critical keyIdentifier => exact (stops_hexBytes _ keyIdentifier).map
  | _ => exact Stops.ok _

variable [MacCrate]

theorem JsonCertificate.stops_intoCertificate (doc : JsonCertificate) :
    Stops doc.intoCertificate (doc.checks.filterMap JsonCheck.fault?) := by
  have hextensions := Stops.mapM JsonExtension.stops_intoExtension doc.extensions
  rw [← List.filterMap_flatMap] at hextensions
  have hchecks : doc.checks.filterMap JsonCheck.fault? =
      [JsonCheck.hex "serial_number" doc.serialNumber].filterMap JsonCheck.fault? ++
      ([JsonCheck.time "validity_not_before" doc.validityNotBefore].filterMap JsonCheck.fault? ++
      ((doc.validityNotAfter.toList.map (.time "validity_not_after")).filterMap JsonCheck.fault? ++
      ([JsonCheck.hex "subject_public_key" doc.subjectPublicKey].filterMap JsonCheck.fault? ++
      ([JsonCheck.hex "issuer_signature_value" doc.issuerSignatureValue].filterMap
        JsonCheck.fault? ++
      (doc.extensions.flatMap JsonExtension.checks).filterMap JsonCheck.fault?)))) := by
    simp only [checks, ← List.filterMap_append, List.append_assoc, List.cons_append,
      List.nil_append]
  rw [hchecks]
  exact
    (stops_hexBytes "serial_number" doc.serialNumber).bind fun _ =>
    (stops_parseTime "validity_not_before" doc.validityNotBefore).bind fun _ =>
    (stops_parseOptTime "validity_not_after" doc.validityNotAfter).bind fun _ =>
    (stops_hexBytes "subject_public_key" doc.subjectPublicKey).bind fun _ =>
    (stops_hexBytes "issuer_signature_value" doc.issuerSignatureValue).bind fun _ =>
    hextensions.map

/--
**A refusal names the first field at fault, and only a field at fault is refused.**  What is no
document is refused as such; a document is accepted where every check of it passes, and
otherwise fails with the error of the first that does not, in the order of the source.
-/
theorem fromJson_names_first (input : String) :
    (∀ e, JsonCrates.fromStr input = .error e →
      fromJson input = .error (.json s!"invalid JSON: {e}")) ∧
    ∀ doc, JsonCrates.fromStr input = .ok doc →
      ((∃ c, fromJson input = .ok c) ↔ ∀ check ∈ doc.checks, check.fault? = none) ∧
      ∀ err, fromJson input = .error err ↔ ∃ passed check rest,
        doc.checks = passed ++ check :: rest ∧ check.fault? = some err ∧
          ∀ check' ∈ passed, check'.fault? = none := by
  refine ⟨fun e he => by rw [fromJson, he], fun doc hdoc => ?_⟩
  have hstops := doc.stops_intoCertificate
  rw [fromJson_eq hdoc]
  refine ⟨?_, fun err => ?_⟩
  · rw [hstops.returns_iff, List.filterMap_eq_nil_iff]
  · rw [hstops.fails_iff, List.head?_filterMap, List.findSome?_eq_some_iff]

end

open scoped Reference in
/-- A document whose one fault is the hex of its key identifier. -/
example : ((JsonCertificate.small false (.authorityKeyIdentifier false "5")).checks.filterMap
    JsonCheck.fault?) =
  [.json "authority_key_identifier.key_identifier: invalid hex: Odd number of digits"] := rfl

end C509
