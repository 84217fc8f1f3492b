/-
The members `from_json` heeds in names and extensions.

Reading and converting are one sweep here: a part of the document becomes a part of the
certificate.  Every field of every struct can be given two values that come to different
parts, but for one: the path length of basic constraints whose `ca` is not `true`.
-/
import C509Cert.CertJson.Document
import C509Cert.Serde.Heeds

namespace C509

open Cbor Serde Reader CertJson

/-! ### Strict parts -/

/-- No attribute has a member but its fields. -/
def JsonName.Strict : Value → Prop
  | .array l => ∀ x ∈ l, x.FieldsOnly JsonRdnAttribute.fields.names
  | _ => True

namespace JsonExtension

/-- The fields of the content a tag announces. -/
def contentNames (tag : String) : List String :=
  if tag = "basic_constraints" then basicConstraintsFields.names
  else if tag = "key_usage" then keyUsageFields.names
  else if tag = "subject_alt_name" then subjectAltNameFields.names
  else if tag = "authority_key_identifier" then authorityKeyIdentifierFields.names
  else extKeyUsageFields.names

/-- A path length is given for a CA only. -/
def PathLenOfCa : Value → Prop
  | .object ms => (∃ v, ms.lookup "path_len" = some v) → ms.lookup "ca" = some (.bool true)
  | _ => True

/-- The content has no member but its fields, and a path length for a CA only. -/
def Strict : Value → Prop
  | .object [(tag, content)] =>
      content.FieldsOnly (contentNames tag) ∧ (tag = "basic_constraints" → PathLenOfCa content)
  | _ => True

end JsonExtension

/-! ### Names -/

section

variable [MacCrate]

def JsonRdnAttribute.toRdn (a : JsonRdnAttribute) : RdnAttribute :=
  .registered a.id a.printableString (specialText a.value)

variable [JsonCrates] [LawfulShortTexts]

theorem specialText_ne : specialText "a" ≠ specialText "b" := by
  unfold specialText
  rw [LawfulShortTexts.parse_a, LawfulShortTexts.parse_b]
  decide

theorem heeds_attribute {v : Value} {a : JsonRdnAttribute}
    (h : JsonRdnAttribute.deserialize v = some a) :
    Heeds (fun w => (JsonRdnAttribute.deserialize w).bind fun a => some a.toRdn) v ↔
      v.FieldsOnly JsonRdnAttribute.fields.names := by
  obtain ⟨⟨id, printableString, value, _⟩, rfl, -, hiff⟩ :=
    heeds_struct_map (f := fun a => some a.toRdn) (by decide) h
  refine hiff.trans (and_iff_left ⟨?_, ?_, ?_, trivial⟩)
  · intro u _ hu
    refine slot_of_injective (plain_integer _) hu u16_zero u16_one _ ?_
    simp [JsonRdnAttribute.toRdn]
  · intro u _ hu
    refine slot_of_injective plain_bool hu (reads_bool false) (reads_bool true) _ ?_
    simp [JsonRdnAttribute.toRdn]
  · intro u _ hu
    refine slot_of_injective plain_string hu (reads_string "a") (reads_string "b") _ ?_
    simpa [JsonRdnAttribute.toRdn] using specialText_ne

/-- A name is heeded attribute by attribute. -/
theorem heeds_name {v : Value} {name : JsonName} (h : JsonName.deserialize v = some name) :
    Heeds (fun w => (JsonName.deserialize w).bind fun n => some n.intoName) v ↔
      JsonName.Strict v := by
  cases v with
  | string s => exact iff_of_true ((memberFree_of_scalar id).heeds _) trivial
  | array l =>
      obtain ⟨attrs, hattrs, -⟩ := Option.map_eq_some_iff.mp h
      have hlist : l.mapM (fun w => (JsonRdnAttribute.deserialize w).bind fun a => some a.toRdn) =
          some (attrs.map JsonRdnAttribute.toRdn) := by
        have hbind := list_bind (r := JsonRdnAttribute.deserialize)
          (g := fun a => some a.toRdn) (.array l)
        rw [hattrs] at hbind
        exact hbind.symm.trans List.mapM_pure
      have hcomp : ∀ w : Value, w.IsContainer →
          ((JsonName.deserialize w).bind fun n => some n.intoName) =
            (list (fun w => (JsonRdnAttribute.deserialize w).bind fun a => some a.toRdn) w).map
              Name.mk := by
        intro w hw
        rw [← list_bind]
        cases w with
        | array l =>
            cases hl : list JsonRdnAttribute.deserialize (.array l) with
            | none => simp [JsonName.deserialize, hl]
            | some as =>
                have hpure : as.mapM (fun a => some a.toRdn) = some (as.map fun a => a.toRdn) :=
                  List.mapM_pure
                simp only [JsonName.deserialize, hl, Option.map_some, Option.bind_some, hpure]
                rfl
        | object ms => rfl
        | _ => exact hw.elim
      rw [heeds_congr hcomp, heeds_map fun _ _ heq => Name.mk.inj heq, heeds_list hlist]
      refine forall_congr' fun x => imp_congr_right fun hx => ?_
      obtain ⟨a, ha⟩ := mapM_some_of_mem hattrs x hx
      exact heeds_attribute ha
  | _ => cases h

/-- A name that may be missing is heeded like one that is there. -/
theorem heeds_optionalName {v : Value} {o : Option JsonName}
    (h : option JsonName.deserialize v = some o) :
    Heeds (fun w => (option JsonName.deserialize w).bind fun o =>
      some (o.map JsonName.intoName)) v ↔ JsonName.Strict v := by
  simp only [option_map, heeds_option]
  by_cases hnull : v = .null
  · subst hnull
    exact iff_of_true ((memberFree_of_scalar id).heeds _) trivial
  · rw [option_of_ne_null hnull] at h
    obtain ⟨name, hname, -⟩ := Option.map_eq_some_iff.mp h
    exact heeds_name hname

end

/-! ### Extensions -/

section

variable [Minicbor] [JsonCrates]

/-- A document and the extension it becomes. -/
def extensionOf : Reader Extension := fun v =>
  (JsonExtension.deserialize v).bind fun e => e.intoExtension.toOption

/-- **The content of an extension but basic constraints** is heeded where it has no member but
its fields, if two values of the field beside the flag come to different values. -/
theorem heeds_flagged {α : Type} (id : Int32) (value : α → Option ExtensionValue)
    {name : String} (hname : name ≠ "critical") {r : Reader α} (hr : Plain r)
    {build : Bool × α × Unit → JsonExtension}
    (hbuild : ∀ critical x, (build (critical, x, ())).intoExtension.toOption =
      (value x).map fun y => { id := .int id, critical, value := y })
    {w₁ w₂ : Value} {x₁ x₂ : α} {y₁ y₂ : ExtensionValue} (h₁ : r w₁ = some x₁)
    (h₂ : r w₂ = some x₂) (hy₁ : value x₁ = some y₁) (hy₂ : value x₂ = some y₂) (hne : y₁ ≠ y₂)
    {v : Value} {e : JsonExtension} {ext : Extension}
    (h : (struct false (JsonExtension.flagged name r) v).map build = some e)
    (hext : e.intoExtension = .ok ext) :
    (Varies (fun w => ((struct false (JsonExtension.flagged name r) w).map build).bind
        fun e => e.intoExtension.toOption) v ∧
      Heeds (fun w => ((struct false (JsonExtension.flagged name r) w).map build).bind
        fun e => e.intoExtension.toOption) v) ↔
      v.FieldsOnly (JsonExtension.flagged name r).names := by
  have hvaries : Varies (fun w => ((struct false (JsonExtension.flagged name r) w).map build).bind
      fun e => e.intoExtension.toOption) v := by
    have hread : ∀ critical, struct false (JsonExtension.flagged name r)
        (.array [.bool critical, w₁]) = some (critical, x₁, ()) := by
      intro critical
      have hbeq : (name == "critical") = false := by simpa using hname
      simp [struct, JsonExtension.flagged, Schema.names, Schema.read, Schema.field, List.lookup,
        hbeq, reads_bool, h₁]
    have hresult : ∀ critical, ((struct false (JsonExtension.flagged name r)
        (.array [.bool critical, w₁])).map build).bind (fun e => e.intoExtension.toOption) =
          some { id := .int id, critical, value := y₁ } := by
      intro critical
      rw [hread, Option.map_some, Option.bind_some, hbuild, hy₁]
      rfl
    exact varies_of_two (hresult false) (hresult true) (by simp) v
  rw [and_iff_right hvaries]
  have hnodup : (JsonExtension.flagged name r).names.Nodup := by
    simpa [JsonExtension.flagged, Schema.names] using hname.symm
  obtain ⟨⟨critical, x, _⟩, rfl, -, hiff⟩ :=
    heeds_struct_map (f := fun e => e.intoExtension.toOption) hnodup h
  have hx : ∃ y, value x = some y := by
    have hvalue := hbuild critical x
    rw [hext] at hvalue
    obtain ⟨y, hy, -⟩ := Option.map_eq_some_iff.mp hvalue.symm
    exact ⟨y, hy⟩
  obtain ⟨y, hy⟩ := hx
  refine hiff.trans (and_iff_left ⟨?_, ?_, trivial⟩)
  · intro u _ hu
    have hflag : ∀ critical, (build (critical, x, ())).intoExtension.toOption =
        some { id := .int id, critical, value := y } := by
      intro critical
      rw [hbuild, hy]
      rfl
    exact slot_of_two plain_bool hu (reads_bool false) (reads_bool true) (hflag false) (hflag true)
      (by simp) _
  · intro u _ hu
    have hfield : ∀ {x y}, value x = some y → (build (critical, x, ())).intoExtension.toOption =
        some { id := .int id, critical, value := y } := by
      intro x y hy
      rw [hbuild, hy]
      rfl
    exact slot_of_two hr hu h₁ h₂ (hfield hy₁) (hfield hy₂) (by simpa using hne) _

omit [Minicbor] [JsonCrates] in
/-- A content is that of a CA if it says so. -/
theorem field_ca {ms : List (String × Value)} {ca : Bool}
    (h : Schema.field ms "ca" bool (some false) = some ca) :
    ca = true ↔ ms.lookup "ca" = some (.bool true) := by
  unfold Schema.field at h
  split at h
  · rename_i v hv
    rw [hv]
    cases v with
    | bool b =>
        cases h
        simp
    | _ => cases h
  · rename_i hnone
    cases h
    rw [hnone]
    simp

/-- The path length of a CA matters; that of another is dropped. -/
theorem slot_pathLen {critical ca : Bool} {inObject : Prop} {u : Value} {pathLen : Option UInt32}
    (hu : option u32 u = some pathLen) :
    Slot inObject (fun w => (option u32 w).bind fun p =>
      (JsonExtension.basicConstraints critical ca p).intoExtension.toOption) u ↔
        (inObject → ca = true) := by
  have hplain : Plain (option u32) := (plain_integer _).option
  cases ca with
  | true =>
      refine iff_of_true ?_ fun _ => rfl
      have hnull : option u32 .null = some none := rfl
      have hzero : option u32 (.integer 0) = some (some 0) := rfl
      exact slot_of_injective hplain hu hnull hzero _ (by simp)
  | false =>
      have hdropped : ¬ Varies (fun w => (option u32 w).bind fun p =>
          (JsonExtension.basicConstraints critical false p).intoExtension.toOption) u := by
        refine not_varies fun w ext hw => ?_
        obtain ⟨p, -, hp⟩ := Option.bind_eq_some_iff.mp hw
        rw [hu]
        exact hp
      constructor
      · exact fun hslot hin => absurd (hslot.1 hin) hdropped
      · exact fun hin => ⟨fun h => absurd (hin h) (by decide), (hplain u pathLen hu).heeds _⟩

/-- **The content of basic constraints** is heeded where it has no member but its fields, and a
path length for a CA only. -/
theorem heeds_basicConstraints {v : Value} {e : JsonExtension}
    (h : JsonExtension.readBasicConstraints v = some e) :
    (Varies (fun w => (JsonExtension.readBasicConstraints w).bind
        fun e => e.intoExtension.toOption) v ∧
      Heeds (fun w => (JsonExtension.readBasicConstraints w).bind
        fun e => e.intoExtension.toOption) v) ↔
      v.FieldsOnly JsonExtension.basicConstraintsFields.names ∧ JsonExtension.PathLenOfCa v := by
  have hvaries : Varies (fun w => (JsonExtension.readBasicConstraints w).bind
      fun e => e.intoExtension.toOption) v := by
    have hresult : ∀ critical, (JsonExtension.readBasicConstraints (.array [.bool critical])).bind
        (fun e => e.intoExtension.toOption) =
          some ⟨.int EXT_BASIC_CONSTRAINTS_ID, critical, .basicConstraints .notCa⟩ := fun _ => rfl
    exact varies_of_two (hresult false) (hresult true) (by simp) v
  rw [and_iff_right hvaries]
  obtain ⟨⟨critical, ca, pathLen, _⟩, rfl, hread, hiff⟩ :=
    heeds_struct_map (f := fun e => e.intoExtension.toOption) (by decide) h
  obtain ⟨-, hfields⟩ := Schema.read_cons.mp (read_members hread)
  obtain ⟨hca, hfields⟩ := Schema.read_cons.mp hfields
  obtain ⟨hpathLen, -⟩ := Schema.read_cons.mp hfields
  have hca := field_ca hca
  refine hiff.trans (and_congr_right fun _ => ?_)
  constructor
  · rintro ⟨-, -, hslot, -⟩
    cases v with
    | object ms =>
        rintro ⟨u, hlookup⟩
        have hu : option u32 u = some pathLen := Schema.field_eq_some hpathLen hlookup
        exact hca.mp ((slot_pathLen hu).mp (hslot u hlookup hu) trivial)
    | _ => trivial
  · intro hpath
    refine ⟨?_, ?_, ?_, trivial⟩
    · intro u _ hu
      refine slot_of_injective plain_bool hu (reads_bool false) (reads_bool true) _ ?_
      simp
    · intro u _ hu
      refine slot_of_injective plain_bool hu (reads_bool false) (reads_bool true) _ ?_
      simp
    · intro u hlookup hu
      refine (slot_pathLen hu).mpr fun hobject => ?_
      cases v with
      | object ms => exact hca.mpr (hpath ⟨u, hlookup⟩)
      | _ => exact hobject.elim

variable [MacCrate] [LawfulShortTexts]

theorem hexBytes_zero (field : String) : hexBytes field "00" = .ok [0x00] := by
  have hcleaned : cleaned "00" = "00" := by decide
  rw [hexBytes, hcleaned, LawfulShortTexts.hexDecode_zero]

theorem hexBytes_one (field : String) : hexBytes field "01" = .ok [0x01] := by
  have hcleaned : cleaned "01" = "01" := by decide
  rw [hexBytes, hcleaned, LawfulShortTexts.hexDecode_one]

/-- **An extension is heeded where its content is.** -/
theorem heeds_extension {v : Value} {e : JsonExtension} {ext : Extension}
    (h : JsonExtension.deserialize v = some e) (hext : e.intoExtension = .ok ext) :
    Heeds extensionOf v ↔ JsonExtension.Strict v := by
  obtain ⟨tag, content, r, rfl, hr, hcontent⟩ := tagged_eq_some h
  refine (heeds_tagged hr).trans ?_
  have hmem : (tag, r) ∈ JsonExtension.variants := by
    obtain ⟨pre, post, hsplit, -⟩ := List.lookup_eq_some_iff.mp hr
    rw [hsplit]
    simp
  simp only [JsonExtension.variants, List.mem_cons, Prod.mk.injEq, List.not_mem_nil,
    or_false] at hmem
  -- one case for each tag; only the content of basic constraints has a field that is dropped
  rcases hmem with ⟨rfl, rfl⟩ | ⟨rfl, rfl⟩ | ⟨rfl, rfl⟩ | ⟨rfl, rfl⟩ | ⟨rfl, rfl⟩
  · refine (heeds_basicConstraints hcontent).trans (and_congr_right fun _ => ?_)
    exact ⟨fun h _ => h, fun h => h rfl⟩
  · refine (heeds_flagged EXT_KEY_USAGE_ID (fun n => some (.keyUsage n)) (by decide)
      (plain_integer _) (fun _ _ => rfl) u32_zero u32_one rfl rfl (by simp) hcontent hext).trans ?_
    exact (and_iff_left (absurd · (by decide))).symm
  · have hnil : list string (.array []) = some [] := rfl
    have hcons : list string (.array [.string ""]) = some [""] := rfl
    refine (heeds_flagged EXT_SUBJECT_ALT_NAME_ID
      (fun names => some (.subjectAltName (dnsGeneralNames names))) (by decide)
      plain_string.list (fun _ _ => rfl) hnil hcons rfl rfl (by simp [dnsGeneralNames])
      hcontent hext).trans ?_
    exact (and_iff_left (absurd · (by decide))).symm
  · let value (b : Bytes) : ExtensionValue :=
      .authorityKeyIdentifier { keyIdentifier := b, certIssuer := none, certSerial := none }
    let field := "authority_key_identifier.key_identifier"
    have hbuild : ∀ critical s,
        (JsonExtension.authorityKeyIdentifier critical s).intoExtension.toOption =
          ((hexBytes field s).toOption.map value).map fun y =>
            ⟨.int EXT_AUTHORITY_KEY_IDENTIFIER_ID, critical, y⟩ := by
      intro critical s
      show (hexBytes field s >>= _).toOption = _
      cases hexBytes field s with
      | error e => rfl
      | ok b => rfl
    have hzero : (hexBytes field "00").toOption.map value = some (value [0x00]) := by
      rw [hexBytes_zero]
      rfl
    have hone : (hexBytes field "01").toOption.map value = some (value [0x01]) := by
      rw [hexBytes_one]
      rfl
    refine (heeds_flagged EXT_AUTHORITY_KEY_IDENTIFIER_ID
      (fun s => (hexBytes field s).toOption.map value) (by decide)
      plain_string hbuild (reads_string "00") (reads_string "01") hzero hone (by simp [value])
      hcontent hext).trans ?_
    exact (and_iff_left (absurd · (by decide))).symm
  · have hnil : list i32 (.array []) = some [] := rfl
    have hcons : list i32 (.array [.integer 0]) = some [0] := rfl
    refine (heeds_flagged EXT_EXT_KEY_USAGE_ID
      (fun oids => some (.extKeyUsage ⟨oids.map IntOrOid.int⟩)) (by decide)
      (plain_integer _).list (fun _ _ => rfl) hnil hcons rfl rfl (by simp) hcontent hext).trans ?_
    exact (and_iff_left (absurd · (by decide))).symm

omit [MacCrate] [LawfulShortTexts] in
theorem mapM_toOption (l : List JsonExtension) :
    (l.mapM JsonExtension.intoExtension).toOption =
      l.mapM fun e => e.intoExtension.toOption := by
  induction l with
  | nil => rfl
  | cons e l ih =>
      rw [List.mapM_cons, List.mapM_cons, ← ih]
      cases e.intoExtension with
      | error err => rfl
      | ok ext =>
          cases l.mapM JsonExtension.intoExtension with
          | error err => rfl
          | ok exts => rfl

/-- **The extensions of a document are heeded one by one.** -/
theorem heeds_extensions {v : Value} {l : List JsonExtension} {exts : List Extension}
    (h : list JsonExtension.deserialize v = some l)
    (hexts : l.mapM JsonExtension.intoExtension = .ok exts) :
    Heeds (fun w => (list JsonExtension.deserialize w).bind fun l =>
      (l.mapM JsonExtension.intoExtension).toOption) v ↔
        ∀ es, v = .array es → ∀ e ∈ es, JsonExtension.Strict e := by
  have hcomp : ∀ w, ((list JsonExtension.deserialize w).bind fun l =>
      (l.mapM JsonExtension.intoExtension).toOption) = list extensionOf w := by
    intro w
    simp only [mapM_toOption]
    exact list_bind w
  simp only [hcomp]
  cases v with
  | array es =>
      have hread : es.mapM extensionOf = some exts := by
        have hlist := hcomp (.array es)
        rw [h, Option.bind_some, hexts] at hlist
        exact hlist.symm
      rw [heeds_list hread]
      constructor
      · rintro hall _ ⟨⟩ x hx
        obtain ⟨ext, hx'⟩ := mapM_some_of_mem hread x hx
        obtain ⟨e, he, hext⟩ := Option.bind_eq_some_iff.mp hx'
        exact (heeds_extension he (toOption_eq_some.mp hext)).mp (hall x hx)
      · intro hall x hx
        obtain ⟨ext, hx'⟩ := mapM_some_of_mem hread x hx
        obtain ⟨e, he, hext⟩ := Option.bind_eq_some_iff.mp hx'
        exact (heeds_extension he (toOption_eq_some.mp hext)).mpr (hall es rfl x hx)
  | _ => cases h

end

end C509
