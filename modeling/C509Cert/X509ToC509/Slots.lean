/-
What the converter asks for, and what it gets.

Each of the five extensions is a slot: an identifier to ask for, a registry id to push, and
what the form of an extension becomes.  A slot that is filled has exactly one extension with
its identifier; a slot that stays empty has none, or one that did not parse.
-/
import C509Cert.X509ToC509

namespace C509

open Cbor Codec
open X509 hiding GeneralName BasicConstraints AuthorityKeyIdentifier AlgorithmIdentifier
  TbsCertificate

/-! ### Errors and loops -/

section

variable [Minicbor]

theorem inContext_ok {α : Type} {context : String} {r : Except String α} {a : α} :
    inContext context r = .ok a ↔ r = .ok a := by
  cases r with
  | error e => exact ⟨fun h => (by cases h), fun h => (by cases h)⟩
  | ok b =>
      constructor
      · rintro ⟨⟩
        rfl
      · rintro ⟨⟩
        rfl

theorem orX509_ok {α : Type} {message : String} {o : Option α} {a : α} :
    orX509 message o = .ok a ↔ o = some a := by
  cases o with
  | none => exact ⟨fun h => (by cases h), fun h => (by cases h)⟩
  | some b =>
      constructor
      · rintro ⟨⟩
        rfl
      · rintro ⟨⟩
        rfl

theorem pushFound_ok {α : Type} {context : String}
    {found : Except String (Option (BasicExtension α))} {id : Int32}
    {value : α → Except Error ExtensionValue} {r : Option Extension}
    (h : pushFound context found id value = .ok r) :
    (found = .ok none ∧ r = none) ∨
      ∃ ext v, found = .ok (some ext) ∧ value ext.value = .ok v ∧
        r = some { id := .int id, critical := ext.critical, value := v } := by
  obtain ⟨o, ho, h⟩ := bind_eq_ok.mp h
  have hfound := inContext_ok.mp ho
  cases o with
  | none =>
      cases h
      exact Or.inl ⟨hfound, rfl⟩
  | some ext =>
      obtain ⟨v, hv, hpure⟩ := bind_eq_ok.mp h
      cases hpure
      exact Or.inr ⟨ext, v, hfound, hv, rfl⟩

/-! ### Errors of a conversion

Every failure of a conversion is an X.509 error, and none reads like those of the detection,
whose contexts begin with `failed`.
-/

/-- Where it fails, it fails with an X.509 error. -/
def FailsAsX509 {α : Type} (r : Except Error α) : Prop :=
  ∀ e, r = .error e → ∃ message, e = .x509 message

/-- A text that begins otherwise than `failed`. -/
def Contextual (message : String) : Prop := ∃ c, message.toList.head? = some c ∧ c ≠ 'f'

omit [Minicbor] in
theorem Contextual.append {s : String} (h : Contextual s) (t : String) : Contextual (s ++ t) := by
  obtain ⟨c, hc, hne⟩ := h
  exact ⟨c, by simp [hc], hne⟩

/-- Where it fails, it fails with an X.509 error of a context of its own. -/
def FailsInContext {α : Type} (r : Except Error α) : Prop :=
  ∀ e, r = .error e → ∃ message, e = .x509 message ∧ Contextual message

theorem FailsInContext.ok {α : Type} (a : α) : FailsInContext (.ok a) := nofun

theorem FailsInContext.x509 {α : Type} {message : String} (h : Contextual message) :
    FailsInContext (.error (.x509 message) : Except Error α) := by
  rintro _ ⟨⟩
  exact ⟨message, rfl, h⟩

theorem FailsInContext.bind {α β : Type} {x : Except Error α} {f : α → Except Error β}
    (hx : FailsInContext x) (hf : ∀ a, FailsInContext (f a)) : FailsInContext (x >>= f) := by
  cases x with
  | error e =>
      rintro _ ⟨⟩
      exact hx e rfl
  | ok a => exact hf a

theorem FailsInContext.mapM {α β : Type} {f : α → Except Error β} (hf : ∀ a, FailsInContext (f a))
    (l : List α) : FailsInContext (l.mapM f) := by
  induction l with
  | nil => exact .ok []
  | cons a l ih =>
      rw [List.mapM_cons]
      exact .bind (hf a) fun b => .bind ih fun bs => .ok (b :: bs)

theorem FailsInContext.inContext {α : Type} {context : String} (h : Contextual context)
    (r : Except String α) : FailsInContext (inContext context r) := by
  cases r with
  | error e => exact .x509 ((h.append _).append _)
  | ok a => exact .ok a

theorem FailsInContext.orX509 {α : Type} {message : String} (h : Contextual message)
    (o : Option α) : FailsInContext (orX509 message o) := by
  cases o with
  | none => exact .x509 h
  | some a => exact .ok a

theorem FailsInContext.pushFound {α : Type} {context : String} (h : Contextual context)
    {found : Except String (Option (BasicExtension α))} {id : Int32}
    {value : α → Except Error ExtensionValue} (hvalue : ∀ a, FailsInContext (value a)) :
    FailsInContext (pushFound context found id value) :=
  .bind (.inContext h found) fun o =>
    match o with
    | none => .ok none
    | some ext => .bind (hvalue ext.value) fun _ => .ok _

section

variable [X509Parser]

theorem convertExtensions_fails (tbs : X509.TbsCertificate) :
    FailsInContext (convertExtensions tbs) := by
  have heku (eku : ExtendedKeyUsage) : FailsInContext (extendedKeyUsageValue eku) := by
    unfold extendedKeyUsageValue
    split
    · exact .x509 ⟨'e', rfl, by decide⟩
    · exact .ok _
  have hname (x : X509.GeneralName) : FailsInContext (convertGeneralName x) := by
    cases x with
    | dnsName s => exact .ok _
    | other name => exact .x509 (.append ⟨'s', rfl, by decide⟩ _)
  have haki (p : ParsedExtension) : FailsInContext (authorityKeyIdentifierValue p) := by
    have hcontext : Contextual ("authorityKeyIdentifier: only the keyIdentifier form " ++
        "is supported by this converter") := ⟨'a', rfl, by decide⟩
    cases p with
    | authorityKeyIdentifier aki => exact .bind (.orX509 hcontext _) fun _ => .ok _
    | _ => exact .x509 (.append ⟨'a', rfl, by decide⟩ _)
  exact
    .bind (.pushFound ⟨'b', rfl, by decide⟩ fun bc => .ok _) fun _ =>
    .bind (.pushFound ⟨'k', rfl, by decide⟩ fun ku => .ok _) fun _ =>
    .bind (.pushFound ⟨'e', rfl, by decide⟩ heku) fun _ =>
    .bind (.pushFound ⟨'s', rfl, by decide⟩ fun san => .bind (.mapM hname _) fun _ => .ok _)
      fun _ =>
    .bind (.pushFound ⟨'a', rfl, by decide⟩ haki) fun _ => .ok _

theorem signatureAlgorithmId_fails (oid : Oid) : FailsInContext (signatureAlgorithmId oid) := by
  refine .orX509 (.append (.append (.append (.append ?_ _) _) _) _) _
  exact ⟨'i', rfl, by decide⟩

theorem publicKeyAlgorithmId_fails (alg : X509.AlgorithmIdentifier) :
    FailsInContext (publicKeyAlgorithmId alg) := by
  unfold publicKeyAlgorithmId
  split
  · exact .ok _
  · split
    · refine .bind (.orX509 ⟨'s', rfl, by decide⟩ _) fun _ =>
        .bind (.inContext ⟨'s', rfl, by decide⟩ _) fun curve => .orX509 ?_ _
      exact .append (.append ⟨'s', rfl, by decide⟩ _) _
    · refine .x509 (.append (.append (.append (.append ?_ _) _) _) _)
      exact ⟨'s', rfl, by decide⟩

variable [MacCrate]

theorem nameToRdn_fails (name : X509Name) : FailsInContext (nameToRdn name) := by
  refine .bind (.mapM (fun attr => ?_) _) fun _ => .ok _
  have hcontext : Contextual s!"name attribute OID {X509Parser.displayOid attr.attrType}" :=
    .append ⟨'n', rfl, by decide⟩ _
  refine .bind (.orX509 (.append (.append (.append ?_ _) _) _) _) fun _ =>
    .bind (.inContext hcontext _) fun _ => .ok _
  exact ⟨'n', rfl, by decide⟩

/-- **Every failure of a conversion names what it converts.** -/
theorem convertCertificate_context (cert : X509Certificate) :
    FailsInContext (convertCertificate cert) :=
  .bind (convertExtensions_fails _) fun _ =>
  .bind (signatureAlgorithmId_fails _) fun _ =>
  .bind (nameToRdn_fails _) fun _ =>
  .bind (nameToRdn_fails _) fun _ =>
  .bind (publicKeyAlgorithmId_fails _) fun _ => .ok _

/-- **Every failure of a conversion is an X.509 error.** -/
theorem convertCertificate_fails (cert : X509Certificate) :
    FailsAsX509 (convertCertificate cert) := by
  intro e he
  obtain ⟨message, rfl, -⟩ := convertCertificate_context cert e he
  exact ⟨message, rfl⟩

end

end

/-! ### Slots -/

section

variable [Minicbor] [X509Parser]

/-- One of the extensions the converter asks for. -/
structure Slot where
  oid : Oid
  id : Int32
  /-- what a form becomes; nothing, if the accessor does not return it -/
  value : ParsedExtension → Option (Except Error ExtensionValue)

def basicConstraintsSlot : Slot where
  oid := OID_X509_EXT_BASIC_CONSTRAINTS
  id := EXT_BASIC_CONSTRAINTS_ID
  value parsed := parsed.basicConstraints?.map basicConstraintsValue

def keyUsageSlot : Slot where
  oid := OID_X509_EXT_KEY_USAGE
  id := EXT_KEY_USAGE_ID
  value parsed := parsed.keyUsage?.map keyUsageValue

def extendedKeyUsageSlot : Slot where
  oid := OID_X509_EXT_EXTENDED_KEY_USAGE
  id := EXT_EXT_KEY_USAGE_ID
  value parsed := parsed.extendedKeyUsage?.map extendedKeyUsageValue

def subjectAltNameSlot : Slot where
  oid := OID_X509_EXT_SUBJECT_ALT_NAME
  id := EXT_SUBJECT_ALT_NAME_ID
  value parsed := parsed.subjectAlternativeName?.map subjectAltNameValue

def authorityKeyIdentifierSlot : Slot where
  oid := OID_X509_EXT_AUTHORITY_KEY_IDENTIFIER
  id := EXT_AUTHORITY_KEY_IDENTIFIER_ID
  value parsed := some (authorityKeyIdentifierValue parsed)

/-- The slots, in the order of the converter. -/
def slots : List Slot :=
  [basicConstraintsSlot, keyUsageSlot, extendedKeyUsageSlot, subjectAltNameSlot,
    authorityKeyIdentifierSlot]

theorem mem_slots {s : Slot} : s ∈ slots ↔ s = basicConstraintsSlot ∨ s = keyUsageSlot ∨
    s = extendedKeyUsageSlot ∨ s = subjectAltNameSlot ∨ s = authorityKeyIdentifierSlot := by
  simp [slots]

theorem slots_oid_nodup : (slots.map (·.oid)).Nodup := by
  show [OID_X509_EXT_BASIC_CONSTRAINTS, OID_X509_EXT_KEY_USAGE, OID_X509_EXT_EXTENDED_KEY_USAGE,
    OID_X509_EXT_SUBJECT_ALT_NAME, OID_X509_EXT_AUTHORITY_KEY_IDENTIFIER].Nodup
  decide

theorem slots_oid_injective {s t : Slot} (hs : s ∈ slots) (ht : t ∈ slots) (h : s.oid = t.oid) :
    s = t := List.inj_on_of_nodup_map slots_oid_nodup hs ht h

/-! ### What fills a slot -/

theorem convertGeneralName_ok {x : X509.GeneralName} {g : GeneralName}
    (h : convertGeneralName x = .ok g) :
    ∃ s, x = .dnsName s ∧ g = { kind := GENERAL_NAME_DNS, value := .dnsName s } := by
  cases x with
  | dnsName s =>
      cases h
      exact ⟨s, rfl, rfl⟩
  | other name => cases h

/-- The form `p` fills the slot with the value `v`. -/
inductive Fills : Slot → ParsedExtension → ExtensionValue → Prop
  | basicConstraints (bc : X509.BasicConstraints) :
      Fills basicConstraintsSlot (.basicConstraints bc)
        (.basicConstraints (if bc.ca then .ca bc.pathLenConstraint else .notCa))
  | keyUsage (ku : KeyUsage) :
      Fills keyUsageSlot (.keyUsage ku) (.keyUsage ku.flags.toUInt32)
  | extendedKeyUsage (eku : ExtendedKeyUsage) (hother : eku.other = []) :
      Fills extendedKeyUsageSlot (.extendedKeyUsage eku)
        (.extKeyUsage ⟨(extendedKeyUsageIds eku).map IntOrOid.int⟩)
  | subjectAltName (san : SubjectAlternativeName) (names : List GeneralName)
      (hnames : List.Forall₂ (fun x g => ∃ s, x = .dnsName s ∧
        g = { kind := GENERAL_NAME_DNS, value := .dnsName s }) san.generalNames names) :
      Fills subjectAltNameSlot (.subjectAlternativeName san) (.subjectAltName names)
  | authorityKeyIdentifier (aki : X509.AuthorityKeyIdentifier) (keyIdentifier : Bytes)
      (hkey : aki.keyIdentifier = some keyIdentifier) :
      Fills authorityKeyIdentifierSlot (.authorityKeyIdentifier aki)
        (.authorityKeyIdentifier { keyIdentifier, certIssuer := none, certSerial := none })

/-- **A slot is filled by its own form only, and with what that form says.** -/
theorem Slot.fills {s : Slot} (hs : s ∈ slots) {p : ParsedExtension} {v : ExtensionValue}
    (h : s.value p = some (.ok v)) : Fills s p v := by
  rcases mem_slots.mp hs with rfl | rfl | rfl | rfl | rfl
  · cases p with
    | basicConstraints bc =>
        cases h
        exact .basicConstraints bc
    | _ => cases h
  · cases p with
    | keyUsage ku =>
        cases h
        exact .keyUsage ku
    | _ => cases h
  · cases p with
    | extendedKeyUsage eku =>
        have hvalue : extendedKeyUsageValue eku = .ok v := Option.some.inj h
        unfold extendedKeyUsageValue at hvalue
        split at hvalue
        · cases hvalue
        · rename_i hother
          cases hvalue
          exact .extendedKeyUsage eku (not_not.mp hother)
    | _ => cases h
  · cases p with
    | subjectAlternativeName san =>
        obtain ⟨names, hnames, hpure⟩ := bind_eq_ok.mp (Option.some.inj h)
        cases hpure
        exact .subjectAltName san names ((mapM_eq_ok hnames).imp fun _ _ => convertGeneralName_ok)
    | _ => cases h
  · have hvalue : authorityKeyIdentifierValue p = .ok v := Option.some.inj h
    cases p with
    | authorityKeyIdentifier aki =>
        obtain ⟨keyIdentifier, hkey, hpure⟩ := bind_eq_ok.mp hvalue
        cases hpure
        exact .authorityKeyIdentifier aki keyIdentifier (orX509_ok.mp hkey)
    | _ => cases hvalue

/-! ### What a slot comes to -/

/-- What a slot comes to. -/
inductive Slot.Result (tbs : X509.TbsCertificate) (s : Slot) : Option Extension → Prop
  | absent (h : tbs.extensionsWith s.oid = []) : Result tbs s none
  | unparsed {e : X509Extension} (h : tbs.extensionsWith s.oid = [e])
      (hvalue : s.value e.parsedExtension = none) : Result tbs s none
  | found {e : X509Extension} {v : ExtensionValue} (h : tbs.extensionsWith s.oid = [e])
      (hvalue : s.value e.parsedExtension = some (.ok v)) :
      Result tbs s (some { id := .int s.id, critical := e.critical, value := v })

/-- What a typed accessor returns fills its slot. -/
theorem Slot.result_of_pushFound [LawfulX509Parser] {α : Type} {tbs : X509.TbsCertificate}
    {context : String} {found : Except String (Option (BasicExtension α))} {oid : Oid} {id : Int32}
    {form : ParsedExtension → Option α} {value : α → Except Error ExtensionValue}
    {r : Option Extension}
    (hfound : found =
      (X509Parser.getExtensionUnique tbs oid).map (·.bind (X509Extension.typed form)))
    (h : pushFound context found id value = .ok r) :
    Slot.Result tbs ⟨oid, id, fun parsed => (form parsed).map value⟩ r := by
  have hone {o : Option (BasicExtension α)} (ho : found = .ok o) :
      ∃ u : Option X509Extension, tbs.extensionsWith oid = u.toList ∧
        o = u.bind (X509Extension.typed form) := typed_ok (hfound.symm.trans ho)
  rcases pushFound_ok h with ⟨hnone, rfl⟩ | ⟨ext, v, hsome, hv, rfl⟩
  · obtain ⟨u, hu, ho⟩ := hone hnone
    cases u with
    | none => exact .absent hu
    | some e =>
        refine .unparsed hu ?_
        cases hform : form e.parsedExtension with
        | none => exact congrArg (Option.map value) hform
        | some a => simp [X509Extension.typed, hform] at ho
  · obtain ⟨u, hu, ho⟩ := hone hsome
    cases u with
    | none => cases ho
    | some e =>
        cases hform : form e.parsedExtension with
        | none => simp [X509Extension.typed, hform] at ho
        | some a =>
            obtain rfl : ext = ⟨e.critical, a⟩ := by
              simpa [X509Extension.typed, hform] using ho
            exact .found (s := ⟨oid, id, fun parsed => (form parsed).map value⟩) hu
              ((congrArg (Option.map value) hform).trans (congrArg some hv))

/-- **Every slot comes to something, and what is pushed is what came of the slots.** -/
theorem convertExtensions_ok [LawfulX509Parser] {tbs : X509.TbsCertificate}
    {exts : List Extension} (h : convertExtensions tbs = .ok exts) :
    ∃ rs, List.Forall₂ (Slot.Result tbs) slots rs ∧ exts = rs.reduceOption := by
  obtain ⟨bc, hbc, h₁⟩ := bind_eq_ok.mp h
  obtain ⟨ku, hku, h₂⟩ := bind_eq_ok.mp h₁
  obtain ⟨eku, heku, h₃⟩ := bind_eq_ok.mp h₂
  obtain ⟨san, hsan, h₄⟩ := bind_eq_ok.mp h₃
  obtain ⟨aki, haki, h₅⟩ := bind_eq_ok.mp h₄
  cases h₅
  have huntyped : (X509Parser.getExtensionUnique tbs OID_X509_EXT_AUTHORITY_KEY_IDENTIFIER).map
      (·.map fun ext => (⟨ext.critical, ext.parsedExtension⟩ : BasicExtension _)) =
      (X509Parser.getExtensionUnique tbs OID_X509_EXT_AUTHORITY_KEY_IDENTIFIER).map
        (·.bind (X509Extension.typed some)) := by
    simp only [Option.map_eq_bind]
    rfl
  exact ⟨_, .cons (Slot.result_of_pushFound (LawfulX509Parser.basicConstraints_eq tbs) hbc) <|
    .cons (Slot.result_of_pushFound (LawfulX509Parser.keyUsage_eq tbs) hku) <|
    .cons (Slot.result_of_pushFound (LawfulX509Parser.extendedKeyUsage_eq tbs) heku) <|
    .cons (Slot.result_of_pushFound (LawfulX509Parser.subjectAlternativeName_eq tbs) hsan) <|
    .cons (Slot.result_of_pushFound huntyped haki) .nil, rfl⟩

omit [X509Parser] in
/-- An extension that is pushed comes of a slot. -/
theorem result_of_mem {tbs : X509.TbsCertificate} {ss : List Slot} {rs : List (Option Extension)}
    (h : List.Forall₂ (Slot.Result tbs) ss rs) {out : Extension} (hout : out ∈ rs.reduceOption) :
    ∃ s ∈ ss, ∃ e v, tbs.extensionsWith s.oid = [e] ∧
      s.value e.parsedExtension = some (.ok v) ∧
      out = { id := .int s.id, critical := e.critical, value := v } := by
  have hsome := List.reduceOption_mem_iff.mp hout
  induction h with
  | nil => cases hsome
  | cons hresult _ ih =>
      rcases List.mem_cons.mp hsome with rfl | htail
      · cases hresult with
        | found hone hvalue => exact ⟨_, by simp, _, _, hone, hvalue, rfl⟩
      · obtain ⟨s, hs, hrest⟩ := ih (List.reduceOption_mem_iff.mpr htail) htail
        exact ⟨s, by simp [hs], hrest⟩

omit [X509Parser] in
/-- The ids that are pushed stand in the order of the slots. -/
theorem ids_sublist {tbs : X509.TbsCertificate} {ss : List Slot} {rs : List (Option Extension)}
    (h : List.Forall₂ (Slot.Result tbs) ss rs) :
    (rs.reduceOption.map (·.id)).Sublist (ss.map fun s => .int s.id) := by
  induction h with
  | nil => exact .slnil
  | cons hresult _ ih =>
      cases hresult with
      | found hone hvalue => exact ih.cons_cons _
      | absent hnone => exact ih.cons _
      | unparsed hone hvalue => exact ih.cons _

end

/-! ### The shape of what is pushed -/

section

variable [Minicbor] [MacCrate] [X509Parser]

omit [Minicbor] [MacCrate] [X509Parser] in
theorem dnsGeneralNames_of_forall₂ {l : List X509.GeneralName} {names : List GeneralName}
    (h : List.Forall₂ (fun x g => ∃ s, x = X509.GeneralName.dnsName s ∧
      g = { kind := GENERAL_NAME_DNS, value := .dnsName s }) l names) :
    ∃ texts, names = dnsGeneralNames texts := by
  induction h with
  | nil => exact ⟨[], rfl⟩
  | cons hx _ ih =>
      obtain ⟨s, -, rfl⟩ := hx
      obtain ⟨texts, rfl⟩ := ih
      exact ⟨s :: texts, rfl⟩

omit [MacCrate] in
/-- What fills a slot is an extension a document knows. -/
theorem Fills.expressible {s : Slot} {p : ParsedExtension} {v : ExtensionValue}
    (h : Fills s p v) (critical : Bool) :
    Extension.Expressible { id := .int s.id, critical, value := v } := by
  cases h with
  | basicConstraints bc => exact .basicConstraints critical _
  | keyUsage ku => exact .keyUsage critical _
  | extendedKeyUsage eku => exact .extKeyUsage critical _
  | subjectAltName san names hnames =>
      obtain ⟨texts, rfl⟩ := dnsGeneralNames_of_forall₂ hnames
      exact .subjectAltName critical texts
  | authorityKeyIdentifier aki keyIdentifier => exact .authorityKeyIdentifier critical keyIdentifier

theorem nameToRdn_expressible {name : X509Name} {n : Name} (h : nameToRdn name = .ok n) :
    n.Expressible := by
  obtain ⟨attrs, hattrs, hpure⟩ := bind_eq_ok.mp h
  cases hpure
  refine forall₂_right (mapM_eq_ok hattrs) fun attr a ha => ?_
  obtain ⟨id, -, h₁⟩ := bind_eq_ok.mp ha
  obtain ⟨text, -, hpure⟩ := bind_eq_ok.mp h₁
  cases hpure
  exact ⟨id, _, text, rfl⟩

omit [MacCrate] in
/-- What is pushed of a slot, whatever the accessor returned. -/
theorem Slot.expressible_of_pushFound {s : Slot} (hs : s ∈ slots) {α : Type} {context : String}
    {found : Except String (Option (BasicExtension α))} {value : α → Except Error ExtensionValue}
    (form : α → ParsedExtension) (hvalue : ∀ a, s.value (form a) = some (value a))
    {r : Option Extension}
    (h : pushFound context found s.id value = .ok r) : ∀ e ∈ r, e.Expressible := by
  rcases pushFound_ok h with ⟨-, rfl⟩ | ⟨ext, v, -, hv, rfl⟩
  · intro e he
    cases he
  · rintro _ ⟨⟩
    have hfills := Slot.fills hs ((hvalue ext.value).trans (congrArg some hv))
    exact hfills.expressible ext.critical

omit [MacCrate] in
theorem convertExtensions_expressible {tbs : X509.TbsCertificate} {exts : List Extension}
    (h : convertExtensions tbs = .ok exts) : ∀ e ∈ exts, e.Expressible := by
  obtain ⟨bc, hbc, h₁⟩ := bind_eq_ok.mp h
  obtain ⟨ku, hku, h₂⟩ := bind_eq_ok.mp h₁
  obtain ⟨eku, heku, h₃⟩ := bind_eq_ok.mp h₂
  obtain ⟨san, hsan, h₄⟩ := bind_eq_ok.mp h₃
  obtain ⟨aki, haki, h₅⟩ := bind_eq_ok.mp h₄
  cases h₅
  intro e he
  have hsome := List.reduceOption_mem_iff.mp he
  simp only [List.mem_cons, List.not_mem_nil, or_false] at hsome
  rcases hsome with hr | hr | hr | hr | hr
  · have hs : basicConstraintsSlot ∈ slots := by simp [slots]
    exact Slot.expressible_of_pushFound hs .basicConstraints (fun _ => rfl) hbc e hr.symm
  · have hs : keyUsageSlot ∈ slots := by simp [slots]
    exact Slot.expressible_of_pushFound hs .keyUsage (fun _ => rfl) hku e hr.symm
  · have hs : extendedKeyUsageSlot ∈ slots := by simp [slots]
    exact Slot.expressible_of_pushFound hs .extendedKeyUsage (fun _ => rfl) heku e hr.symm
  · have hs : subjectAltNameSlot ∈ slots := by simp [slots]
    exact Slot.expressible_of_pushFound hs .subjectAlternativeName (fun _ => rfl) hsan e hr.symm
  · have hs : authorityKeyIdentifierSlot ∈ slots := by simp [slots]
    exact Slot.expressible_of_pushFound hs id (fun _ => rfl) haki e hr.symm

/-- **Whatever is converted is of the one shape.** -/
theorem convertCertificate_converted {cert : X509Certificate} {c : C509Certificate}
    (h : convertCertificate cert = .ok c) : c.Converted := by
  obtain ⟨exts, hexts, h₁⟩ := bind_eq_ok.mp h
  obtain ⟨sig, -, h₂⟩ := bind_eq_ok.mp h₁
  obtain ⟨issuer, hissuer, h₃⟩ := bind_eq_ok.mp h₂
  obtain ⟨subject, hsubject, h₄⟩ := bind_eq_ok.mp h₃
  obtain ⟨key, -, h₅⟩ := bind_eq_ok.mp h₄
  cases h₅
  exact {
    signatureAlgorithm := ⟨sig, rfl⟩
    issuer := by
      rintro _ ⟨⟩
      exact nameToRdn_expressible hissuer
    subject := nameToRdn_expressible hsubject
    publicKeyAlgorithm := ⟨key, rfl⟩
    extensions := convertExtensions_expressible hexts }

end

end C509
