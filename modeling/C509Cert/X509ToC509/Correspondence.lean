/-
Which extensions a conversion keeps.

A certificate whose extensions are all of the five, parsed, expressible, and in the order
in which the converter asks for them, is converted extension by extension.  No other one
is: what does not parse or is not asked for is left out without an error, and so are parts
of what is; what is kept stands in the order of the slots.
-/
import C509Cert.X509ToC509.Slots

namespace C509

open Cbor Codec
open X509 hiding GeneralName BasicConstraints AuthorityKeyIdentifier AlgorithmIdentifier
  TbsCertificate

/-! ### Corresponding extensions -/

/-- The identifiers the ids of the five extensions are registered for. -/
def EXTENSION_OIDS : List (Int32 × Oid) := [
  (EXT_KEY_USAGE_ID, OID_X509_EXT_KEY_USAGE),
  (EXT_SUBJECT_ALT_NAME_ID, OID_X509_EXT_SUBJECT_ALT_NAME),
  (EXT_BASIC_CONSTRAINTS_ID, OID_X509_EXT_BASIC_CONSTRAINTS),
  (EXT_AUTHORITY_KEY_IDENTIFIER_ID, OID_X509_EXT_AUTHORITY_KEY_IDENTIFIER),
  (EXT_EXT_KEY_USAGE_ID, OID_X509_EXT_EXTENDED_KEY_USAGE)]

def IntOrOid.extensionOid : IntOrOid → Option Oid
  | .int id => (EXTENSION_OIDS.find? fun p => p.1 = id).map (·.2)
  | .oid _ => none

/-- The registry id `id` is the one of a purpose that is set. -/
def X509.ExtendedKeyUsage.Names (eku : ExtendedKeyUsage) (id : Int32) : Prop :=
  (id = 0 ∧ eku.any = true) ∨ (id = 1 ∧ eku.serverAuth = true) ∨
    (id = 2 ∧ eku.clientAuth = true) ∨ (id = 3 ∧ eku.codeSigning = true) ∨
    (id = 4 ∧ eku.emailProtection = true) ∨ (id = 8 ∧ eku.timeStamping = true) ∨
    (id = 9 ∧ eku.ocspSigning = true)

/-- A value says what a form says, no more and no less. -/
def SameContent : ParsedExtension → ExtensionValue → Prop
  | .basicConstraints bc, .basicConstraints .notCa => bc = ⟨false, none⟩
  | .basicConstraints bc, .basicConstraints (.ca pathLen) => bc = ⟨true, pathLen⟩
  | .keyUsage ku, .keyUsage value => value = ku.flags.toUInt32
  | .extendedKeyUsage eku, .extKeyUsage v =>
      eku.other = [] ∧ v.purposes.Nodup ∧ ∀ p, p ∈ v.purposes ↔ ∃ id, p = .int id ∧ eku.Names id
  | .subjectAlternativeName san, .subjectAltName names =>
      List.Forall₂ (fun x g => ∃ s, x = .dnsName s ∧
        g = { kind := GENERAL_NAME_DNS, value := .dnsName s }) san.generalNames names
  | .authorityKeyIdentifier aki, .authorityKeyIdentifier v =>
      aki.keyIdentifier = some v.keyIdentifier ∧
        (aki.authorityCertIssuer = none ∧ v.certIssuer = none) ∧
        (aki.authorityCertSerial = none ∧ v.certSerial = none)
  | _, _ => False

/-- `out` is the extension `e`. -/
structure Corresponds (e : X509Extension) (out : Extension) : Prop where
  id : out.id.extensionOid = some e.oid
  critical : out.critical = e.critical
  content : SameContent e.parsedExtension out.value

/-! ### Certificates that are kept whole -/

/-- The identifier of the extension a form belongs to. -/
def X509.ParsedExtension.oid? : ParsedExtension → Option Oid
  | .basicConstraints _ => some OID_X509_EXT_BASIC_CONSTRAINTS
  | .keyUsage _ => some OID_X509_EXT_KEY_USAGE
  | .extendedKeyUsage _ => some OID_X509_EXT_EXTENDED_KEY_USAGE
  | .subjectAlternativeName _ => some OID_X509_EXT_SUBJECT_ALT_NAME
  | .authorityKeyIdentifier _ => some OID_X509_EXT_AUTHORITY_KEY_IDENTIFIER
  | .other _ => none

/-- A form with no part the converter has no place for. -/
def X509.ParsedExtension.Expressible : ParsedExtension → Prop
  | .basicConstraints bc => bc.ca = false → bc.pathLenConstraint = none
  | .extendedKeyUsage eku => eku.other = []
  | .subjectAlternativeName san => ∀ x ∈ san.generalNames, ∃ s, x = .dnsName s
  | .authorityKeyIdentifier aki => aki.keyIdentifier ≠ none ∧ aki.authorityCertIssuer = none ∧
      aki.authorityCertSerial = none
  | _ => True

/-- An extension that parsed as what its identifier names, one of the five. -/
def X509.X509Extension.Recognized (e : X509Extension) : Prop :=
  e.parsedExtension.oid? = some e.oid

/-- Nothing of the extensions is lost or moved. -/
structure X509.TbsCertificate.KeptWhole (tbs : X509.TbsCertificate) : Prop where
  recognized : ∀ e ∈ tbs.extensions, e.Recognized
  expressible : ∀ e ∈ tbs.extensions, e.parsedExtension.Expressible
  /-- the order in which the converter asks for them -/
  order : (tbs.extensions.map (·.oid)).Sublist
    [OID_X509_EXT_BASIC_CONSTRAINTS, OID_X509_EXT_KEY_USAGE, OID_X509_EXT_EXTENDED_KEY_USAGE,
      OID_X509_EXT_SUBJECT_ALT_NAME, OID_X509_EXT_AUTHORITY_KEY_IDENTIFIER]

/-! ### Lists in the order of their keys -/

/-- A list whose keys are among distinct ones, and in their order, is its groups. -/
theorem eq_flatMap_filter {α κ : Type} [DecidableEq κ] {key : α → κ} {keys : List κ}
    (hkeys : keys.Nodup) : ∀ {l : List α}, (l.map key).Sublist keys →
      l = keys.flatMap fun k => l.filter fun a => key a = k := by
  induction keys with
  | nil =>
      intro l h
      rw [List.map_eq_nil_iff.mp (List.sublist_nil.mp h)]
      rfl
  | cons k keys ih =>
      intro l h
      obtain ⟨hk, hkeys⟩ := List.nodup_cons.mp hkeys
      rw [List.flatMap_cons]
      have hnone {l : List α} (h : (l.map key).Sublist keys) :
          l.filter (fun a => key a = k) = [] := by
        refine List.filter_eq_nil_iff.mpr fun a ha hak => hk ?_
        rw [← of_decide_eq_true hak]
        exact h.subset (List.mem_map_of_mem ha)
      cases l with
      | nil => simp
      | cons a l =>
          rcases List.cons_sublist_cons'.mp h with htail | ⟨hak, htail⟩
          · rw [hnone (l := a :: l) htail, List.nil_append]
            exact ih hkeys htail
          · -- the first element is the group of its key; the other groups do not see it
            have hne : ∀ k' ∈ keys, key a ≠ k' := by
              rintro k' hk' rfl
              exact hk (hak ▸ hk')
            have hrest : (keys.flatMap fun k' => (a :: l).filter fun b => key b = k') = l := by
              conv_rhs => rw [ih hkeys htail]
              refine List.flatMap_congr fun k' hk' => ?_
              rw [List.filter_cons_of_neg (by simpa using hne k' hk')]
            rw [List.filter_cons_of_pos (by simpa using hak), hnone htail, hrest]
            rfl

theorem mem_extensionsWith {tbs : X509.TbsCertificate} {oid : Oid} {e : X509Extension} :
    e ∈ tbs.extensionsWith oid ↔ e ∈ tbs.extensions ∧ e.oid = oid := by
  rw [TbsCertificate.extensionsWith, List.mem_filter, decide_eq_true_iff]

/-! ### Slots and forms -/

theorem mem_extendedKeyUsageIds {eku : ExtendedKeyUsage} {id : Int32} :
    id ∈ extendedKeyUsageIds eku ↔ eku.Names id := by
  simp [extendedKeyUsageIds, ExtendedKeyUsage.Names]

theorem extendedKeyUsageIds_nodup (eku : ExtendedKeyUsage) : (extendedKeyUsageIds eku).Nodup := by
  refine List.Nodup.sublist (List.filter_sublist.map Prod.fst) ?_
  show [(0 : Int32), 1, 2, 3, 4, 8, 9].Nodup
  decide

section

variable [Minicbor] [X509Parser]

/-- **What fills a slot is of its form, and says the same if the form is expressible.** -/
theorem Slot.content {s : Slot} {p : ParsedExtension} {v : ExtensionValue} (h : Fills s p v) :
    p.oid? = some s.oid ∧ (SameContent p v ↔ p.Expressible) := by
  refine ⟨by cases h <;> rfl, ?_⟩
  cases h with
  | basicConstraints bc =>
      obtain ⟨ca, pathLen⟩ := bc
      cases ca with
      | false =>
          constructor
          · intro hsame _
            exact congrArg X509.BasicConstraints.pathLenConstraint hsame
          · intro hnone
            exact congrArg (X509.BasicConstraints.mk false) (hnone rfl)
      | true => exact ⟨fun _ hca => (by cases hca), fun _ => rfl⟩
  | keyUsage ku => exact ⟨fun _ => trivial, fun _ => rfl⟩
  | extendedKeyUsage eku hother =>
      refine ⟨fun hsame => hsame.1, fun _ => ⟨hother, ?_, fun p => ?_⟩⟩
      · exact (extendedKeyUsageIds_nodup eku).map fun _ _ hij => IntOrOid.int.inj hij
      · rw [List.mem_map]
        constructor
        · rintro ⟨id, hid, rfl⟩
          exact ⟨id, rfl, mem_extendedKeyUsageIds.mp hid⟩
        · rintro ⟨id, rfl, hid⟩
          exact ⟨id, mem_extendedKeyUsageIds.mpr hid, rfl⟩
  | subjectAltName san names hnames =>
      refine ⟨fun _ x hx => ?_, fun _ => hnames⟩
      obtain ⟨g, -, s, hs, -⟩ := forall₂_exists hnames x hx
      exact ⟨s, hs⟩
  | authorityKeyIdentifier aki keyIdentifier hkey =>
      constructor
      · rintro ⟨-, ⟨hissuer, -⟩, hserial, -⟩
        exact ⟨by rw [hkey]; simp, hissuer, hserial⟩
      · rintro ⟨-, hissuer, hserial⟩
        exact ⟨hkey, ⟨hissuer, rfl⟩, hserial, rfl⟩

/-- A form that has an identifier is returned by the accessor for it. -/
theorem exists_slot {p : ParsedExtension} {oid : Oid} (h : p.oid? = some oid) :
    ∃ s ∈ slots, s.oid = oid ∧ s.value p ≠ none := by
  have hoid {s : Slot} (hs : p.oid? = some s.oid) : s.oid = oid := Option.some.inj (hs.symm.trans h)
  cases p with
  | basicConstraints bc =>
      exact ⟨basicConstraintsSlot, by simp [slots], hoid rfl, Option.some_ne_none _⟩
  | keyUsage ku => exact ⟨keyUsageSlot, by simp [slots], hoid rfl, Option.some_ne_none _⟩
  | extendedKeyUsage eku =>
      exact ⟨extendedKeyUsageSlot, by simp [slots], hoid rfl, Option.some_ne_none _⟩
  | subjectAlternativeName san =>
      exact ⟨subjectAltNameSlot, by simp [slots], hoid rfl, Option.some_ne_none _⟩
  | authorityKeyIdentifier aki =>
      exact ⟨authorityKeyIdentifierSlot, by simp [slots], hoid rfl, Option.some_ne_none _⟩
  | other value => cases h

theorem Slot.value_ne_none {s : Slot} (hs : s ∈ slots) {p : ParsedExtension}
    (h : p.oid? = some s.oid) : s.value p ≠ none := by
  obtain ⟨t, ht, hoid, hvalue⟩ := exists_slot h
  rwa [slots_oid_injective ht hs hoid] at hvalue

/-- The id of a slot is registered for its identifier. -/
theorem Slot.extensionOid {s : Slot} (hs : s ∈ slots) :
    (IntOrOid.int s.id).extensionOid = some s.oid := by
  rcases mem_slots.mp hs with rfl | rfl | rfl | rfl | rfl <;> rfl

/-! ### Certificates -/

omit [X509Parser] in
/-- Slot by slot, the extensions with its identifier correspond to what came of it. -/
theorem corresponds_of_results {tbs : X509.TbsCertificate} {ss : List Slot}
    {rs : List (Option Extension)} (h : List.Forall₂ (Slot.Result tbs) ss rs)
    (hslot : ∀ s ∈ ss, ∀ r, Slot.Result tbs s r →
      List.Forall₂ Corresponds (tbs.extensionsWith s.oid) r.toList) :
    List.Forall₂ Corresponds (ss.flatMap fun s => tbs.extensionsWith s.oid) rs.reduceOption := by
  induction h with
  | nil => exact .nil
  | @cons s r ss rs hresult _ ih =>
      have hcons : (r :: rs).reduceOption = r.toList ++ rs.reduceOption := by cases r <;> rfl
      rw [List.flatMap_cons, hcons]
      exact List.rel_append (hslot s (by simp) r hresult)
        (ih fun s' hs' => hslot s' (by simp [hs']))

/--
**Extensions correspond one to one exactly in the certificates that are kept whole.**
-/
theorem corresponds_iff_keptWhole [LawfulX509Parser] {tbs : X509.TbsCertificate}
    {exts : List Extension} (h : convertExtensions tbs = .ok exts) :
    List.Forall₂ Corresponds tbs.extensions exts ↔ tbs.KeptWhole := by
  obtain ⟨rs, hrs, rfl⟩ := convertExtensions_ok h
  constructor
  · intro hcorr
    have hkept : ∀ e ∈ tbs.extensions, e.Recognized ∧ e.parsedExtension.Expressible := by
      intro e he
      obtain ⟨out, hout, hid, -, hcontent⟩ := forall₂_exists hcorr e he
      obtain ⟨s, hs, e', v, hone, hvalue, rfl⟩ := result_of_mem hrs hout
      have hoid : e.oid = s.oid := Option.some.inj (hid.symm.trans (Slot.extensionOid hs))
      obtain rfl : e = e' := by
        have hmem := mem_extensionsWith.mpr ⟨he, hoid⟩
        rw [hone] at hmem
        exact List.mem_singleton.mp hmem
      obtain ⟨hform, hsame⟩ := Slot.content (Slot.fills hs hvalue)
      exact ⟨hform.trans (congrArg some hoid.symm), hsame.mp hcontent⟩
    refine ⟨fun e he => (hkept e he).1, fun e he => (hkept e he).2, ?_⟩
    -- the ids that were pushed stand in the order of the slots, and each has its identifier
    have hoids : (tbs.extensions.map fun e => some e.oid) =
        rs.reduceOption.map fun out => out.id.extensionOid := by
      refine List.forall₂_eq_eq_eq ▸ ?_
      exact List.forall₂_map_left_iff.mpr
        (List.forall₂_map_right_iff.mpr (hcorr.imp fun _ _ hc => hc.id.symm))
    have hids := ((ids_sublist hrs).map IntOrOid.extensionOid).filterMap id
    rw [List.map_map, show rs.reduceOption.map (IntOrOid.extensionOid ∘ fun out => out.id) = _
      from hoids.symm] at hids
    have horder : (tbs.extensions.map (·.oid)).Sublist
        (slots.filterMap fun s => (IntOrOid.int s.id).extensionOid) := by simpa using hids
    exact horder
  · rintro ⟨hrecognized, hexpressible, horder⟩
    have hgroups : tbs.extensions = (slots.map (·.oid)).flatMap tbs.extensionsWith :=
      eq_flatMap_filter slots_oid_nodup horder
    rw [List.flatMap_map] at hgroups
    rw [hgroups]
    refine corresponds_of_results hrs fun s hs r hresult => ?_
    cases hresult with
    | absent hnone => rw [hnone]; exact .nil
    | @unparsed e hone hvalue =>
        obtain ⟨he, hoid⟩ := mem_extensionsWith.mp (hone ▸ List.mem_singleton_self e)
        exact absurd hvalue (Slot.value_ne_none hs ((hrecognized e he).trans (congrArg some hoid)))
    | @found e v hone hvalue =>
        obtain ⟨he, hoid⟩ := mem_extensionsWith.mp (hone ▸ List.mem_singleton_self e)
        obtain ⟨-, hsame⟩ := Slot.content (Slot.fills hs hvalue)
        rw [hone]
        exact .cons ⟨(Slot.extensionOid hs).trans (congrArg some hoid.symm), rfl,
          hsame.mpr (hexpressible e he)⟩ .nil

/-- **A conversion that succeeds is one to one exactly on the certificates that are kept
whole; one that fails says so with an X.509 error.** -/
theorem convertCertificate_keptWhole [LawfulX509Parser] [MacCrate] (cert : X509Certificate) :
    (∀ e, convertCertificate cert = .error e → ∃ message, e = .x509 message) ∧
      ∀ c, convertCertificate cert = .ok c →
        (List.Forall₂ Corresponds cert.tbsCertificate.extensions c.tbs.extensions.exts ↔
          cert.tbsCertificate.KeptWhole) := by
  refine ⟨convertCertificate_fails cert, fun c h => ?_⟩
  obtain ⟨exts, hexts, h₁⟩ := bind_eq_ok.mp h
  obtain ⟨sig, -, h₂⟩ := bind_eq_ok.mp h₁
  obtain ⟨issuer, -, h₃⟩ := bind_eq_ok.mp h₂
  obtain ⟨subject, -, h₄⟩ := bind_eq_ok.mp h₃
  obtain ⟨key, -, h₅⟩ := bind_eq_ok.mp h₄
  cases h₅
  exact corresponds_iff_keptWhole hexts

end

/-- A certificate with one attribute in its names. -/
def X509.small (attr : Attribute) (extensions : List X509Extension)
    (h : ∀ e ∈ extensions, e.parsedExtension.InMemory) : X509Certificate where
  tbsCertificate := {
    rawSerial := [0x05]
    issuer := ⟨[[attr]]⟩
    validity := ⟨⟨0⟩, ⟨0⟩⟩
    subject := ⟨[[attr]]⟩
    subjectPki := ⟨⟨OID_SIG_ED25519, none⟩, [0x05]⟩
    extensions }
  signatureAlgorithm := ⟨OID_SIG_ED25519, none⟩
  signatureValue := [0x05]
  tbsInMemory := {
    serial := by show 1 < 2 ^ 64; decide
    issuer := by show 1 * 2 < 2 ^ 64; decide
    subject := by show 1 * 2 < 2 ^ 64; decide
    publicKey := by show 1 < 2 ^ 64; decide
    extensions := h }
  signatureInMemory := by show 1 < 2 ^ 64; decide

theorem X509.inMemory_nil : ∀ e ∈ ([] : List X509Extension), e.parsedExtension.InMemory := nofun

/-- Critical name constraints, which the converter does not ask for. -/
def criticalNameConstraints : X509Certificate :=
  X509.small ⟨OID_X509_COMMON_NAME, ⟨⟨12⟩, [0x61]⟩⟩
    [⟨oid [2, 5, 29, 30], true, .other [0x30, 0x00]⟩]
    (by rintro e he; rw [List.mem_singleton.mp he]; trivial)

/-- A keyUsage before the basicConstraints. -/
def keyUsageFirst : X509Certificate :=
  X509.small ⟨OID_X509_COMMON_NAME, ⟨⟨12⟩, [0x61]⟩⟩
    [⟨OID_X509_EXT_KEY_USAGE, true, .keyUsage ⟨6⟩⟩,
      ⟨OID_X509_EXT_BASIC_CONSTRAINTS, true, .basicConstraints ⟨true, none⟩⟩]
    (by rintro e he
        rcases List.mem_pair.mp he with rfl | rfl <;> trivial)

open scoped Reference in
/-- The critical name constraints are gone; the keyUsage has changed places. -/
theorem convertCertificate_not_keptWhole :
    (∃ c, convertCertificate criticalNameConstraints = .ok c ∧ c.tbs.extensions.exts = [] ∧
      ¬ List.Forall₂ Corresponds criticalNameConstraints.tbsCertificate.extensions
        c.tbs.extensions.exts) ∧
    ∃ c, convertCertificate keyUsageFirst = .ok c ∧
      c.tbs.extensions.exts.map (·.id) = [.int EXT_BASIC_CONSTRAINTS_ID, .int EXT_KEY_USAGE_ID] ∧
      ¬ List.Forall₂ Corresponds keyUsageFirst.tbsCertificate.extensions
        c.tbs.extensions.exts := by
  refine ⟨⟨_, rfl, rfl, nofun⟩, _, rfl, rfl, ?_⟩
  intro h
  cases h with
  | cons hfirst _ => exact absurd hfirst.id (by decide)

open scoped Reference in
theorem convertCertificate_keptWhole_keyUsageFirst :
    ∃ c, convertCertificate keyUsageFirst = .ok c ∧
      (List.Forall₂ Corresponds keyUsageFirst.tbsCertificate.extensions c.tbs.extensions.exts ↔
        keyUsageFirst.tbsCertificate.KeptWhole) :=
  ⟨_, rfl, (convertCertificate_keptWhole keyUsageFirst).2 _ rfl⟩

end C509
