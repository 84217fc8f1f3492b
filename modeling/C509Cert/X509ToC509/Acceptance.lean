/-
Which X.509 certificates are converted.

The converter stops at the first thing it does not know.  Each slot must have at most one
extension, in a form it supports; the algorithms, the curve and the attributes of both names
must be in its tables.  That is all it asks: what is not in a slot, and what did not parse, it
does not look at.  So neither the order of the extensions nor the company they keep matters.
-/
import C509Cert.X509ToC509.Correspondence

namespace C509

open Cbor Codec
open X509 hiding GeneralName BasicConstraints AuthorityKeyIdentifier AlgorithmIdentifier
  TbsCertificate

/-! ### Loops and tables -/

/-- A fallible loop returns the list of what its rounds return. -/
theorem mapM_ok_iff {ε α β : Type} {f : α → Except ε β} {l : List α} {l' : List β} :
    l.mapM f = .ok l' ↔ List.Forall₂ (fun a b => f a = .ok b) l l' := by
  refine ⟨mapM_eq_ok, fun h => ?_⟩
  induction h with
  | nil => rfl
  | cons hab _ ih =>
      rw [List.mapM_cons, hab, ih]
      rfl

/-- It returns where all its rounds do. -/
theorem mapM_returns_iff {ε α β : Type} {f : α → Except ε β} {l : List α} :
    (∃ l', l.mapM f = .ok l') ↔ ∀ a ∈ l, ∃ b, f a = .ok b := by
  constructor
  · rintro ⟨l', h⟩ a ha
    obtain ⟨b, -, hab⟩ := forall₂_exists (mapM_ok_iff.mp h) a ha
    exact ⟨b, hab⟩
  · intro h
    induction l with
    | nil => exact ⟨[], rfl⟩
    | cons a l ih =>
        obtain ⟨ha, hl⟩ := List.forall_mem_cons.mp h
        obtain ⟨b, hb⟩ := ha
        obtain ⟨bs, hbs⟩ := ih hl
        exact ⟨b :: bs, mapM_ok_iff.mpr (.cons hb (mapM_ok_iff.mp hbs))⟩

theorem lookupOid_isSome_iff {α : Type} {oid : Oid} {table : List (Oid × α)} :
    (∃ a, lookupOid oid table = some a) ↔ oid ∈ table.map Prod.fst := by
  unfold lookupOid
  constructor
  · rintro ⟨a, ha⟩
    obtain ⟨p, hp, -⟩ := Option.map_eq_some_iff.mp ha
    have hfst : p.1 = oid := by simpa using List.find?_some hp
    exact List.mem_map.mpr ⟨p, List.mem_of_find?_eq_some hp, hfst⟩
  · intro h
    obtain ⟨p, hp, rfl⟩ := List.mem_map.mp h
    obtain ⟨q, hq⟩ := Option.isSome_iff_exists.mp
      (List.find?_isSome (p := fun q : Oid × α => q.1 = p.1).mpr ⟨p, hp, by simp⟩)
    exact ⟨q.2, by rw [hq]; rfl⟩

section

variable [Minicbor]

theorem orX509_returns_iff {α : Type} {message : String} {o : Option α} :
    (∃ a, orX509 message o = .ok a) ↔ ∃ a, o = some a :=
  exists_congr fun _ => orX509_ok

/-! ### Algorithms and names -/

section

variable [X509Parser]

theorem signatureAlgorithmId_returns_iff {oid : Oid} :
    (∃ id, signatureAlgorithmId oid = .ok id) ↔ oid ∈ SIGNATURE_ALGORITHM_OIDS.map Prod.fst :=
  orX509_returns_iff.trans lookupOid_isSome_iff

/-- The algorithm of a public key is in the table, or its curve is. -/
def PublicKeyKnown (alg : X509.AlgorithmIdentifier) : Prop :=
  alg.algorithm ∈ PUBLIC_KEY_ALGORITHM_OIDS.map Prod.fst ∨
    alg.algorithm = OID_KEY_TYPE_EC_PUBLIC_KEY ∧
      ∃ any curve, alg.parameters = some any ∧ X509Parser.anyOid any = .ok curve ∧
        curve ∈ EC_CURVE_OIDS.map Prod.fst

theorem ecCurveId_returns_iff {parameters : Option Any} :
    (∃ id, ecCurveId parameters = .ok id) ↔
      ∃ any curve, parameters = some any ∧ X509Parser.anyOid any = .ok curve ∧
        curve ∈ EC_CURVE_OIDS.map Prod.fst := by
  constructor
  · rintro ⟨id, h⟩
    obtain ⟨any, hany, h₁⟩ := bind_eq_ok.mp h
    obtain ⟨curve, hcurve, h₂⟩ := bind_eq_ok.mp h₁
    exact ⟨any, curve, orX509_ok.mp hany, inContext_ok.mp hcurve,
      lookupOid_isSome_iff.mp ⟨id, orX509_ok.mp h₂⟩⟩
  · rintro ⟨any, curve, rfl, hcurve, hmem⟩
    obtain ⟨id, hid⟩ := lookupOid_isSome_iff.mpr hmem
    exact ⟨id, bind_eq_ok.mpr ⟨any, rfl,
      bind_eq_ok.mpr ⟨curve, inContext_ok.mpr hcurve, orX509_ok.mpr hid⟩⟩⟩

theorem publicKeyAlgorithmId_returns_iff {alg : X509.AlgorithmIdentifier} :
    (∃ id, publicKeyAlgorithmId alg = .ok id) ↔ PublicKeyKnown alg := by
  unfold publicKeyAlgorithmId PublicKeyKnown
  cases hlookup : lookupOid alg.algorithm PUBLIC_KEY_ALGORITHM_OIDS with
  | some id => exact iff_of_true ⟨id, rfl⟩ (Or.inl (lookupOid_isSome_iff.mp ⟨id, hlookup⟩))
  | none =>
      have hnot : alg.algorithm ∉ PUBLIC_KEY_ALGORITHM_OIDS.map Prod.fst := by
        intro hmem
        obtain ⟨id, hid⟩ := lookupOid_isSome_iff.mpr hmem
        rw [hlookup] at hid
        cases hid
      rw [or_iff_right hnot]
      by_cases hec : alg.algorithm = OID_KEY_TYPE_EC_PUBLIC_KEY
      · simp only [if_pos hec]
        exact ecCurveId_returns_iff.trans (and_iff_right hec).symm
      · simp only [if_neg hec]
        exact iff_of_false (fun ⟨_, h⟩ => by cases h) fun h => hec h.1

variable [MacCrate]

/-- The attribute type is in the table, and the value is a text. -/
def X509.Attribute.Known (attr : Attribute) : Prop :=
  attr.attrType ∈ RDN_ATTRIBUTE_OIDS.map Prod.fst ∧ ∃ s, X509Parser.asStr attr = .ok s

theorem attributeToRdn_returns_iff {attr : Attribute} :
    (∃ a, attributeToRdn attr = .ok a) ↔ attr.Known := by
  constructor
  · rintro ⟨a, h⟩
    obtain ⟨id, hid, h₁⟩ := bind_eq_ok.mp h
    obtain ⟨s, hs, -⟩ := bind_eq_ok.mp h₁
    exact ⟨lookupOid_isSome_iff.mp ⟨id, orX509_ok.mp hid⟩, s, inContext_ok.mp hs⟩
  · rintro ⟨hmem, s, hs⟩
    obtain ⟨id, hid⟩ := lookupOid_isSome_iff.mpr hmem
    exact ⟨_, bind_eq_ok.mpr ⟨id, orX509_ok.mpr hid,
      bind_eq_ok.mpr ⟨s, inContext_ok.mpr hs, rfl⟩⟩⟩

theorem nameToRdn_returns_iff [LawfulX509Parser] {name : X509Name} :
    (∃ n, nameToRdn name = .ok n) ↔ ∀ attr ∈ name.rdnSeq.flatten, attr.Known := by
  rw [← LawfulX509Parser.iterAttributes_eq]
  refine Iff.trans ?_ (mapM_returns_iff.trans
    (forall₂_congr fun attr _ => attributeToRdn_returns_iff))
  constructor
  · rintro ⟨n, h⟩
    obtain ⟨l, hl, -⟩ := bind_eq_ok.mp h
    exact ⟨l, hl⟩
  · rintro ⟨l, hl⟩
    exact ⟨⟨l⟩, bind_eq_ok.mpr ⟨l, hl, rfl⟩⟩

end

/-! ### Extensions -/

section

variable [X509Parser] [LawfulX509Parser]

omit [Minicbor] in
theorem getExtensionUnique_ok_iff {tbs : X509.TbsCertificate} {oid : Oid}
    {o : Option X509Extension} :
    X509Parser.getExtensionUnique tbs oid = .ok o ↔ tbs.extensionsWith oid = o.toList := by
  refine ⟨getExtensionUnique_ok, fun h => ?_⟩
  cases o with
  | none => exact LawfulX509Parser.unique_absent h
  | some e => exact LawfulX509Parser.unique_single h

/-- What a slot comes to is what the converter makes of its accessor. -/
theorem Slot.pushFound_iff {α : Type} {tbs : X509.TbsCertificate} {context : String}
    {found : Except String (Option (BasicExtension α))} {oid : Oid} {id : Int32}
    {form : ParsedExtension → Option α} {value : α → Except Error ExtensionValue}
    {r : Option Extension}
    (hfound : found =
      (X509Parser.getExtensionUnique tbs oid).map (·.bind (X509Extension.typed form))) :
    pushFound context found id value = .ok r ↔
      Slot.Result tbs ⟨oid, id, fun parsed => (form parsed).map value⟩ r := by
  refine ⟨Slot.result_of_pushFound hfound, fun h => ?_⟩
  have hread : ∀ {o : Option X509Extension}, tbs.extensionsWith oid = o.toList →
      found = .ok (o.bind (X509Extension.typed form)) := by
    intro o ho
    rw [hfound, getExtensionUnique_ok_iff.mpr ho]
    rfl
  cases h with
  | absent h =>
      rw [hread (o := none) h]
      rfl
  | @unparsed e h hvalue =>
      have hform : form e.parsedExtension = none := Option.map_eq_none_iff.mp hvalue
      rw [hread (o := some e) h]
      simp only [Option.bind_some, X509Extension.typed, hform]
      rfl
  | @found e v h hvalue =>
      obtain ⟨a, hform, ha⟩ := Option.map_eq_some_iff.mp hvalue
      rw [hread (o := some e) h]
      simp only [Option.bind_some, X509Extension.typed, hform]
      exact bind_eq_ok.mpr ⟨_, rfl, bind_eq_ok.mpr ⟨v, ha, rfl⟩⟩

omit [Minicbor] [LawfulX509Parser] in
/-- The untyped accessor, as one that returns every form. -/
theorem authorityKeyIdentifier_eq (tbs : X509.TbsCertificate) :
    (X509Parser.getExtensionUnique tbs OID_X509_EXT_AUTHORITY_KEY_IDENTIFIER).map
        (·.map fun ext => (⟨ext.critical, ext.parsedExtension⟩ : BasicExtension _)) =
      (X509Parser.getExtensionUnique tbs OID_X509_EXT_AUTHORITY_KEY_IDENTIFIER).map
        (·.bind (X509Extension.typed some)) := by
  simp only [Option.map_eq_bind]
  rfl

/-- **The extensions of a conversion are what its slots come to, and nothing else.** -/
theorem convertExtensions_ok_iff {tbs : X509.TbsCertificate} {exts : List Extension} :
    convertExtensions tbs = .ok exts ↔
      ∃ rs, List.Forall₂ (Slot.Result tbs) slots rs ∧ exts = rs.reduceOption := by
  refine ⟨convertExtensions_ok, ?_⟩
  rintro ⟨rs, hrs, rfl⟩
  cases hrs with | cons hbc hrs =>
  cases hrs with | cons hku hrs =>
  cases hrs with | cons heku hrs =>
  cases hrs with | cons hsan hrs =>
  cases hrs with | cons haki hrs =>
  cases hrs
  exact bind_eq_ok.mpr ⟨_, (Slot.pushFound_iff (LawfulX509Parser.basicConstraints_eq tbs)).mpr hbc,
    bind_eq_ok.mpr ⟨_, (Slot.pushFound_iff (LawfulX509Parser.keyUsage_eq tbs)).mpr hku,
    bind_eq_ok.mpr ⟨_, (Slot.pushFound_iff (LawfulX509Parser.extendedKeyUsage_eq tbs)).mpr heku,
    bind_eq_ok.mpr ⟨_, (Slot.pushFound_iff (LawfulX509Parser.subjectAlternativeName_eq tbs)).mpr
      hsan,
    bind_eq_ok.mpr ⟨_, (Slot.pushFound_iff (authorityKeyIdentifier_eq tbs)).mpr haki, rfl⟩⟩⟩⟩⟩

omit [X509Parser] [LawfulX509Parser] in
theorem Slot.result_exists_iff {tbs : X509.TbsCertificate} {s : Slot} :
    (∃ r, Slot.Result tbs s r) ↔ (tbs.extensionsWith s.oid).length ≤ 1 ∧
      ∀ e ∈ tbs.extensionsWith s.oid, ∀ x, s.value e.parsedExtension = some x → ∃ v, x = .ok v := by
  constructor
  · rintro ⟨r, hr⟩
    cases hr with
    | absent h => simp [h]
    | @unparsed e h hvalue =>
        rw [h]
        refine ⟨by simp, fun e' he' x hx => ?_⟩
        rw [List.mem_singleton.mp he', hvalue] at hx
        cases hx
    | @found e v h hvalue =>
        rw [h]
        refine ⟨by simp, fun e' he' x hx => ?_⟩
        rw [List.mem_singleton.mp he', hvalue] at hx
        cases hx
        exact ⟨v, rfl⟩
  · rintro ⟨hlen, hsupported⟩
    rcases hl : tbs.extensionsWith s.oid with _ | ⟨e, _ | ⟨e', l⟩⟩
    · exact ⟨none, .absent hl⟩
    · rw [hl] at hsupported
      cases hvalue : s.value e.parsedExtension with
      | none => exact ⟨none, .unparsed hl hvalue⟩
      | some x =>
          obtain ⟨v, rfl⟩ := hsupported e (by simp) x hvalue
          exact ⟨_, .found hl hvalue⟩
    · simp [hl] at hlen

/-- What the converter asks of the extensions. -/
structure X509.TbsCertificate.Supported (tbs : X509.TbsCertificate) : Prop where
  /-- none of the five is given twice -/
  once : ∀ s ∈ slots, (tbs.extensionsWith s.oid).length ≤ 1
  purposes : ∀ e ∈ tbs.extensionsWith OID_X509_EXT_EXTENDED_KEY_USAGE, ∀ eku,
    e.parsedExtension = .extendedKeyUsage eku → eku.other = []
  altNames : ∀ e ∈ tbs.extensionsWith OID_X509_EXT_SUBJECT_ALT_NAME, ∀ san,
    e.parsedExtension = .subjectAlternativeName san → ∀ x ∈ san.generalNames, ∃ s, x = .dnsName s
  /-- here alone a form that did not parse is an error -/
  keyIdentifier : ∀ e ∈ tbs.extensionsWith OID_X509_EXT_AUTHORITY_KEY_IDENTIFIER, ∃ aki key,
    e.parsedExtension = .authorityKeyIdentifier aki ∧ aki.keyIdentifier = some key

omit [X509Parser] [LawfulX509Parser] in
theorem extendedKeyUsageSlot_supports {p : ParsedExtension} :
    (∀ x, extendedKeyUsageSlot.value p = some x → ∃ v, x = .ok v) ↔
      ∀ eku, p = .extendedKeyUsage eku → eku.other = [] := by
  cases p with
  | extendedKeyUsage eku =>
      have hvalue : extendedKeyUsageSlot.value (.extendedKeyUsage eku) =
        some (extendedKeyUsageValue eku) := rfl
      rw [hvalue]
      by_cases hother : eku.other = []
      · refine iff_of_true ?_ (by rintro _ ⟨⟩; exact hother)
        rintro _ ⟨⟩
        exact ⟨_, if_neg (not_not.mpr hother)⟩
      · refine iff_of_false (fun h => ?_) fun h => hother (h eku rfl)
        obtain ⟨v, hv⟩ := h _ rfl
        rw [extendedKeyUsageValue, if_pos hother] at hv
        cases hv
  | _ => exact iff_of_true (fun _ h => by cases h) (fun _ h => by cases h)

omit [LawfulX509Parser] in
theorem subjectAltNameSlot_supports {p : ParsedExtension} :
    (∀ x, subjectAltNameSlot.value p = some x → ∃ v, x = .ok v) ↔
      ∀ san, p = .subjectAlternativeName san → ∀ x ∈ san.generalNames, ∃ s, x = .dnsName s := by
  cases p with
  | subjectAlternativeName san =>
      have hname : ∀ x, (∃ g, convertGeneralName x = .ok g) ↔ ∃ s, x = .dnsName s := by
        intro x
        cases x with
        | dnsName s => exact iff_of_true ⟨_, rfl⟩ ⟨s, rfl⟩
        | other name => exact iff_of_false (fun ⟨_, h⟩ => by cases h) (fun ⟨_, h⟩ => by cases h)
      have hvalue : (∃ v, subjectAltNameValue san = .ok v) ↔
          ∀ x ∈ san.generalNames, ∃ s, x = .dnsName s := by
        refine Iff.trans ?_ (mapM_returns_iff.trans (forall₂_congr fun x _ => hname x))
        constructor
        · rintro ⟨v, h⟩
          obtain ⟨names, hnames, -⟩ := bind_eq_ok.mp h
          exact ⟨names, hnames⟩
        · rintro ⟨names, hnames⟩
          exact ⟨_, bind_eq_ok.mpr ⟨names, hnames, rfl⟩⟩
      constructor
      · rintro h _ ⟨⟩
        exact hvalue.mp (h _ rfl)
      · rintro h _ ⟨⟩
        exact hvalue.mpr (h san rfl)
  | _ => exact iff_of_true (fun _ h => by cases h) (fun _ h => by cases h)

omit [LawfulX509Parser] in
theorem authorityKeyIdentifierSlot_supports {p : ParsedExtension} :
    (∀ x, authorityKeyIdentifierSlot.value p = some x → ∃ v, x = .ok v) ↔
      ∃ aki key, p = .authorityKeyIdentifier aki ∧ aki.keyIdentifier = some key := by
  have hvalue : authorityKeyIdentifierSlot.value p = some (authorityKeyIdentifierValue p) := rfl
  rw [hvalue]
  constructor
  · intro h
    obtain ⟨v, hv⟩ := h _ rfl
    cases p with
    | authorityKeyIdentifier aki =>
        obtain ⟨key, hkey, -⟩ := bind_eq_ok.mp hv
        exact ⟨aki, key, rfl, orX509_ok.mp hkey⟩
    | _ => cases hv
  · rintro ⟨aki, key, rfl, hkey⟩ _ ⟨⟩
    exact ⟨_, bind_eq_ok.mpr ⟨key, orX509_ok.mpr hkey, rfl⟩⟩

theorem convertExtensions_returns_iff {tbs : X509.TbsCertificate} :
    (∃ exts, convertExtensions tbs = .ok exts) ↔ tbs.Supported := by
  have hslots : (∃ exts, convertExtensions tbs = .ok exts) ↔
      ∀ s ∈ slots, ∃ r, Slot.Result tbs s r := by
    constructor
    · rintro ⟨exts, h⟩ s hs
      obtain ⟨rs, hrs, -⟩ := convertExtensions_ok_iff.mp h
      obtain ⟨r, -, hr⟩ := forall₂_exists hrs s hs
      exact ⟨r, hr⟩
    · intro h
      choose! r hr using h
      refine ⟨_, convertExtensions_ok_iff.mpr ⟨slots.map r, ?_, rfl⟩⟩
      exact List.forall₂_map_right_iff.mpr (List.forall₂_same.mpr hr)
  rw [hslots]
  constructor
  · intro h
    have hparts := fun s hs => Slot.result_exists_iff.mp (h s hs)
    exact {
      once := fun s hs => (hparts s hs).1
      purposes := fun e he => extendedKeyUsageSlot_supports.mp
        ((hparts extendedKeyUsageSlot (by simp [slots])).2 e he)
      altNames := fun e he => subjectAltNameSlot_supports.mp
        ((hparts subjectAltNameSlot (by simp [slots])).2 e he)
      keyIdentifier := fun e he => authorityKeyIdentifierSlot_supports.mp
        ((hparts authorityKeyIdentifierSlot (by simp [slots])).2 e he) }
  · rintro ⟨honce, hpurposes, hnames, hkey⟩ s hs
    refine Slot.result_exists_iff.mpr ⟨honce s hs, fun e he => ?_⟩
    rcases mem_slots.mp hs with rfl | rfl | rfl | rfl | rfl
    · intro x hx
      obtain ⟨bc, -, rfl⟩ := Option.map_eq_some_iff.mp hx
      exact ⟨_, rfl⟩
    · intro x hx
      obtain ⟨ku, -, rfl⟩ := Option.map_eq_some_iff.mp hx
      exact ⟨_, rfl⟩
    · exact extendedKeyUsageSlot_supports.mpr (hpurposes e he)
    · exact subjectAltNameSlot_supports.mpr (hnames e he)
    · exact authorityKeyIdentifierSlot_supports.mpr (hkey e he)

/-! ### Certificates -/

omit [Minicbor] [X509Parser] [LawfulX509Parser] in
/-- The end of a validity, unless it stands for no expiration. -/
theorem notAfter_forall_iff {notAfter : OffsetDateTime} {P : OffsetDateTime → Prop} :
    (∀ t ∈ (if notAfter.unixTimestamp = NO_EXPIRATION_TIMESTAMP then none else some notAfter),
        P t) ↔ notAfter.unixTimestamp = NO_EXPIRATION_TIMESTAMP ∨ P notAfter := by
  split
  · rename_i hnone
    exact iff_of_true (fun _ ht => by cases ht) (Or.inl hnone)
  · rename_i hsome
    rw [or_iff_right hsome]
    constructor
    · intro h
      exact h notAfter rfl
    · rintro h _ ⟨⟩
      exact h

variable [MacCrate]

/-- What the converter asks of a certificate. -/
structure X509.X509Certificate.Convertible (cert : X509Certificate) : Prop where
  extensions : cert.tbsCertificate.Supported
  signature : cert.signatureAlgorithm.algorithm ∈ SIGNATURE_ALGORITHM_OIDS.map Prod.fst
  issuer : ∀ attr ∈ cert.tbsCertificate.issuer.rdnSeq.flatten, attr.Known
  subject : ∀ attr ∈ cert.tbsCertificate.subject.rdnSeq.flatten, attr.Known
  publicKey : PublicKeyKnown cert.tbsCertificate.subjectPki.algorithm

theorem convertCertificate_returns {cert : X509Certificate} :
    (∃ c, convertCertificate cert = .ok c) ↔ cert.Convertible := by
  constructor
  · rintro ⟨c, h⟩
    obtain ⟨exts, hexts, h₁⟩ := bind_eq_ok.mp h
    obtain ⟨sig, hsig, h₂⟩ := bind_eq_ok.mp h₁
    obtain ⟨issuer, hissuer, h₃⟩ := bind_eq_ok.mp h₂
    obtain ⟨subject, hsubject, h₄⟩ := bind_eq_ok.mp h₃
    obtain ⟨key, hkey, -⟩ := bind_eq_ok.mp h₄
    exact {
      extensions := convertExtensions_returns_iff.mp ⟨exts, hexts⟩
      signature := signatureAlgorithmId_returns_iff.mp ⟨sig, hsig⟩
      issuer := nameToRdn_returns_iff.mp ⟨issuer, hissuer⟩
      subject := nameToRdn_returns_iff.mp ⟨subject, hsubject⟩
      publicKey := publicKeyAlgorithmId_returns_iff.mp ⟨key, hkey⟩ }
  · rintro ⟨hextensions, hsignature, hissuers, hsubjects, hpublic⟩
    obtain ⟨exts, hexts⟩ := convertExtensions_returns_iff.mpr hextensions
    obtain ⟨sig, hsig⟩ := signatureAlgorithmId_returns_iff.mpr hsignature
    obtain ⟨issuer, hissuer⟩ := nameToRdn_returns_iff.mpr hissuers
    obtain ⟨subject, hsubject⟩ := nameToRdn_returns_iff.mpr hsubjects
    obtain ⟨key, hkey⟩ := publicKeyAlgorithmId_returns_iff.mpr hpublic
    exact ⟨_, bind_eq_ok.mpr ⟨exts, hexts, bind_eq_ok.mpr ⟨sig, hsig,
      bind_eq_ok.mpr ⟨issuer, hissuer, bind_eq_ok.mpr ⟨subject, hsubject,
        bind_eq_ok.mpr ⟨key, hkey, rfl⟩⟩⟩⟩⟩⟩

/-- The certificate the parser finds in an input, by the route the input is sent on. -/
inductive ParsedAs (input : Bytes) (cert : X509Certificate) : Prop
  | pem {pem : Pem} (hlooks : looksLikePem input = true)
      (hread : X509Parser.pemRead input = .ok pem) (hparse : X509Parser.parseX509 pem = .ok cert)
  | der (hlooks : ¬ looksLikePem input = true) (hparse : X509Parser.fromDer input = .ok cert)

omit [LawfulX509Parser] in
theorem fromX509_ok_iff {input : Bytes} {c : C509Certificate} :
    fromX509 input = .ok c ↔ ∃ cert, ParsedAs input cert ∧ convertCertificate cert = .ok c := by
  unfold fromX509
  constructor
  · intro h
    by_cases hlooks : looksLikePem input = true
    · rw [if_pos hlooks] at h
      obtain ⟨pem, hpem, h₁⟩ := bind_eq_ok.mp h
      obtain ⟨cert, hcert, hconvert⟩ := bind_eq_ok.mp h₁
      exact ⟨cert, .pem hlooks (inContext_ok.mp hpem) (inContext_ok.mp hcert), hconvert⟩
    · rw [if_neg hlooks] at h
      obtain ⟨cert, hcert, hconvert⟩ := bind_eq_ok.mp h
      exact ⟨cert, .der hlooks (inContext_ok.mp hcert), hconvert⟩
  · rintro ⟨cert, hparsed, hconvert⟩
    cases hparsed with
    | pem hlooks hread hparse =>
        rw [if_pos hlooks]
        exact bind_eq_ok.mpr ⟨_, inContext_ok.mpr hread,
          bind_eq_ok.mpr ⟨cert, inContext_ok.mpr hparse, hconvert⟩⟩
    | der hlooks hparse =>
        rw [if_neg hlooks]
        exact bind_eq_ok.mpr ⟨cert, inContext_ok.mpr hparse, hconvert⟩

/--
**Which inputs `from_x509` accepts**: those the parser finds a certificate in that has each of
the five extensions at most once and, where it parsed, in a form the converter supports (an
authorityKeyIdentifier has to have parsed), whose algorithms and attributes are all in the
tables and whose attributes can be read as strings.
-/
theorem fromX509_accepts_iff (input : Bytes) :
    (∃ c, fromX509 input = .ok c) ↔ ∃ cert, ParsedAs input cert ∧ cert.Convertible := by
  simp only [fromX509_ok_iff, ← convertCertificate_returns]
  constructor
  · rintro ⟨c, cert, hparsed, hc⟩
    exact ⟨cert, hparsed, c, hc⟩
  · rintro ⟨cert, hparsed, c, hc⟩
    exact ⟨c, cert, hparsed, hc⟩

/-! ### The order of the extensions -/

omit [X509Parser] [LawfulX509Parser] [MacCrate] in
theorem Slot.Result.congr {tbs tbs' : X509.TbsCertificate} {s : Slot} {r : Option Extension}
    (hperm : (tbs.extensionsWith s.oid).Perm (tbs'.extensionsWith s.oid))
    (h : Slot.Result tbs s r) : Slot.Result tbs' s r := by
  cases h with
  | absent h =>
      rw [h] at hperm
      exact .absent (List.nil_perm.mp hperm)
  | unparsed h hvalue =>
      rw [h] at hperm
      exact .unparsed (List.perm_singleton.mp hperm.symm) hvalue
  | found h hvalue =>
      rw [h] at hperm
      exact .found (List.perm_singleton.mp hperm.symm) hvalue

omit [MacCrate] in
theorem convertExtensions_congr {tbs tbs' : X509.TbsCertificate} {exts : List Extension}
    (hperm : ∀ s ∈ slots, (tbs.extensionsWith s.oid).Perm (tbs'.extensionsWith s.oid))
    (h : convertExtensions tbs = .ok exts) : convertExtensions tbs' = .ok exts := by
  obtain ⟨rs, hrs, rfl⟩ := convertExtensions_ok_iff.mp h
  refine convertExtensions_ok_iff.mpr ⟨rs, ?_, rfl⟩
  have hall : ∀ {ss : List Slot} {rs : List (Option Extension)}, (∀ s ∈ ss, s ∈ slots) →
      List.Forall₂ (Slot.Result tbs) ss rs → List.Forall₂ (Slot.Result tbs') ss rs := by
    intro ss rs hss hforall
    induction hforall with
    | nil => exact .nil
    | cons hr _ ih =>
        obtain ⟨hs, hss⟩ := List.forall_mem_cons.mp hss
        exact .cons (hr.congr (hperm _ hs)) (ih hss)
  exact hall (fun _ hs => hs) hrs

/--
**Neither the order of the extensions nor their company matters.**  Two certificates that
differ in nothing but their extensions, and have the same ones of the five, in whatever order
and among whatever others, are converted to the same certificate, or both not at all.
-/
theorem convertCertificate_congr {cert cert' : X509Certificate}
    (htbs : cert'.tbsCertificate =
      { cert.tbsCertificate with extensions := cert'.tbsCertificate.extensions })
    (halg : cert'.signatureAlgorithm = cert.signatureAlgorithm)
    (hvalue : cert'.signatureValue = cert.signatureValue)
    (hperm : ∀ s ∈ slots, (cert.tbsCertificate.extensionsWith s.oid).Perm
      (cert'.tbsCertificate.extensionsWith s.oid)) (c : C509Certificate) :
    convertCertificate cert = .ok c ↔ convertCertificate cert' = .ok c := by
  have hiff : ∀ exts, convertExtensions cert.tbsCertificate = .ok exts ↔
      convertExtensions cert'.tbsCertificate = .ok exts := fun exts =>
    ⟨convertExtensions_congr hperm, convertExtensions_congr fun s hs => (hperm s hs).symm⟩
  have hserial := congrArg X509.TbsCertificate.rawSerial htbs
  have hissuer := congrArg X509.TbsCertificate.issuer htbs
  have hvalidity := congrArg X509.TbsCertificate.validity htbs
  have hsubject := congrArg X509.TbsCertificate.subject htbs
  have hpki := congrArg X509.TbsCertificate.subjectPki htbs
  unfold convertCertificate
  simp only [bind_eq_ok, hiff, hserial, hissuer, hvalidity, hsubject, hpki, halg, hvalue]

end

end

/-! ### A certificate as it is read -/

/-- `CN=a`, in DER. -/
def plainName : Bytes :=
  [0x30, 0x0C, 0x31, 0x0A, 0x30, 0x08, 0x06, 0x03, 0x55, 0x04, 0x03, 0x0C, 0x01, 0x61]

/-- A certificate of that name, with a key of type Ed25519. -/
def plainDer : Bytes :=
  [0x30, 0x60, 0x30, 0x53, 0x02, 0x01, 0x05, 0x30, 0x05, 0x06, 0x03, 0x2B, 0x65, 0x70] ++
    plainName ++
    [0x30, 0x1E] ++ [0x17, 0x0D] ++ utf8 "700101000000Z" ++ [0x17, 0x0D] ++ utf8 "700101000000Z" ++
    plainName ++
    [0x30, 0x0B, 0x30, 0x05, 0x06, 0x03, 0x2B, 0x65, 0x70, 0x03, 0x02, 0x00, 0x05,
      0x30, 0x05, 0x06, 0x03, 0x2B, 0x65, 0x70, 0x03, 0x02, 0x00, 0x05]

/-- What is encoded there. -/
def plainCertificate : X509Certificate :=
  X509.small ⟨OID_X509_COMMON_NAME, ⟨⟨12⟩, [0x61]⟩⟩ [] X509.inMemory_nil

@[reducible] def plainParser : X509Parser :=
  { Reference.x509Parser with
    fromDer := fun b => if b = plainDer then .ok plainCertificate else .error "no DER" }

theorem plainParser_lawful : @LawfulX509Parser plainParser :=
  @LawfulX509Parser.mk plainParser Reference.lawfulX509Parser.unique_absent
    Reference.lawfulX509Parser.unique_single Reference.lawfulX509Parser.unique_duplicate
    (fun _ => rfl) (fun _ => rfl) (fun _ => rfl) (fun _ => rfl) (fun _ => rfl)
    Reference.lawfulX509Parser.asStr_length

theorem plainDer_parsedAs : @ParsedAs plainParser plainDer plainCertificate := by
  let _ := plainParser
  have hlooks : ¬ looksLikePem plainDer = true := by decide +kernel
  exact .der hlooks rfl

open scoped Reference in
theorem fromX509_accepts_iff_plain : ∃ (_ : X509Parser), ∃ c, fromX509 plainDer = .ok c := by
  let _ := plainParser
  have := plainParser_lawful
  have hconvertible : plainCertificate.Convertible := convertCertificate_returns.mp ⟨_, rfl⟩
  exact ⟨plainParser, (fromX509_accepts_iff plainDer).mpr
    ⟨plainCertificate, plainDer_parsedAs, hconvertible⟩⟩

/-- The extensions of `keyUsageFirst`, the other way round. -/
def basicConstraintsFirst : X509Certificate :=
  X509.small ⟨OID_X509_COMMON_NAME, ⟨⟨12⟩, [0x61]⟩⟩
    [⟨OID_X509_EXT_BASIC_CONSTRAINTS, true, .basicConstraints ⟨true, none⟩⟩,
      ⟨OID_X509_EXT_KEY_USAGE, true, .keyUsage ⟨6⟩⟩]
    (by rintro e he
        rcases List.mem_pair.mp he with rfl | rfl <;> trivial)

open scoped Reference in
theorem convertCertificate_congr_keyUsageFirst :
    ∃ c, convertCertificate keyUsageFirst = .ok c ∧
      convertCertificate basicConstraintsFirst = .ok c := by
  have hperm : ∀ s ∈ slots, (keyUsageFirst.tbsCertificate.extensionsWith s.oid).Perm
      (basicConstraintsFirst.tbsCertificate.extensionsWith s.oid) := by
    intro s hs
    rcases mem_slots.mp hs with rfl | rfl | rfl | rfl | rfl <;> exact List.Perm.of_eq rfl
  have htbs : basicConstraintsFirst.tbsCertificate =
      { keyUsageFirst.tbsCertificate with
        extensions := basicConstraintsFirst.tbsCertificate.extensions } := rfl
  exact ⟨_, rfl, (convertCertificate_congr htbs rfl rfl hperm _).mp rfl⟩

end C509
