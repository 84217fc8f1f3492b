/-
What two names of X.509 have in common when they convert to one (`name_to_rdn`).

A name of C509 is a flat list, so which relative name an attribute stood in is not part of
the result; and a text that reads as a MAC address is kept as the address, so its spelling
is not.  Nothing else is lost: the id of an attribute gives its identifier back, and the flag
its tag.
-/
import C509Cert.TextCrates
import C509Cert.X509ToC509.RoundTrip

namespace C509

open Cbor Codec
open X509 hiding GeneralName BasicConstraints AuthorityKeyIdentifier AlgorithmIdentifier
  TbsCertificate

namespace X509

/-- `Tag::Utf8String` -/
def Tag.Utf8String : Tag := ⟨12⟩

/-- Every value is of one of the two string types. -/
def X509Name.StringTags (name : X509Name) : Prop :=
  ∀ a ∈ name.rdnSeq.flatten,
    a.attrValue.tag = Tag.Utf8String ∨ a.attrValue.tag = Tag.PrintableString

end X509

/-- Lists that are made of others element by element are equal where the others agree. -/
theorem forall₂_eq_iff {α β : Type} {R : α → β → Prop} {S : α → α → Prop} {l l' : List α}
    {m m' : List β} (h : List.Forall₂ R l m) (h' : List.Forall₂ R l' m')
    (hS : ∀ a ∈ l, ∀ b ∈ l', ∀ x y, R a x → R b y → (x = y ↔ S a b)) :
    m = m' ↔ List.Forall₂ S l l' := by
  induction h generalizing l' m' with
  | nil =>
      cases h' with
      | nil => exact iff_of_true rfl List.Forall₂.nil
      | cons hb _ =>
          refine iff_of_false (by simp) ?_
          rintro ⟨⟩
  | cons ha _ ih =>
      cases h' with
      | nil =>
          refine iff_of_false (by simp) ?_
          rintro ⟨⟩
      | cons hb hl' =>
          have hrest := ih hl' fun a ha b hb => hS a (by simp [ha]) b (by simp [hb])
          rw [List.cons.injEq, List.forall₂_cons, hrest, hS _ (by simp) _ (by simp) _ _ ha hb]

section

variable [MacCrate]

/-- The same text, or two spellings of one MAC address. -/
def SameText (s t : String) : Prop :=
  s = t ∨ ∃ mac, MacCrate.parse s = some mac ∧ MacCrate.parse t = some mac

theorem specialText_eq_iff {s t : String} : specialText s = specialText t ↔ SameText s t := by
  unfold specialText SameText
  cases hs : MacCrate.parse s with
  | none =>
      cases ht : MacCrate.parse t with
      | none => simp
      | some mac =>
          simp only [reduceCtorEq, false_and, exists_false, or_false, false_iff]
          rintro rfl
          rw [hs] at ht
          cases ht
  | some mac =>
      cases ht : MacCrate.parse t with
      | none =>
          simp only [reduceCtorEq, and_false, exists_false, or_false, false_iff]
          rintro rfl
          rw [hs] at ht
          cases ht
      | some mac' =>
          simp only [SpecialText.mac.injEq, Option.some.injEq, exists_eq_left']
          constructor
          · rintro rfl
            exact Or.inr rfl
          · rintro (rfl | hmac)
            · rw [hs] at ht
              exact Option.some.inj ht
            · exact hmac.symm

variable [Minicbor] [X509Parser]

/-- The same identifier, the same string type, and the same text. -/
def SameAttribute (a b : Attribute) : Prop :=
  a.attrType = b.attrType ∧ a.attrValue.tag = b.attrValue.tag ∧
    ∃ s t, X509Parser.asStr a = .ok s ∧ X509Parser.asStr b = .ok t ∧ SameText s t

omit [MacCrate] [Minicbor] [X509Parser] in
/-- An id is registered for one identifier. -/
theorem rdnAttributeId_injective {o o' : Oid} {id : UInt16} (h : rdnAttributeId o = some id)
    (h' : rdnAttributeId o' = some id) : o = o' := by
  have hids : (RDN_ATTRIBUTE_OIDS.map (·.2)).Nodup := by decide
  exact congrArg Prod.fst
    (List.inj_on_of_nodup_map hids (lookupOid_mem h) (lookupOid_mem h') rfl)

theorem attributeToRdn_eq_iff {a b : Attribute} {x y : RdnAttribute}
    (ha : a.attrValue.tag = Tag.Utf8String ∨ a.attrValue.tag = Tag.PrintableString)
    (hb : b.attrValue.tag = Tag.Utf8String ∨ b.attrValue.tag = Tag.PrintableString)
    (hx : attributeToRdn a = .ok x) (hy : attributeToRdn b = .ok y) :
    x = y ↔ SameAttribute a b := by
  obtain ⟨id, hid, h⟩ := bind_eq_ok.mp hx
  obtain ⟨s, hs, h⟩ := bind_eq_ok.mp h
  obtain ⟨id', hid', h'⟩ := bind_eq_ok.mp hy
  obtain ⟨t, ht, h'⟩ := bind_eq_ok.mp h'
  cases h
  cases h'
  rw [orX509_ok] at hid hid'
  rw [inContext_ok] at hs ht
  have htype : id = id' ↔ a.attrType = b.attrType := by
    constructor
    · rintro rfl
      exact rdnAttributeId_injective hid hid'
    · intro h
      rw [h, hid'] at hid
      exact (Option.some.inj hid).symm
  have htag : decide (a.attrValue.tag = Tag.PrintableString) =
      decide (b.attrValue.tag = Tag.PrintableString) ↔ a.attrValue.tag = b.attrValue.tag := by
    rcases ha with ha | ha <;> rcases hb with hb | hb <;> rw [ha, hb] <;> decide
  rw [RdnAttr.registered.injEq, htype, htag, specialText_eq_iff]
  constructor
  · rintro ⟨h1, h2, h3⟩
    exact ⟨h1, h2, s, t, hs, ht, h3⟩
  · rintro ⟨h1, h2, s', t', hs', ht', h3⟩
    rw [hs] at hs'
    rw [ht] at ht'
    cases hs'
    cases ht'
    exact ⟨h1, h2, h3⟩

/--
**Two names convert to the same exactly where their attributes agree one by one.**  The
attributes are those of all relative names in order, and they agree in their identifiers,
their string types and their texts, up to the spelling of MAC addresses.
-/
theorem nameToRdn_eq_iff [LawfulX509Parser] {name name' : X509Name} {n n' : Name}
    (htags : name.StringTags) (htags' : name'.StringTags) (h : nameToRdn name = .ok n)
    (h' : nameToRdn name' = .ok n') :
    n = n' ↔ List.Forall₂ SameAttribute name.rdnSeq.flatten name'.rdnSeq.flatten := by
  obtain ⟨attrs, hattrs, hn⟩ := bind_eq_ok.mp h
  obtain ⟨attrs', hattrs', hn'⟩ := bind_eq_ok.mp h'
  cases hn
  cases hn'
  rw [LawfulX509Parser.iterAttributes_eq] at hattrs hattrs'
  rw [Name.mk.injEq]
  exact forall₂_eq_iff (mapM_eq_ok hattrs) (mapM_eq_ok hattrs') fun a ha b hb x y =>
    attributeToRdn_eq_iff (htags a ha) (htags' b hb)

end

/-! ### Names that become one -/

/-- A common name. -/
def commonName (s : String) : Attribute := ⟨OID_X509_COMMON_NAME, ⟨Tag.Utf8String, utf8 s⟩⟩

/-- An organizational unit. -/
def unitName (s : String) : Attribute := ⟨OID_X509_ORGANIZATIONAL_UNIT, ⟨Tag.Utf8String, utf8 s⟩⟩

/-- One address with dashes and small letters. -/
def dashedName : X509Name := ⟨[[commonName "01-23-45-67-89-ab"]]⟩

/-- The same address with colons and capitals. -/
def colonName : X509Name := ⟨[[commonName "01:23:45:67:89:AB"]]⟩

/-- Two attributes in one relative name. -/
def jointName : X509Name := ⟨[[commonName "a", unitName "b"]]⟩

/-- The same attributes in a relative name each. -/
def apartName : X509Name := ⟨[[commonName "a"], [unitName "b"]]⟩

theorem stringTags_samples : (dashedName.StringTags ∧ colonName.StringTags) ∧
    jointName.StringTags ∧ apartName.StringTags := by
  unfold X509Name.StringTags
  decide

namespace Reference

/-- MAC addresses with dashes or colons, in digits of either case. -/
@[reducible] def macTexts : MacCrate := ⟨TextCrates.macParse⟩

end Reference

theorem nameToRdn_eq_iff_dashed : ∃ n n',
    @nameToRdn Reference.minicbor Reference.x509Parser Reference.macTexts dashedName = .ok n ∧
    @nameToRdn Reference.minicbor Reference.x509Parser Reference.macTexts colonName = .ok n' ∧
    (n = n' ↔ List.Forall₂ (@SameAttribute Reference.macTexts Reference.x509Parser)
      dashedName.rdnSeq.flatten colonName.rdnSeq.flatten) :=
  ⟨_, _, rfl, rfl, @nameToRdn_eq_iff Reference.macTexts Reference.minicbor Reference.x509Parser
    Reference.lawfulX509Parser _ _ _ _ stringTags_samples.1.1 stringTags_samples.1.2 rfl rfl⟩

/-- The grouping is lost, and so is the spelling. -/
theorem nameToRdn_not_injective :
    (jointName.StringTags ∧ apartName.StringTags ∧
      jointName.rdnSeq.map List.length ≠ apartName.rdnSeq.map List.length ∧ ∃ n,
        @nameToRdn Reference.minicbor Reference.x509Parser Reference.macTexts jointName = .ok n ∧
        @nameToRdn Reference.minicbor Reference.x509Parser Reference.macTexts apartName = .ok n) ∧
    dashedName.StringTags ∧ colonName.StringTags ∧
      dashedName.rdnSeq.flatten.map (fun a => a.attrValue.data) ≠
        colonName.rdnSeq.flatten.map (fun a => a.attrValue.data) ∧
      ∃ n,
        @nameToRdn Reference.minicbor Reference.x509Parser Reference.macTexts dashedName = .ok n ∧
        @nameToRdn Reference.minicbor Reference.x509Parser Reference.macTexts colonName =
          .ok n := by
  obtain ⟨⟨hdashed, hcolon⟩, hjoint, hapart⟩ := stringTags_samples
  exact ⟨⟨hjoint, hapart, by decide, _, rfl, rfl⟩, hdashed, hcolon, by decide, _, rfl, rfl⟩

end C509
