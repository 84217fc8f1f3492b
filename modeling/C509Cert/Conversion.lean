/-
What the two converters share.

`from_json` and `from_x509` build certificates of one restricted shape: registered
algorithms, names of registered attributes, and five kinds of extensions.  For that shape
the conditions under which a certificate survives the wire come down to a few: the times,
the signs of name attributes, the path lengths, and a keyUsage alone.
-/
import C509Cert.RoundTrip

namespace C509

open Cbor Codec

/-! ### Loops that may fail -/

theorem bind_eq_ok {ε α β : Type} {x : Except ε α} {f : α → Except ε β} {y : β} :
    (x >>= f) = .ok y ↔ ∃ a, x = .ok a ∧ f a = .ok y := by
  cases x with
  | error e =>
      constructor
      · rintro ⟨⟩
      · rintro ⟨a, ⟨⟩, -⟩
  | ok a =>
      constructor
      · intro h
        exact ⟨a, rfl, h⟩
      · rintro ⟨a', ⟨⟩, h⟩
        exact h

/-- The list a fallible loop returns holds, in order, what each round returned. -/
theorem mapM_eq_ok {ε α β : Type} {f : α → Except ε β} :
    ∀ {l : List α} {l' : List β}, l.mapM f = .ok l' →
      List.Forall₂ (fun a b => f a = .ok b) l l' := by
  intro l
  induction l with
  | nil =>
      intro l' h
      cases h
      exact List.Forall₂.nil
  | cons a l ih =>
      intro l' h
      rw [List.mapM_cons] at h
      cases ha : f a with
      | error e => rw [ha] at h; cases h
      | ok b =>
          cases hl : l.mapM f with
          | error e => rw [ha, hl] at h; cases h
          | ok bs =>
              rw [ha, hl] at h
              cases h
              exact List.Forall₂.cons ha (ih hl)

/-- A property of the results is a property of the inputs. -/
theorem forall₂_all_iff {α β : Type} {R : α → β → Prop} {P : α → Prop} {Q : β → Prop}
    {l : List α} {l' : List β} (h : List.Forall₂ R l l')
    (hPQ : ∀ a ∈ l, ∀ b, R a b → (Q b ↔ P a)) : (∀ b ∈ l', Q b) ↔ ∀ a ∈ l, P a := by
  induction h with
  | nil => simp
  | cons hab _ ih =>
      rw [List.forall_mem_cons, List.forall_mem_cons, hPQ _ (by simp) _ hab,
        ih fun a ha => hPQ a (by simp [ha])]

/-- What every round returns holds of the results. -/
theorem forall₂_right {α β : Type} {R : α → β → Prop} {Q : β → Prop} {l : List α} {l' : List β}
    (h : List.Forall₂ R l l') (hQ : ∀ a b, R a b → Q b) : ∀ b ∈ l', Q b :=
  (forall₂_all_iff (P := fun _ => True) h fun a _ b hab =>
    ⟨fun _ => trivial, fun _ => hQ a b hab⟩).mpr fun _ _ => trivial

/-- Every input has a result. -/
theorem forall₂_exists {α β : Type} {R : α → β → Prop} {l : List α} {l' : List β}
    (h : List.Forall₂ R l l') : ∀ a ∈ l, ∃ b ∈ l', R a b := by
  induction h with
  | nil => simp
  | cons hab _ ih =>
      intro a ha
      rcases List.mem_cons.mp ha with rfl | htail
      · exact ⟨_, by simp, hab⟩
      · obtain ⟨b, hb, hab'⟩ := ih a htail
        exact ⟨b, by simp [hb], hab'⟩

/-! ### Attribute values -/

/-- `MacAddr::from_str`, of the `macaddr` crate. -/
class MacCrate where
  parse : String → Option MacAddr

namespace Reference

/-- The crate, as far as texts go that are not addresses. -/
scoped instance macCrate : MacCrate where
  parse _ := none

end Reference

/-- `special_text`, of `cert_json.rs` and of `x509_to_c509.rs`: a MAC address where the
text parses as one. -/
def specialText [MacCrate] (s : String) : SpecialText :=
  match MacCrate.parse s with
  | some mac => .mac mac
  | none => .text s

theorem specialText_valid [MacCrate] {s : String} (hs : (utf8 s).length < 2 ^ 64) :
    (specialText s).Valid := by
  unfold specialText
  split
  · trivial
  · exact hs

/-! ### Extensions of a registered id -/

section

variable [Minicbor] [OidCrate] [LawfulMinicbor] {D : Demands}

omit [OidCrate] in
theorem Extension.valid_int {id : Int32} {critical : Bool} {v : ExtensionValue}
    (hid : 0 < id.toInt) (hregistered : v.RegisteredFor id.toUInt32) :
    ({ id := .int id, critical, value := v } : Extension).Valid D ↔ v.Valid D := by
  constructor
  · exact fun h => h.2.2.2
  · intro hv
    refine ⟨Or.inl (by show 0 ≤ id.toInt; omega), ?_, hregistered, hv⟩
    rintro ⟨hzero, -⟩
    rw [show id = 0 from hzero] at hid
    exact absurd hid (by decide)

/-- Registry ids of the extensions both converters know. -/
def EXT_KEY_USAGE_ID : Int32 := 2
def EXT_SUBJECT_ALT_NAME_ID : Int32 := 3
def EXT_BASIC_CONSTRAINTS_ID : Int32 := 4
def EXT_AUTHORITY_KEY_IDENTIFIER_ID : Int32 := 7
def EXT_EXT_KEY_USAGE_ID : Int32 := 8

/-- `dNSName` -/
def GENERAL_NAME_DNS : Int32 := 2

/-- The general names of DNS names. -/
def dnsGeneralNames (names : List String) : List GeneralName :=
  names.map fun s => { kind := GENERAL_NAME_DNS, value := .dnsName s }

omit [OidCrate] in
theorem dnsGeneralNames_valid {names : List String} (hlen : names.length * 2 < 2 ^ 64)
    (hnames : ∀ s ∈ names, (utf8 s).length < 2 ^ 64) :
    GeneralNamesValid D (dnsGeneralNames names) := by
  refine ⟨by rwa [dnsGeneralNames, List.length_map], fun g hg => ?_⟩
  obtain ⟨s, hs, rfl⟩ := List.mem_map.mp hg
  exact ⟨GeneralName.kindAgrees_iff.mpr rfl, hnames s hs⟩

omit [Minicbor] [OidCrate] [LawfulMinicbor] in
theorem intPurposes_valid {ids : List Int32} (h : ids.length < 2 ^ 64) :
    (⟨ids.map IntOrOid.int⟩ : ExtKeyUsage).Valid D := by
  refine ⟨by rwa [List.length_map], fun p hp => ?_⟩
  obtain ⟨n, -, rfl⟩ := List.mem_map.mp hp
  trivial

/-! ### The shape of what is converted -/

/-- Registered attributes, each with what `special_text` makes of some text. -/
def Name.Expressible [MacCrate] (n : Name) : Prop :=
  ∀ a ∈ n.attrs, ∃ id printable s, a = .registered id printable (specialText s)

/-- One of the five extensions, under its own id. -/
inductive Extension.Expressible : Extension → Prop
  | basicConstraints (critical : Bool) (bc : BasicConstraints) :
      Expressible { id := .int EXT_BASIC_CONSTRAINTS_ID, critical, value := .basicConstraints bc }
  | keyUsage (critical : Bool) (n : UInt32) :
      Expressible { id := .int EXT_KEY_USAGE_ID, critical, value := .keyUsage n }
  | subjectAltName (critical : Bool) (names : List String) :
      Expressible { id := .int EXT_SUBJECT_ALT_NAME_ID, critical,
                    value := .subjectAltName (dnsGeneralNames names) }
  | authorityKeyIdentifier (critical : Bool) (keyIdentifier : Bytes) :
      Expressible { id := .int EXT_AUTHORITY_KEY_IDENTIFIER_ID, critical,
                    value := .authorityKeyIdentifier
                      { keyIdentifier, certIssuer := none, certSerial := none } }
  | extKeyUsage (critical : Bool) (ids : List Int32) :
      Expressible { id := .int EXT_EXT_KEY_USAGE_ID, critical,
                    value := .extKeyUsage ⟨ids.map IntOrOid.int⟩ }

/-- A certificate of the shape: nothing of it is left to another crate to read back. -/
structure C509Certificate.Converted [MacCrate] (c : C509Certificate) : Prop where
  signatureAlgorithm : ∃ id, c.tbs.issuerSignatureAlgorithm = .int id
  issuer : ∀ name ∈ c.tbs.issuer, name.Expressible
  subject : c.tbs.subject.Expressible
  publicKeyAlgorithm : ∃ id, c.tbs.subjectPublicKeyAlgorithm = .int id
  extensions : ∀ e ∈ c.tbs.extensions.exts, e.Expressible

section

variable {E : Demands}

omit [OidCrate] in
theorem Name.Expressible.valid [MacCrate] {n : Name} (h : n.Expressible) (hn : n.Valid D) :
    n.Valid E := by
  refine ⟨hn.1, fun a ha => ?_⟩
  obtain ⟨id, printable, s, rfl⟩ := h a ha
  exact hn.2 _ ha

omit [OidCrate] in
theorem Extension.Expressible.valid {e : Extension} (h : e.Expressible) (he : e.Valid D) :
    e.Valid E := by
  cases h with
  | basicConstraints critical bc => exact he
  | keyUsage critical n => exact he
  | subjectAltName critical names =>
      obtain ⟨hid, hzero, hregistered, hlen, hnames⟩ := he
      refine ⟨hid, hzero, hregistered, hlen, fun g hg => ?_⟩
      have hg' := hnames g hg
      obtain ⟨s, -, rfl⟩ := List.mem_map.mp hg
      exact hg'
  | authorityKeyIdentifier critical keyIdentifier =>
      obtain ⟨hid, hzero, hregistered, hlen, hboth, -, -⟩ := he
      exact ⟨hid, hzero, hregistered, hlen, hboth, nofun, nofun⟩
  | extKeyUsage critical ids =>
      obtain ⟨hid, hzero, hregistered, hlen, -⟩ := he
      exact ⟨hid, hzero, hregistered, intPurposes_valid (by rwa [List.length_map] at hlen)⟩

omit [OidCrate] in
/-- What is asked of the parts of other crates is asked of nothing in it. -/
theorem C509Certificate.Converted.valid [MacCrate] {c : C509Certificate} (h : c.Converted)
    (hc : c.Valid D) : c.Valid E :=
  { hc with
    signatureAlgorithm := by
      obtain ⟨id, hid⟩ := h.signatureAlgorithm
      rw [hid]
      trivial
    issuer := fun name hname => (h.issuer name hname).valid (hc.issuer name hname)
    subject := h.subject.valid hc.subject
    publicKeyAlgorithm := by
      obtain ⟨id, hid⟩ := h.publicKeyAlgorithm
      rw [hid]
      trivial
    extensions := ⟨hc.extensions.1, fun e he => (h.extensions e he).valid (hc.extensions.2 e he)⟩ }

end

namespace C509Certificate

omit [OidCrate] in
/--
A certificate whose lengths are those of things in memory, and whose extensions have ids
that can be written and no address blocks: what is left to check is what the wire has no
room for.
-/
theorem wireConsistent_iff {c : C509Certificate}
    (hserial : BigUint.Valid c.tbs.certificateSerialNumber)
    (hsig : c.tbs.issuerSignatureAlgorithm.Valid D)
    (hpk : c.tbs.subjectPublicKeyAlgorithm.Valid D)
    (hkey : c.tbs.subjectPublicKey.length < 2 ^ 64)
    (hvalue : c.issuerSignatureValue.length < 2 ^ 64)
    (hlen : c.tbs.extensions.exts.length * 2 < 2 ^ 64)
    (hfits : ∀ e ∈ c.tbs.extensions.exts, e.IdFits)
    (hnets : ∀ e ∈ c.tbs.extensions.exts, e.value.NoHostBits) :
    c.WireConsistent D ↔
      Name.OptionalValid D c.tbs.issuer ∧ c.tbs.validityNotBefore.Valid ∧
        (∀ t ∈ c.tbs.validityNotAfter, t.Valid) ∧ c.tbs.subject.Valid D ∧
        (∀ e ∈ c.tbs.extensions.exts, e.Valid D) ∧
        ∀ critical n, c.tbs.extensions.bareKeyUsage = some (critical, n) →
          n.toNat < 2 ^ 31 ∧ ¬ (critical = true ∧ n = 0) := by
  constructor
  · rintro ⟨hc, hencodable, hsigned, -⟩
    refine ⟨hc.issuer, hc.notBefore, hc.notAfter, hc.subject, hc.extensions.2, ?_⟩
    intro critical n hbare
    refine ⟨hencodable.2 critical n hbare, ?_⟩
    rintro ⟨rfl, rfl⟩
    exact hsigned hbare
  · rintro ⟨hissuer, hbefore, hafter, hsubject, hexts, hbare⟩
    exact {
      valid := ⟨hserial, hsig, hissuer, hbefore, hafter, hsubject, hpk, hkey, ⟨hlen, hexts⟩, hvalue⟩
      encodable := ⟨hfits, fun critical n h => (hbare critical n h).1⟩
      signed := fun h => (hbare true 0 h).2 ⟨rfl, rfl⟩
      networks := hnets }

end C509Certificate

end

end C509
