/-
Which converted certificates survive the wire.

The parser's ranges are wider than the wire's: times before 1970, path lengths from `2^31`
on, e-mail addresses that are printable strings, and a keyUsage that stands alone, critical,
with no flag set.  Nothing else of a converted certificate is lost.
-/
import C509Cert.X509ToC509.Correspondence

namespace C509

open Cbor Codec
open X509 hiding GeneralName BasicConstraints AuthorityKeyIdentifier AlgorithmIdentifier
  TbsCertificate

/-! ### Certificates the wire can express -/

/-- No e-mail address is a printable string. -/
def X509.X509Name.Representable (name : X509Name) : Prop :=
  ∀ a ∈ name.rdnSeq.flatten,
    ¬ (a.attrType = OID_PKCS9_EMAIL_ADDRESS ∧ a.attrValue.tag = Tag.PrintableString)

/-- The path length of a CA fits an `i32`. -/
def X509.ParsedExtension.PathLenFits (p : ParsedExtension) : Prop :=
  ∀ n, p = .basicConstraints ⟨true, some n⟩ → n.toNat < 2 ^ 31

/-- What the wire can express of a certificate. -/
structure X509.TbsCertificate.Representable (tbs : X509.TbsCertificate) : Prop where
  /-- whole seconds from 1970 to 9999 -/
  notBefore : tbs.validity.notBefore.Valid
  notAfter : tbs.validity.notAfter.unixTimestamp = NO_EXPIRATION_TIMESTAMP ∨
    tbs.validity.notAfter.Valid
  issuer : tbs.issuer.Representable
  subject : tbs.subject.Representable
  pathLens : ∀ e ∈ tbs.extensions, e.Recognized → e.parsedExtension.PathLenFits
  /-- of what is recognized, a critical keyUsage without flags is not the only one -/
  keyUsage : ¬ ∃ e ∈ tbs.extensions, e.Recognized ∧ e.critical = true ∧
    e.parsedExtension = .keyUsage ⟨0⟩ ∧ ∀ e' ∈ tbs.extensions, e'.Recognized → e'.oid = e.oid

/-! ### What is recognized is pushed -/

section

variable [Minicbor] [X509Parser]

/-- `out` is what the recognized extension `e` was pushed as. -/
structure PushedAs (tbs : X509.TbsCertificate) (e : X509Extension) (s : Slot) (v : ExtensionValue)
    (out : Extension) : Prop where
  mem : e ∈ tbs.extensions
  slot : s ∈ slots
  oid : e.oid = s.oid
  value : s.value e.parsedExtension = some (.ok v)
  out_eq : out = { id := .int s.id, critical := e.critical, value := v }

theorem PushedAs.recognized {tbs : X509.TbsCertificate} {e : X509Extension} {s : Slot}
    {v : ExtensionValue} {out : Extension} (h : PushedAs tbs e s v out) : e.Recognized :=
  (Slot.content (Slot.fills h.slot h.value)).1.trans (congrArg some h.oid.symm)

variable {tbs : X509.TbsCertificate} {rs : List (Option Extension)}

theorem pushedAs_of_mem (hrs : List.Forall₂ (Slot.Result tbs) slots rs) {out : Extension}
    (hout : out ∈ rs.reduceOption) : ∃ e s v, PushedAs tbs e s v out := by
  obtain ⟨s, hs, e, v, hone, hvalue, rfl⟩ := result_of_mem hrs hout
  obtain ⟨he, hoid⟩ := mem_extensionsWith.mp (hone ▸ List.mem_singleton_self e)
  exact ⟨e, s, v, he, hs, hoid, hvalue, rfl⟩

theorem exists_pushedAs (hrs : List.Forall₂ (Slot.Result tbs) slots rs) {e : X509Extension}
    (he : e ∈ tbs.extensions) (hrecognized : e.Recognized) :
    ∃ s v out, PushedAs tbs e s v out ∧ out ∈ rs.reduceOption := by
  obtain ⟨s, hs, hoid, -⟩ := exists_slot hrecognized
  obtain ⟨r, hr, hresult⟩ := forall₂_exists hrs s hs
  have hmem : e ∈ tbs.extensionsWith s.oid := mem_extensionsWith.mpr ⟨he, hoid.symm⟩
  cases hresult with
  | absent hnone =>
      rw [hnone] at hmem
      cases hmem
  | unparsed hone hvalue =>
      rw [hone] at hmem
      cases List.mem_singleton.mp hmem
      exact absurd hvalue (Slot.value_ne_none hs (hrecognized.trans (congrArg some hoid.symm)))
  | found hone hvalue =>
      rw [hone] at hmem
      cases List.mem_singleton.mp hmem
      exact ⟨s, _, _, ⟨he, hs, hoid.symm, hvalue, rfl⟩, List.reduceOption_mem_iff.mpr hr⟩

/-! ### A keyUsage alone -/

theorem slots_id_nodup : (slots.map fun s => IntOrOid.int s.id).Nodup := by
  show [IntOrOid.int EXT_BASIC_CONSTRAINTS_ID, .int EXT_KEY_USAGE_ID, .int EXT_EXT_KEY_USAGE_ID,
    .int EXT_SUBJECT_ALT_NAME_ID, .int EXT_AUTHORITY_KEY_IDENTIFIER_ID].Nodup
  decide

omit [Minicbor] [X509Parser] in
theorem eq_singleton_of_forall {α : Type} {l : List α} {a : α} (hl : l.Nodup) (ha : a ∈ l)
    (hall : ∀ x ∈ l, x = a) : l = [a] := by
  have hreplicate := List.eq_replicate_of_mem hall
  rw [hreplicate, List.nodup_replicate] at hl
  have hpos := List.length_pos_of_mem ha
  rw [hreplicate, show l.length = 1 by omega]
  rfl

/-- A keyUsage alone comes of the only recognized extension. -/
theorem bareKeyUsage_iff (hrs : List.Forall₂ (Slot.Result tbs) slots rs) :
    (∀ critical n, (⟨rs.reduceOption⟩ : Extensions).bareKeyUsage = some (critical, n) →
        n.toNat < 2 ^ 31 ∧ ¬ (critical = true ∧ n = 0)) ↔
      ¬ ∃ e ∈ tbs.extensions, e.Recognized ∧ e.critical = true ∧
        e.parsedExtension = .keyUsage ⟨0⟩ ∧
          ∀ e' ∈ tbs.extensions, e'.Recognized → e'.oid = e.oid := by
  have hnodup := (ids_sublist hrs).nodup slots_id_nodup
  constructor
  · rintro hbare ⟨e, he, hrecognized, hcritical, hform, honly⟩
    obtain ⟨s, v, out, hpushed, hout⟩ := exists_pushedAs hrs he hrecognized
    have halone : rs.reduceOption = [out] := by
      refine eq_singleton_of_forall (hnodup.of_map _) hout fun out' hout' => ?_
      obtain ⟨e', s', v', hpushed'⟩ := pushedAs_of_mem hrs hout'
      have hoid := honly e' hpushed'.mem hpushed'.recognized
      have hslot : s' = s := slots_oid_injective hpushed'.slot hpushed.slot
        (hpushed'.oid.symm.trans (hoid.trans hpushed.oid))
      refine List.inj_on_of_nodup_map hnodup hout' hout ?_
      rw [hpushed'.out_eq, hpushed.out_eq, hslot]
    have hkeyUsage : s = keyUsageSlot := by
      refine slots_oid_injective hpushed.slot (by simp [slots]) (hpushed.oid.symm.trans ?_)
      have hoid := hrecognized
      rw [X509Extension.Recognized, hform] at hoid
      exact (Option.some.inj hoid).symm
    have hvalue := hpushed.value
    rw [hkeyUsage, hform] at hvalue
    cases hvalue
    refine (hbare true 0 (Extensions.bareKeyUsage_eq_some.mpr ?_)).2 ⟨rfl, rfl⟩
    rw [halone, hpushed.out_eq, hkeyUsage, hcritical]
    rfl
  · intro hno critical n hbare
    have halone : rs.reduceOption =
        [{ id := .int KEY_USAGE_ID, critical, value := .keyUsage n }] :=
      congrArg Extensions.exts (Extensions.bareKeyUsage_eq_some.mp hbare)
    have hflags {e : X509Extension} {s : Slot} {v : ExtensionValue} {out : Extension}
        (hpushed : PushedAs tbs e s v out) (hout : out ∈ rs.reduceOption) :
        e.critical = critical ∧ e.oid = OID_X509_EXT_KEY_USAGE ∧
          ∃ flags : UInt16, e.parsedExtension = .keyUsage ⟨flags⟩ ∧ n = flags.toUInt32 := by
      rw [halone, hpushed.out_eq] at hout
      have heq := List.mem_singleton.mp hout
      have hoid := hpushed.recognized
      have hfills := Slot.fills hpushed.slot hpushed.value
      rw [show v = .keyUsage n from congrArg Extension.value heq] at hfills
      unfold X509Extension.Recognized at hoid
      generalize e.parsedExtension = p at hfills hoid ⊢
      cases hfills with
      | keyUsage ku =>
          exact ⟨congrArg Extension.critical heq, (Option.some.inj hoid).symm, ku.flags, rfl, rfl⟩
    have hone := halone ▸ List.mem_singleton_self _
    obtain ⟨e, s, v, hpushed⟩ := pushedAs_of_mem hrs hone
    obtain ⟨hcritical, hoid, flags, hform, hn⟩ := hflags hpushed hone
    have hlt : n.toNat < 2 ^ 16 := by
      rw [hn, UInt16.toNat_toUInt32]
      exact flags.toNat_lt
    refine ⟨by omega, ?_⟩
    rintro ⟨rfl, rfl⟩
    have hzero : flags = 0 := by
      have hnat := congrArg UInt32.toNat hn
      rw [UInt16.toNat_toUInt32] at hnat
      exact UInt16.toNat_inj.mp hnat.symm
    refine hno ⟨e, hpushed.mem, hpushed.recognized, hcritical, hzero ▸ hform, fun e' he' hrec => ?_⟩
    obtain ⟨s', v', out', hpushed', hout'⟩ := exists_pushedAs hrs he' hrec
    exact (hflags hpushed' hout').2.1.trans hoid.symm

/-! ### Values that are pushed -/

variable [OidCrate] [LawfulMinicbor]

omit [OidCrate] [LawfulMinicbor] in
theorem Slot.id_pos {s : Slot} (hs : s ∈ slots) : 0 < s.id.toInt := by
  rcases mem_slots.mp hs with rfl | rfl | rfl | rfl | rfl
  · show 0 < EXT_BASIC_CONSTRAINTS_ID.toInt
    decide
  · show 0 < EXT_KEY_USAGE_ID.toInt
    decide
  · show 0 < EXT_EXT_KEY_USAGE_ID.toInt
    decide
  · show 0 < EXT_SUBJECT_ALT_NAME_ID.toInt
    decide
  · show 0 < EXT_AUTHORITY_KEY_IDENTIFIER_ID.toInt
    decide

omit [OidCrate] [LawfulMinicbor] in
theorem Fills.registered {s : Slot} {p : ParsedExtension} {v : ExtensionValue} (h : Fills s p v) :
    v.RegisteredFor s.id.toUInt32 ∧ v.NoHostBits := by
  cases h <;> exact ⟨rfl, trivial⟩

omit [OidCrate] in
/-- The one part of a value that is checked too late is the path length. -/
theorem Fills.valid_iff {s : Slot} {p : ParsedExtension} {v : ExtensionValue} (h : Fills s p v)
    {D : Demands} (hmem : p.InMemory) : v.Valid D ↔ p.PathLenFits := by
  cases h with
  | basicConstraints bc =>
      match bc with
      | ⟨false, _⟩ => exact ⟨fun _ _ h => (by cases h), fun _ => trivial⟩
      | ⟨true, none⟩ => exact ⟨fun _ _ h => (by cases h), fun _ => trivial⟩
      | ⟨true, some n⟩ =>
          constructor
          · rintro hn _ ⟨⟩
            exact hn
          · intro hfits
            exact hfits n rfl
  | keyUsage ku => exact ⟨fun _ _ h => (by cases h), fun _ => trivial⟩
  | extendedKeyUsage eku hother =>
      refine ⟨fun _ _ h => (by cases h), fun _ => intPurposes_valid ?_⟩
      rw [extendedKeyUsageIds, List.length_map]
      exact (List.length_filter_le _ _).trans_lt (by show 7 < 2 ^ 64; decide)
  | subjectAltName san names hnames =>
      refine ⟨fun _ _ h => (by cases h), fun _ => ⟨by rw [← hnames.length_eq]; exact hmem.1, ?_⟩⟩
      refine (forall₂_all_iff (P := fun _ => True) hnames fun x hx g => ?_).mpr fun _ _ => trivial
      rintro ⟨s, rfl, rfl⟩
      exact ⟨fun _ => trivial, fun _ => ⟨GeneralName.kindAgrees_iff.mpr rfl, hmem.2 s hx⟩⟩
  | authorityKeyIdentifier aki keyIdentifier hkey =>
      exact ⟨fun _ _ h => (by cases h), fun _ => ⟨hmem keyIdentifier hkey, rfl, by simp, by simp⟩⟩

omit [OidCrate] in
theorem PushedAs.valid_iff {e : X509Extension} {s : Slot} {v : ExtensionValue} {out : Extension}
    {D : Demands} (h : PushedAs tbs e s v out) (hmem : tbs.InMemory) :
    out.Valid D ↔ e.parsedExtension.PathLenFits := by
  have hfills := Slot.fills h.slot h.value
  rw [h.out_eq, Extension.valid_int (Slot.id_pos h.slot) hfills.registered.1]
  exact hfills.valid_iff (hmem.extensions e h.mem)

omit [OidCrate] in
/-- The extensions that are pushed are valid where the path lengths fit. -/
theorem pushed_valid_iff (D : Demands) (hrs : List.Forall₂ (Slot.Result tbs) slots rs)
    (hmem : tbs.InMemory) : (∀ out ∈ rs.reduceOption, out.Valid D) ↔
      ∀ e ∈ tbs.extensions, e.Recognized → e.parsedExtension.PathLenFits := by
  constructor
  · intro hvalid e he hrecognized
    obtain ⟨s, v, out, hpushed, hout⟩ := exists_pushedAs hrs he hrecognized
    exact (hpushed.valid_iff hmem).mp (hvalid out hout)
  · intro hfits out hout
    obtain ⟨e, s, v, hpushed⟩ := pushedAs_of_mem hrs hout
    exact (hpushed.valid_iff hmem).mpr (hfits e hpushed.mem hpushed.recognized)

/-! ### Names -/

omit [Minicbor] [X509Parser] [OidCrate] [LawfulMinicbor] in
theorem lookupOid_mem {α : Type} {oid : Oid} {table : List (Oid × α)} {a : α}
    (h : lookupOid oid table = some a) : (oid, a) ∈ table := by
  obtain ⟨⟨o, a'⟩, hfind, rfl⟩ := Option.map_eq_some_iff.mp h
  have hmem := List.mem_of_find?_eq_some hfind
  have hkey := List.find?_some hfind
  rwa [show o = oid from of_decide_eq_true hkey] at hmem

omit [Minicbor] [X509Parser] [OidCrate] [LawfulMinicbor] in
theorem rdnAttributeId_eq_zero {oid : Oid} {id : UInt16} (h : rdnAttributeId oid = some id) :
    id = 0 ↔ oid = OID_PKCS9_EMAIL_ADDRESS := by
  have htable : ∀ p ∈ RDN_ATTRIBUTE_OIDS, p.2 = 0 ↔ p.1 = OID_PKCS9_EMAIL_ADDRESS := by decide
  exact htable (oid, id) (lookupOid_mem h)

variable [MacCrate]

omit [OidCrate] in
theorem attributeToRdn_valid_iff [LawfulX509Parser] {D : Demands} {a : Attribute}
    {r : RdnAttribute} (h : attributeToRdn a = .ok r) : r.Valid D ↔
      ¬ (a.attrType = OID_PKCS9_EMAIL_ADDRESS ∧ a.attrValue.tag = Tag.PrintableString) := by
  obtain ⟨id, hid, h₁⟩ := bind_eq_ok.mp h
  obtain ⟨value, hvalue, hpure⟩ := bind_eq_ok.mp h₁
  cases hpure
  have hzero := rdnAttributeId_eq_zero (orX509_ok.mp hid)
  have hlen := LawfulX509Parser.asStr_length (inContext_ok.mp hvalue)
  constructor
  · rintro ⟨hsign, -⟩ ⟨hemail, hprintable⟩
    exact hsign ⟨hzero.mpr hemail, decide_eq_true hprintable⟩
  · intro hno
    refine ⟨?_, specialText_valid hlen⟩
    rintro ⟨hid0, hprintable⟩
    exact hno ⟨hzero.mp hid0, of_decide_eq_true hprintable⟩

omit [OidCrate] in
theorem nameToRdn_valid_iff [LawfulX509Parser] {D : Demands} {name : X509Name} {n : Name}
    (hmem : name.InMemory) (h : nameToRdn name = .ok n) : n.Valid D ↔ name.Representable := by
  obtain ⟨attrs, hattrs, hpure⟩ := bind_eq_ok.mp h
  cases hpure
  rw [LawfulX509Parser.iterAttributes_eq] at hattrs
  have hforall := mapM_eq_ok hattrs
  have hall := forall₂_all_iff hforall fun a _ r =>
    attributeToRdn_valid_iff (D := D) (a := a) (r := r)
  constructor
  · intro hvalid
    exact hall.mp hvalid.2
  · intro hrep
    exact ⟨by rw [← hforall.length_eq]; exact hmem, hall.mpr hrep⟩

/-! ### Certificates -/

omit [Minicbor] [X509Parser] [OidCrate] [LawfulMinicbor] [MacCrate] in
theorem notAfter_valid_iff (notAfter : OffsetDateTime) :
    (∀ t ∈ (if notAfter.unixTimestamp = NO_EXPIRATION_TIMESTAMP then none else some notAfter),
        t.Valid) ↔ notAfter.unixTimestamp = NO_EXPIRATION_TIMESTAMP ∨ notAfter.Valid := by
  split
  · rename_i hlast
    exact ⟨fun _ => Or.inl hlast, fun _ _ ht => (by cases ht)⟩
  · rename_i hlast
    constructor
    · intro hvalid
      exact Or.inr (hvalid notAfter rfl)
    · rintro (hlast' | hvalid) _ ⟨⟩
      · exact absurd hlast' hlast
      · exact hvalid

/-- **A converted certificate survives the wire exactly where the wire can express what it
was converted from.** -/
theorem convertCertificate_roundTrips_iff [LawfulOid] [LawfulX509Parser] {cert : X509Certificate}
    {c : C509Certificate} (h : convertCertificate cert = .ok c) :
    c.RoundTrips ↔ cert.tbsCertificate.Representable := by
  refine (C509Certificate.roundTrips_iff (convertCertificate_converted h).valid).trans ?_
  obtain ⟨exts, hexts, h₁⟩ := bind_eq_ok.mp h
  obtain ⟨sig, -, h₂⟩ := bind_eq_ok.mp h₁
  obtain ⟨issuer, hissuer, h₃⟩ := bind_eq_ok.mp h₂
  obtain ⟨subject, hsubject, h₄⟩ := bind_eq_ok.mp h₃
  obtain ⟨key, -, h₅⟩ := bind_eq_ok.mp h₄
  cases h₅
  obtain ⟨rs, hrs, rfl⟩ := convertExtensions_ok hexts
  have hmem := cert.tbsInMemory
  have hpushed : ∀ out ∈ rs.reduceOption, out.IdFits ∧ out.value.NoHostBits := by
    intro out hout
    obtain ⟨e, s, v, hp⟩ := pushedAs_of_mem hrs hout
    rw [hp.out_eq]
    have hpos := Slot.id_pos hp.slot
    refine ⟨fun hmin => ?_, (Slot.fills hp.slot hp.value).registered.2⟩
    rw [IntOrOid.int.inj hmin] at hpos
    exact absurd hpos (by decide)
  have hlen : rs.reduceOption.length * 2 < 2 ^ 64 := by
    have hle := rs.reduceOption_length_le
    rw [← hrs.length_eq] at hle
    have hfive : (slots : List Slot).length = 5 := rfl
    omega
  rw [C509Certificate.wireConsistent_iff
    (BigUint.valid_fromBytesBe hmem.serial) (by trivial) (by trivial) hmem.publicKey
    cert.signatureInMemory hlen (fun e he => (hpushed e he).1) fun e he => (hpushed e he).2]
  have hissuer' := nameToRdn_valid_iff (D := .readBack) hmem.issuer hissuer
  have hsubject' := nameToRdn_valid_iff (D := .readBack) hmem.subject hsubject
  have hafter := notAfter_valid_iff cert.tbsCertificate.validity.notAfter
  constructor
  · rintro ⟨hname, htime, htimes, hname', hall, hbare⟩
    exact ⟨htime, hafter.mp htimes, hissuer'.mp (hname issuer rfl), hsubject'.mp hname',
      (pushed_valid_iff _ hrs hmem).mp hall, (bareKeyUsage_iff hrs).mp hbare⟩
  · rintro ⟨htime, htimes, hname, hname', hall, hbare⟩
    refine ⟨?_, htime, hafter.mpr htimes, hsubject'.mpr hname',
      (pushed_valid_iff _ hrs hmem).mpr hall, (bareKeyUsage_iff hrs).mpr hbare⟩
    rintro _ ⟨⟩
    exact hissuer'.mpr hname

end

/-- A CA whose path length is `2^31`. -/
def longPath : X509Certificate :=
  X509.small ⟨OID_X509_COMMON_NAME, ⟨⟨12⟩, [0x61]⟩⟩
    [⟨OID_X509_EXT_BASIC_CONSTRAINTS, true, .basicConstraints ⟨true, some 2147483648⟩⟩]
    (by rintro e he; rw [List.mem_singleton.mp he]; trivial)

/-- A subject whose e-mail address is a printable string. -/
def printableEmail : X509Certificate :=
  X509.small ⟨OID_PKCS9_EMAIL_ADDRESS, ⟨Tag.PrintableString, [0x61]⟩⟩ []
    X509.inMemory_nil

open scoped Reference in
/-- The path length panics; the e-mail address comes back as another string. -/
theorem convertCertificate_not_representable :
    (∃ c, convertCertificate longPath = .ok c ∧
      c.encode = .panicked "Vec<u8> writer is infallible" ∧
      c.encodeSequence = .panicked "Vec<u8> writer is infallible") ∧
    ∃ c b c', convertCertificate printableEmail = .ok c ∧ c.encode = .returned b ∧
      C509Certificate.decode b = .ok c' ∧ c' ≠ c :=
  ⟨⟨_, rfl, rfl, rfl⟩, _, _, _, rfl, rfl, rfl, by decide⟩

open scoped Reference in
theorem convertCertificate_roundTrips_iff_email :
    ∃ c, convertCertificate printableEmail = .ok c ∧
      (c.RoundTrips ↔ printableEmail.tbsCertificate.Representable) :=
  ⟨_, rfl, convertCertificate_roundTrips_iff rfl⟩

end C509
