/-
Which documents and X.509 certificates convert to certificates that can be written.

The converters accept more than the encoders write.  What the encoders ask of a certificate
is traced back here to the members of the document, and to the fields of the X.509
certificate, that it was made from.
-/
import C509Cert.CertJson
import C509Cert.Writable
import C509Cert.X509ToC509.Acceptance
import C509Cert.X509ToC509.RoundTrip

namespace C509

open Cbor Codec

/-! ### Certificates from JSON -/

section

variable [Minicbor] [JsonCrates] [MacCrate] [OidCrate]

/-- The times are from 1970 on, and the numbers of an extension fit. -/
structure JsonCertificate.Writable (doc : JsonCertificate) : Prop where
  notBefore : ∀ t, JsonCrates.parseRfc3339 doc.validityNotBefore = .ok t → t.Writable
  notAfter : ∀ s ∈ doc.validityNotAfter, ∀ t, JsonCrates.parseRfc3339 s = .ok t → t.Writable
  pathLens : ∀ e ∈ doc.extensions, e.Representable
  keyUsage : ∀ critical value, doc.extensions = [.keyUsage critical value] → value.toNat < 2 ^ 31

omit [MacCrate] [OidCrate] in
theorem JsonExtension.intoExtension_writable_iff {j : JsonExtension} {e : Extension}
    (h : j.intoExtension = .ok e) : e.Writable ↔ j.Representable := by
  cases j with
  | basicConstraints critical ca pathLen =>
      cases h
      refine (and_iff_right fun _ => by decide).trans ?_
      match ca, pathLen with
      | false, _ => exact iff_of_true trivial trivial
      | true, none => exact iff_of_true trivial trivial
      | true, some n => exact Iff.rfl
  | authorityKeyIdentifier critical keyIdentifier =>
      obtain ⟨b, -, hpure⟩ := bind_eq_ok.mp h
      cases hpure
      exact iff_of_true ⟨fun _ => by decide, rfl⟩ trivial
  | _ =>
      cases h
      exact iff_of_true ⟨fun _ => by decide, trivial⟩ trivial

omit [MacCrate] [OidCrate] in
theorem parseOptTime_writable_iff {field : String} {o : Option String}
    {after : Option OffsetDateTime} (h : parseOptTime field o = .ok after) :
    (∀ t ∈ after, t.Writable) ↔
      ∀ s ∈ o, ∀ t, JsonCrates.parseRfc3339 s = .ok t → t.Writable := by
  cases o with
  | none =>
      cases h
      exact iff_of_true (fun _ ht => by cases ht) (fun _ hs => by cases hs)
  | some s =>
      obtain ⟨t, ht, hpure⟩ := bind_eq_ok.mp h
      cases hpure
      have hparsed := parseTime_eq_ok.mp ht
      constructor
      · rintro hw _ ⟨⟩ t' ht'
        obtain rfl := Except.ok.inj (ht'.symm.trans hparsed)
        exact hw _ rfl
      · rintro hall _ ⟨⟩
        exact hall s rfl t hparsed

/-- **Which documents make the encoders panic**: those described, and no others. -/
theorem fromJson_returns_iff {input : String} {doc : JsonCertificate} {c : C509Certificate}
    (hdoc : JsonCrates.fromStr input = .ok doc) (h : fromJson input = .ok c) :
    ((∃ o, c.encode = .returned o) ↔ doc.Writable) ∧
      ((∃ o, c.encodeSequence = .returned o) ↔ doc.Writable) := by
  rw [fromJson_eq hdoc] at h
  obtain ⟨serial, -, h₁⟩ := bind_eq_ok.mp h
  obtain ⟨before, hbefore, h₂⟩ := bind_eq_ok.mp h₁
  obtain ⟨after, hafter, h₃⟩ := bind_eq_ok.mp h₂
  obtain ⟨key, -, h₄⟩ := bind_eq_ok.mp h₃
  obtain ⟨value, -, h₅⟩ := bind_eq_ok.mp h₄
  obtain ⟨exts, hmap, h₆⟩ := bind_eq_ok.mp h₅
  cases h₆
  have hforall := mapM_eq_ok hmap
  have hexts : (∀ e ∈ exts, e.Writable) ↔ ∀ j ∈ doc.extensions, j.Representable :=
    forall₂_all_iff hforall fun j _ e he => JsonExtension.intoExtension_writable_iff he
  have hbefore' := parseTime_eq_ok.mp hbefore
  rw [C509Certificate.encode_returns_iff.1, C509Certificate.encode_returns_iff.2]
  suffices hiff : C509Certificate.Writable _ ↔ doc.Writable from ⟨hiff, hiff⟩
  constructor
  · rintro ⟨hfirst, hlast, hall, hbare⟩
    exact {
      notBefore := fun t ht => by rwa [Except.ok.inj (ht.symm.trans hbefore')]
      notAfter := (parseOptTime_writable_iff hafter).mp hlast
      pathLens := hexts.mp hall
      keyUsage := fun critical n hn =>
        hbare critical n ((bareKeyUsage_iff_of_json hforall).mpr hn) }
  · rintro ⟨hfirst, hlast, hall, hbare⟩
    exact ⟨hfirst before hbefore', (parseOptTime_writable_iff hafter).mpr hlast, hexts.mpr hall,
      fun critical n hn => hbare critical n ((bareKeyUsage_iff_of_json hforall).mp hn)⟩

end

/-! ### Certificates from X.509 -/

section

open X509 hiding GeneralName BasicConstraints AuthorityKeyIdentifier AlgorithmIdentifier
  TbsCertificate

/-- The times are from 1970 on, and the path lengths fit. -/
structure X509.TbsCertificate.Writable (tbs : X509.TbsCertificate) : Prop where
  notBefore : tbs.validity.notBefore.Writable
  notAfter : tbs.validity.notAfter.unixTimestamp = NO_EXPIRATION_TIMESTAMP ∨
    tbs.validity.notAfter.Writable
  pathLens : ∀ e ∈ tbs.extensions, e.Recognized → e.parsedExtension.PathLenFits

variable [Minicbor] [X509Parser]

theorem Fills.writable_iff {s : Slot} {p : ParsedExtension} {v : ExtensionValue}
    (h : Fills s p v) : v.Writable ↔ p.PathLenFits := by
  cases h with
  | basicConstraints bc =>
      match bc with
      | ⟨false, _⟩ => exact iff_of_true trivial (fun _ h => by cases h)
      | ⟨true, none⟩ => exact iff_of_true trivial (fun _ h => by cases h)
      | ⟨true, some n⟩ =>
          constructor
          · rintro hn _ ⟨⟩
            exact hn
          · intro hfits
            exact hfits n rfl
  | authorityKeyIdentifier aki keyIdentifier hkey => exact iff_of_true rfl (fun _ h => by cases h)
  | keyUsage | extendedKeyUsage | subjectAltName =>
      exact iff_of_true trivial (fun _ h => by cases h)

theorem PushedAs.writable_iff {tbs : X509.TbsCertificate} {e : X509Extension} {s : Slot}
    {v : ExtensionValue} {out : Extension} (h : PushedAs tbs e s v out) :
    out.Writable ↔ e.parsedExtension.PathLenFits := by
  have hpos := Slot.id_pos h.slot
  have hid : s.id ≠ Int32.minValue := by
    intro hmin
    rw [hmin] at hpos
    exact absurd hpos (by decide)
  rw [h.out_eq]
  exact (and_iff_right fun _ => hid).trans (Slot.fills h.slot h.value).writable_iff

variable [MacCrate] [OidCrate]

/-- **Which X.509 certificates make the encoders panic** once they are converted. -/
theorem convertCertificate_returns_iff [LawfulX509Parser] {cert : X509Certificate}
    {c : C509Certificate} (h : convertCertificate cert = .ok c) :
    ((∃ o, c.encode = .returned o) ↔ cert.tbsCertificate.Writable) ∧
      ((∃ o, c.encodeSequence = .returned o) ↔ cert.tbsCertificate.Writable) := by
  obtain ⟨exts, hexts, h₁⟩ := bind_eq_ok.mp h
  obtain ⟨sig, -, h₂⟩ := bind_eq_ok.mp h₁
  obtain ⟨issuer, -, h₃⟩ := bind_eq_ok.mp h₂
  obtain ⟨subject, -, h₄⟩ := bind_eq_ok.mp h₃
  obtain ⟨key, -, h₅⟩ := bind_eq_ok.mp h₄
  cases h₅
  obtain ⟨rs, hrs, rfl⟩ := convertExtensions_ok hexts
  have hall : (∀ out ∈ rs.reduceOption, out.Writable) ↔
      ∀ e ∈ cert.tbsCertificate.extensions, e.Recognized → e.parsedExtension.PathLenFits := by
    constructor
    · intro hw e he hrecognized
      obtain ⟨s, v, out, hpushed, hout⟩ := exists_pushedAs hrs he hrecognized
      exact hpushed.writable_iff.mp (hw out hout)
    · intro hfits out hout
      obtain ⟨e, s, v, hpushed⟩ := pushedAs_of_mem hrs hout
      exact hpushed.writable_iff.mpr (hfits e hpushed.mem hpushed.recognized)
  -- the flags of a keyUsage are a `u16`
  have hbare : ∀ critical n, (⟨rs.reduceOption⟩ : Extensions).bareKeyUsage = some (critical, n) →
      n.toNat < 2 ^ 31 := by
    intro critical n hn
    have halone : rs.reduceOption = [{ id := .int KEY_USAGE_ID, critical, value := .keyUsage n }] :=
      congrArg Extensions.exts (Extensions.bareKeyUsage_eq_some.mp hn)
    obtain ⟨e, s, v, hpushed⟩ := pushedAs_of_mem hrs (halone ▸ List.mem_singleton_self _)
    have hfills := Slot.fills hpushed.slot hpushed.value
    rw [← show ExtensionValue.keyUsage n = v from congrArg Extension.value hpushed.out_eq]
      at hfills
    generalize e.parsedExtension = p at hfills
    cases hfills with
    | keyUsage ku =>
        have hflags := ku.flags.toNat_lt
        rw [UInt16.toNat_toUInt32]
        omega
  rw [C509Certificate.encode_returns_iff.1, C509Certificate.encode_returns_iff.2]
  suffices hiff : C509Certificate.Writable _ ↔ cert.tbsCertificate.Writable from ⟨hiff, hiff⟩
  constructor
  · rintro ⟨hfirst, htimes, hw, -⟩
    exact ⟨hfirst, notAfter_forall_iff.mp htimes, hall.mp hw⟩
  · rintro ⟨hfirst, htimes, hw⟩
    exact ⟨hfirst, notAfter_forall_iff.mpr htimes, hall.mpr hw, hbare⟩

end

open scoped Reference in
/-- The path length of `2^31` in a document. -/
theorem fromJson_returns_iff_longPath :
    ∃ c, fromJson longPathText = .ok c ∧
      ((∃ o, c.encode = .returned o) ↔ (JsonCertificate.small false
        (.basicConstraints false true (some 2147483648))).Writable) := by
  obtain ⟨c, hc⟩ : ∃ c, fromJson longPathText = .ok c :=
    ⟨_, (fromJson_eq fromStr_longPath).trans rfl⟩
  exact ⟨c, hc, (fromJson_returns_iff fromStr_longPath hc).1⟩

open scoped Reference in
/-- The same path length in a certificate. -/
theorem convertCertificate_returns_iff_longPath :
    ∃ c, convertCertificate longPath = .ok c ∧
      ((∃ o, c.encode = .returned o) ↔ longPath.tbsCertificate.Writable) :=
  ⟨_, rfl, (convertCertificate_returns_iff rfl).1⟩

end C509
