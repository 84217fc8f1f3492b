/-
The names of the registries (`registry.rs`).

No decoder asks for a name: each has a list of identifiers of its own, and an identifier that
is not in it is kept as it is.  The lists agree with the tables of names, so what a decoded
certificate holds raw is what has no name; and the converter writes named identifiers only.
-/
import C509Cert.Invariants
import C509Cert.X509ToC509.Acceptance
import C509Cert.X509ToC509.RoundTrip

namespace C509

open Cbor Codec
open X509 hiding GeneralName BasicConstraints AuthorityKeyIdentifier AlgorithmIdentifier
  TbsCertificate

namespace Registry

/-! ### The tables -/

/-- `rdn_attribute_name` -/
def rdnAttributeName : UInt16 → Option String
  | 0 => some "emailAddress"
  | 1 => some "commonName"
  | 2 => some "surname"
  | 3 => some "serialNumber"
  | 4 => some "countryName"
  | 5 => some "localityName"
  | 6 => some "stateOrProvinceName"
  | 7 => some "streetAddress"
  | 8 => some "organizationName"
  | 9 => some "organizationalUnitName"
  | 10 => some "title"
  | 11 => some "businessCategory"
  | 12 => some "postalCode"
  | 13 => some "givenName"
  | 14 => some "initials"
  | 15 => some "generationQualifier"
  | 16 => some "dnQualifier"
  | 17 => some "pseudonym"
  | 18 => some "organizationIdentifier"
  | 19 => some "jurisdictionLocalityName"
  | 20 => some "jurisdictionStateOrProvinceName"
  | 21 => some "jurisdictionCountryName"
  | 22 => some "domainComponent"
  | 25 => some "name"
  | 26 => some "telephoneNumber"
  | 27 => some "dmdName"
  | 28 => some "uid"
  | 29 => some "unstructuredName"
  | 30 => some "unstructuredAddress"
  | _ => none

/-- `extension_name` -/
def extensionName : UInt16 → Option String
  | 1 => some "subjectKeyIdentifier"
  | 2 => some "keyUsage"
  | 3 => some "subjectAltName"
  | 4 => some "basicConstraints"
  | 5 => some "cRLDistributionPoints"
  | 6 => some "certificatePolicies"
  | 7 => some "authorityKeyIdentifier"
  | 8 => some "extKeyUsage"
  | 9 => some "authorityInfoAccess"
  | 24 => some "subjectDirectoryAttributes"
  | 25 => some "issuerAltName"
  | 26 => some "nameConstraints"
  | 27 => some "policyMappings"
  | 28 => some "policyConstraints"
  | 29 => some "freshestCRL"
  | 30 => some "inhibitAnyPolicy"
  | 31 => some "subjectInfoAccess"
  | 32 => some "id-pe-ipAddrBlocks"
  | 33 => some "id-pe-autonomousSysIds"
  | 34 => some "id-pe-ipAddrBlocks-v2"
  | 35 => some "id-pe-autonomousSysIds-v2"
  | 36 => some "id-pkix-ocsp-nocheck"
  | 38 => some "id-pe-tlsfeature"
  | _ => none

/-- `extended_key_usage_name` -/
def extendedKeyUsageName (id : Int16) : Option String :=
  match id.toInt with
  | 0 => some "anyExtendedKeyUsage"
  | 1 => some "id-kp-serverAuth"
  | 2 => some "id-kp-clientAuth"
  | 3 => some "id-kp-codeSigning"
  | 4 => some "id-kp-emailProtection"
  | 8 => some "id-kp-timeStamping"
  | 9 => some "id-kp-OCSPSigning"
  | 10 => some "id-pkinit-KPClientAuth"
  | 11 => some "id-pkinit-KPKdc"
  | 12 => some "id-kp-secureShellClient"
  | 13 => some "id-kp-secureShellServer"
  | 14 => some "id-kp-bundleSecurity"
  | 15 => some "id-kp-cmcCA"
  | 16 => some "id-kp-cmcRA"
  | 17 => some "id-kp-cmcArchive"
  | 18 => some "id-kp-cmKGA"
  | 20 => some "id-kp-wisun-fan-device"
  | _ => none

/-- `general_name_type_name` -/
def generalNameTypeName (id : Int32) : Option String :=
  match id.toInt with
  | -3 => some "otherName (MACAddress)"
  | -2 => some "otherName (SmtpUTF8Mailbox)"
  | -1 => some "otherName (hardwareModuleName)"
  | 0 => some "otherName"
  | 1 => some "rfc822Name"
  | 2 => some "dNSName"
  | 4 => some "directoryName"
  | 6 => some "uniformResourceIdentifier"
  | 7 => some "iPAddress"
  | 8 => some "registeredID"
  | _ => none

/-- `signature_algorithm_name` -/
def signatureAlgorithmName (id : Int32) : Option String :=
  match id.toInt with
  | -256 => some "sha1-with-rsa-signature"
  | -255 => some "ecdsa-with-SHA1"
  | 0 => some "ecdsa-with-SHA256"
  | 1 => some "ecdsa-with-SHA384"
  | 2 => some "ecdsa-with-SHA512"
  | 3 => some "id-ecdsa-with-shake128"
  | 4 => some "id-ecdsa-with-shake256"
  | 5 => some "id-alg-unsigned"
  | 8 => some "sm2-with-sm3"
  | 12 => some "id-Ed25519"
  | 13 => some "id-Ed448"
  | 14 => some "sa-ecdhPop-sha256-hmac-sha256"
  | 15 => some "sa-ecdhPop-sha384-hmac-sha384"
  | 16 => some "sa-ecdhPop-sha512-hmac-sha512"
  | 23 => some "sha256WithRSAEncryption"
  | 24 => some "sha384WithRSAEncryption"
  | 25 => some "sha512WithRSAEncryption"
  | 26 => some "RSASSA-PSS with SHA-256"
  | 27 => some "RSASSA-PSS with SHA-384"
  | 28 => some "RSASSA-PSS with SHA-512"
  | 29 => some "id-RSASSA-PSS-SHAKE128"
  | 30 => some "id-RSASSA-PSS-SHAKE256"
  | _ => none

/-- `public_key_algorithm_name` -/
def publicKeyAlgorithmName (id : Int32) : Option String :=
  match id.toInt with
  | 0 => some "rsaEncryption"
  | 1 => some "id-ecPublicKey (secp256r1)"
  | 2 => some "id-ecPublicKey (secp384r1)"
  | 3 => some "id-ecPublicKey (secp521r1)"
  | 6 => some "id-ecPublicKey (sm2p256v1)"
  | 8 => some "id-X25519"
  | 9 => some "id-X448"
  | 12 => some "id-Ed25519"
  | 13 => some "id-Ed448"
  | 24 => some "id-ecPublicKey (brainpoolP256r1)"
  | 25 => some "id-ecPublicKey (brainpoolP384r1)"
  | 26 => some "id-ecPublicKey (brainpoolP512r1)"
  | 27 => some "id-ecPublicKey (FRP256v1)"
  | _ => none

/-! ### Looking up the identifiers of a certificate -/

/-- `u16::try_from`, of an `i32` -/
def u16TryFromI32 (n : Int32) : Option UInt16 :=
  if 0 ≤ n.toInt ∧ n.toInt < 65536 then some (UInt16.ofNat n.toInt.toNat) else none

/-- `i16::try_from`, of an `i32` -/
def i16TryFromI32 (n : Int32) : Option Int16 :=
  if -32768 ≤ n.toInt ∧ n.toInt < 32768 then some n.toInt16 else none

/-- The name of the id of an extension, which the struct holds as an `i32`. -/
def extensionIdName (id : Int32) : Option String := (u16TryFromI32 id).bind extensionName

/-- The name of a key purpose, which the struct holds as an `i32`. -/
def keyPurposeName (id : Int32) : Option String := (i16TryFromI32 id).bind extendedKeyUsageName

/-! ### The tables and the decoders -/

theorem extensionName_isSome_iff (n : UInt16) :
    (extensionName n).isSome ↔ n.toUInt32 ∈ ExtensionValue.registeredIds := by
  have hids : ExtensionValue.registeredIds = ([1, 2, 3, 4, 5, 6, 7, 8, 9, 24, 25, 26, 27, 28, 29,
      30, 31, 32, 33, 34, 35, 36, 38] : List UInt16).map UInt16.toUInt32 := by decide
  constructor
  · intro h
    unfold extensionName at h
    split at h <;> first | exact absurd h Bool.false_ne_true | decide
  · intro h
    rw [hids] at h
    obtain ⟨m, hm, heq⟩ := List.mem_map.mp h
    rw [← UInt16.toUInt32_inj.mp heq]
    simp only [List.mem_cons, List.not_mem_nil, or_false] at hm
    rcases hm with rfl | rfl | rfl | rfl | rfl | rfl | rfl | rfl | rfl | rfl | rfl | rfl | rfl |
      rfl | rfl | rfl | rfl | rfl | rfl | rfl | rfl | rfl | rfl <;> rfl

/-- The ids without a name are the ones the decoder does not know. -/
theorem extensionIdName_eq_none_iff (id : Int32) :
    extensionIdName id = none ↔ id.toUInt32 ∉ ExtensionValue.registeredIds := by
  unfold extensionIdName u16TryFromI32
  split
  · rename_i hrange
    have hid : (UInt16.ofNat id.toInt.toNat).toUInt32 = id.toUInt32 := by
      refine UInt32.toNat_inj.mp ?_
      rw [UInt16.toNat_toUInt32, toNat_toUInt32 hrange.1]
      exact UInt16.toNat_ofNat_of_lt' (show id.toInt.toNat < 2 ^ 16 by omega)
    rw [Option.bind_some, ← Option.not_isSome_iff_eq_none, extensionName_isSome_iff, hid]
  · rename_i hrange
    refine iff_of_true rfl fun hmem => hrange ?_
    have hsmall : ∀ n ∈ ExtensionValue.registeredIds, n < 39 := by
      simp [ExtensionValue.registeredIds]
    have hlt : id.toUInt32.toNat < 39 := UInt32.lt_iff_toNat_lt.mp (hsmall _ hmem)
    have hid := toInt_toInt32 (n := id.toUInt32) (by omega)
    rw [Int32.toInt32_toUInt32] at hid
    omega

/-- The kinds with a name are the registry values of the variants. -/
theorem generalNameTypeName_isSome_iff (n : Int32) :
    (generalNameTypeName n).isSome ↔ ∃ k : GeneralNameKind, k ≠ .raw ∧ n = k.repr := by
  constructor
  · intro h
    have hkinds : ∀ i ∈ ([-3, -2, -1, 0, 1, 2, 4, 6, 7, 8] : List Int),
        ∃ k ∈ GeneralNameKind.all, k ≠ .raw ∧ k.repr.toInt = i := by decide
    have hkind {i : Int} (hn : n.toInt = i)
        (hi : i ∈ ([-3, -2, -1, 0, 1, 2, 4, 6, 7, 8] : List Int)) :
        ∃ k : GeneralNameKind, k ≠ .raw ∧ n = k.repr := by
      obtain ⟨k, -, hraw, hk⟩ := hkinds i hi
      exact ⟨k, hraw, Int32.toInt_inj.mp (hn.trans hk.symm)⟩
    unfold generalNameTypeName at h
    split at h <;> first | exact absurd h Bool.false_ne_true | exact hkind ‹_› (by decide)
  · rintro ⟨k, hraw, rfl⟩
    cases k with
    | raw => exact absurd rfl hraw
    | _ => rfl

end Registry

open Registry

/-! ### What the decoder keeps raw -/

theorem ExtensionValue.RegisteredFor.raw_iff {id : UInt32} {v : ExtensionValue}
    (h : v.RegisteredFor id) : (∃ item, v = .raw item) ↔ id ∉ ExtensionValue.registeredIds := by
  cases v with
  | raw item => exact iff_of_true ⟨item, rfl⟩ h
  | _ =>
      cases h
      exact iff_of_false nofun (not_not_intro (by decide))

theorem GeneralName.KindAgrees.raw_iff {g : GeneralName} (h : g.KindAgrees) :
    (∃ item, g.value = .raw item) ↔ generalNameTypeName g.kind = none := by
  rw [← Option.not_isSome_iff_eq_none, generalNameTypeName_isSome_iff]
  have hraw : (∃ item, g.value = .raw item) ↔ g.value.kind = .raw := by
    cases g.value with
    | raw item => exact iff_of_true ⟨item, rfl⟩ rfl
    | _ => exact iff_of_false nofun nofun
  rw [hraw]
  constructor
  · rintro hkind ⟨k, hk, hrepr⟩
    exact (h.resolve_left fun hagree => hagree.1 hkind).2 k hk hrepr
  · intro hnone
    by_contra hkind
    exact hnone ⟨g.value.kind, hkind, (h.resolve_right fun hagree => hkind hagree.1).2⟩

section

variable [Minicbor] [OidCrate] [LawfulMinicbor]

/--
**What a decoded certificate holds raw is what the registries have no name for**: the value of
an extension under an id without a name, and a general name of a kind without one.
-/
theorem C509Certificate.decoded_raw_iff_unnamed [LawfulOid] {b : Bytes} {c : C509Certificate}
    (h : decode b = .ok c ∨ decodeSequence b = .ok c) :
    (∀ e ∈ c.tbs.extensions.exts, ∀ id, e.id = .int id →
      ((∃ item, e.value = .raw item) ↔ extensionIdName id = none)) ∧
    ∀ g ∈ c.generalNames, (∃ item, g.value = .raw item) ↔ generalNameTypeName g.kind = none := by
  have hvalid : c.Valid .decoded := h.elim valid_of_decode valid_of_decodeSequence
  constructor
  · intro e he id hid
    rw [extensionIdName_eq_none_iff]
    exact (hvalid.registeredFor he hid).raw_iff
  · exact fun g hg => (hvalid.generalNames g hg).1.raw_iff

end

open scoped Reference in
theorem C509Certificate.decoded_raw_iff_unnamed_sample :
    (∀ e ∈ sample.tbs.extensions.exts, ∀ id, e.id = .int id →
      ((∃ item, e.value = .raw item) ↔ extensionIdName id = none)) ∧
    ∀ g ∈ sample.generalNames,
      (∃ item, g.value = .raw item) ↔ generalNameTypeName g.kind = none :=
  decoded_raw_iff_unnamed (b := sampleBytes) (Or.inr sample_decodes)

/-! ### What the converter writes -/

/-- Every identifier of the certificate is an integer that a registry names. -/
structure C509Certificate.Named (c : C509Certificate) : Prop where
  signature : ∃ id, c.tbs.issuerSignatureAlgorithm = .int id ∧ (signatureAlgorithmName id).isSome
  publicKey : ∃ id, c.tbs.subjectPublicKeyAlgorithm = .int id ∧ (publicKeyAlgorithmName id).isSome
  attributes : ∀ name ∈ c.tbs.issuer.toList ++ [c.tbs.subject], ∀ a ∈ name.attrs,
    ∃ id printableString value, a = .registered id printableString value ∧
      (rdnAttributeName id).isSome
  extensions : ∀ e ∈ c.tbs.extensions.exts, ∃ id, e.id = .int id ∧ (extensionIdName id).isSome
  purposes : ∀ e ∈ c.tbs.extensions.exts, ∀ v, e.value = .extKeyUsage v → ∀ p ∈ v.purposes,
    ∃ id, p = .int id ∧ (keyPurposeName id).isSome
  generalNames : ∀ g ∈ c.generalNames, (generalNameTypeName g.kind).isSome

section

variable [Minicbor] [X509Parser]

theorem signatureAlgorithmId_named {oid : Oid} {id : Int32}
    (h : signatureAlgorithmId oid = .ok id) : (signatureAlgorithmName id).isSome := by
  have htable : ∀ p ∈ SIGNATURE_ALGORITHM_OIDS, (signatureAlgorithmName p.2).isSome := by decide
  exact htable _ (lookupOid_mem (orX509_ok.mp h))

theorem publicKeyAlgorithmId_named {alg : X509.AlgorithmIdentifier} {id : Int32}
    (h : publicKeyAlgorithmId alg = .ok id) : (publicKeyAlgorithmName id).isSome := by
  have htable : ∀ p ∈ PUBLIC_KEY_ALGORITHM_OIDS ++ EC_CURVE_OIDS,
      (publicKeyAlgorithmName p.2).isSome := by decide
  unfold publicKeyAlgorithmId at h
  split at h
  · rename_i id' hfound
    cases h
    exact htable _ (List.mem_append_left _ (lookupOid_mem hfound))
  · split at h
    · obtain ⟨any, -, h₁⟩ := bind_eq_ok.mp h
      obtain ⟨curve, -, h₂⟩ := bind_eq_ok.mp h₁
      exact htable _ (List.mem_append_right _ (lookupOid_mem (orX509_ok.mp h₂)))
    · cases h

theorem nameToRdn_named [MacCrate] {name : X509Name} {n : Name} (h : nameToRdn name = .ok n) :
    ∀ a ∈ n.attrs, ∃ id printableString value, a = .registered id printableString value ∧
      (rdnAttributeName id).isSome := by
  have htable : ∀ p ∈ RDN_ATTRIBUTE_OIDS, (rdnAttributeName p.2).isSome := by decide
  obtain ⟨attrs, hattrs, hpure⟩ := bind_eq_ok.mp h
  cases hpure
  intro a ha
  obtain ⟨attr, -, hattr⟩ := forall₂_exists (mapM_eq_ok hattrs).flip a ha
  obtain ⟨id, hid, h₁⟩ := bind_eq_ok.mp hattr
  obtain ⟨value, -, hpure⟩ := bind_eq_ok.mp h₁
  cases hpure
  exact ⟨id, _, _, rfl, htable _ (lookupOid_mem (orX509_ok.mp hid))⟩

/-- What fills a slot is not raw, so the id of the slot has a name. -/
theorem Fills.id_named {s : Slot} {p : ParsedExtension} {v : ExtensionValue} (h : Fills s p v) :
    (extensionIdName s.id).isSome := by
  rw [Option.isSome_iff_ne_none, Ne, extensionIdName_eq_none_iff, ← h.registered.1.raw_iff]
  rintro ⟨item, rfl⟩
  cases h

/-- What fills a slot names its key purposes and its general names. -/
theorem Fills.named {s : Slot} {p : ParsedExtension} {v : ExtensionValue} (h : Fills s p v) :
    (∀ w, v = .extKeyUsage w → ∀ p ∈ w.purposes,
      ∃ id, p = .int id ∧ (keyPurposeName id).isSome) ∧
    ∀ g ∈ v.generalNames, (generalNameTypeName g.kind).isSome := by
  cases h with
  | extendedKeyUsage eku hother =>
      refine ⟨?_, nofun⟩
      rintro w ⟨⟩ p hp
      obtain ⟨id, hid, rfl⟩ := List.mem_map.mp hp
      obtain ⟨⟨id', flag⟩, hmem, rfl⟩ := List.mem_map.mp hid
      have htable : ∀ id ∈ ([0, 1, 2, 3, 4, 8, 9] : List Int32), (keyPurposeName id).isSome := by
        intro id hid
        simp only [List.mem_cons, List.not_mem_nil, or_false] at hid
        rcases hid with rfl | rfl | rfl | rfl | rfl | rfl | rfl <;> rfl
      exact ⟨id', rfl, htable id'
        (List.mem_map_of_mem (f := Prod.fst) (List.mem_of_mem_filter hmem))⟩
  | subjectAltName san names hnames =>
      refine ⟨nofun, fun g hg => ?_⟩
      obtain ⟨x, -, s, -, rfl⟩ := forall₂_exists hnames.flip g hg
      rfl
  | basicConstraints bc => exact ⟨nofun, nofun⟩
  | keyUsage ku => exact ⟨nofun, nofun⟩
  | authorityKeyIdentifier aki keyIdentifier hkey => exact ⟨nofun, nofun⟩

variable [MacCrate]

/--
**The converter writes named identifiers only**: whatever certificate it accepts, each
algorithm, attribute, extension, key purpose and general name that it writes has a name in the
registry it is read from.
-/
theorem fromX509_named [LawfulX509Parser] {input : Bytes} {c : C509Certificate}
    (h : fromX509 input = .ok c) : c.Named := by
  obtain ⟨cert, -, hconvert⟩ := fromX509_ok_iff.mp h
  obtain ⟨exts, hexts, h₁⟩ := bind_eq_ok.mp hconvert
  obtain ⟨sig, hsig, h₂⟩ := bind_eq_ok.mp h₁
  obtain ⟨issuer, hissuer, h₃⟩ := bind_eq_ok.mp h₂
  obtain ⟨subject, hsubject, h₄⟩ := bind_eq_ok.mp h₃
  obtain ⟨key, hkey, hpure⟩ := bind_eq_ok.mp h₄
  cases hpure
  obtain ⟨rs, hrs, rfl⟩ := convertExtensions_ok hexts
  have hfills : ∀ e ∈ rs.reduceOption, ∃ s p, e.id = .int s.id ∧ Fills s p e.value := by
    intro e he
    obtain ⟨s, hs, x, v, -, hvalue, rfl⟩ := result_of_mem hrs he
    exact ⟨s, _, rfl, Slot.fills hs hvalue⟩
  exact {
    signature := ⟨sig, rfl, signatureAlgorithmId_named hsig⟩
    publicKey := ⟨key, rfl, publicKeyAlgorithmId_named hkey⟩
    attributes := by
      intro name hname
      rcases List.mem_pair.mp hname with rfl | rfl
      · exact nameToRdn_named hissuer
      · exact nameToRdn_named hsubject
    extensions := by
      intro e he
      obtain ⟨s, p, hid, hfill⟩ := hfills e he
      exact ⟨s.id, hid, hfill.id_named⟩
    purposes := by
      intro e he
      obtain ⟨s, p, -, hfill⟩ := hfills e he
      exact hfill.named.1
    generalNames := by
      intro g hg
      obtain ⟨e, he, hg⟩ := List.mem_flatMap.mp hg
      obtain ⟨s, p, -, hfill⟩ := hfills e he
      exact hfill.named.2 g hg }

end

open scoped Reference in
theorem fromX509_named_plain :
    ∃ (_ : X509Parser) (c : C509Certificate), fromX509 plainDer = .ok c ∧ c.Named := by
  let _ := plainParser
  have := plainParser_lawful
  obtain ⟨c, hc⟩ : ∃ c, convertCertificate plainCertificate = .ok c := ⟨_, rfl⟩
  have hok : fromX509 plainDer = .ok c :=
    fromX509_ok_iff.mpr ⟨plainCertificate, plainDer_parsedAs, hc⟩
  exact ⟨plainParser, c, hok, fromX509_named hok⟩

end C509
