/-
The array headers a vector is reserved for, on the wire.

`Announces T b` says that reading `b` as a name, an extension, a certificate and so on comes to
a definite-length array header of which `T` holds: of the site, the elements announced and the
bytes left after it.  A header inside the input is come to where what stands before it is
accepted, so it stands `Past` what the decoder of that takes.

The decoders log exactly these headers (`C509Certificate.meets_decodeFields`).
-/
import C509Cert.Certificate
import C509Cert.Codec.Events

namespace C509

open Cbor Codec

/-- A condition on a header: its site, the elements it announces, and the bytes left. -/
abbrev HeaderTest := Site → Nat → Nat → Prop

/-- The header a capacity was asked for is one of those tested for. -/
def Reserve.Matches (T : HeaderTest) (e : Reserve) : Prop := T e.site e.announced e.remaining

section

variable [Minicbor] [OidCrate] (T : HeaderTest)

/-! ### Where the headers are -/

/-- An array in groups of `k`: its own header, or past some groups what is in `W`. -/
def GroupsAnnounce {α : Type} (site : Site) (k : Nat) (m : Dec α) (W : Bytes → Prop) :
    Bytes → Prop :=
  InArray fun n s => n % k = 0 ∧
    (T site (n / k) s.length ∨ ∃ i, i < n / k ∧ Past (Parser.times i m) W s)

/-- An array in groups of `k` that hold no headers. -/
def LeavesAnnounce (site : Site) (k : Nat) : Bytes → Prop :=
  InArray fun n s => n % k = 0 ∧ T site (n / k) s.length

def Name.Announces : Bytes → Prop := LeavesAnnounce T .name 2

/-- A directory name. -/
def GeneralName.Announces (b : Bytes) : Prop :=
  ∃ h s, IntHead 4 h ∧ Name.Announces T s ∧ b = h ++ s

def GeneralNamesAnnounce : Bytes → Prop :=
  GroupsAnnounce T .generalNames 2 GeneralName.decode (GeneralName.Announces T)

def DistributionPointName.FullNameAnnounces : Bytes → Prop :=
  InArray fun n s => T .fullName n s.length

def DistributionPointName.OneAnnounces : Bytes → Prop :=
  InArray fun n s => n = 3 ∧ (FullNameAnnounces T s ∨
    Past decodeFullName (Past decodeOptUint (Name.Announces T)) s)

def DistributionPointName.Announces : Bytes → Prop :=
  InArray fun n s => T .distributionPoints n s.length ∨
    ∃ i, i < n ∧ Past (Parser.times i decodeOne) (OneAnnounces T) s

def CertificatePolicies.Announces : Bytes → Prop :=
  GroupsAnnounce T .certificatePolicies 2 decodeOne
    (Past IntOrOid.decode (LeavesAnnounce T .policyQualifiers 2))

def AuthorityKeyIdentifier.Announces : Bytes → Prop :=
  InArray fun n s => n = 3 ∧ Past Decoder.bytes (GeneralNamesAnnounce T) s

/-- The values of a directory attribute. -/
def RdnValuesAnnounce : Bytes → Prop := InArray fun n s => T .rdnValues n s.length

/-- An attribute under an OID, or under an id that has 16 bits. -/
def RdnAttributes.Announces (b : Bytes) : Prop :=
  Past decodeOid (RdnValuesAnnounce T) b ∨
    ∃ (id : Int32) (h s : Bytes), IntHead id.toInt h ∧
      (id.toInt.natAbs < 2 ^ 16 ∧ RdnValuesAnnounce T s) ∧ b = h ++ s

def SubjectDirectoryAttributes.Announces : Bytes → Prop :=
  GroupsAnnounce T .directoryAttributes 2 (RdnAttr.decode : Dec RdnAttributes)
    (RdnAttributes.Announces T)

def NameConstraints.Announces : Bytes → Prop :=
  InArray fun n s => n = 2 ∧ (GeneralNamesAnnounce T s ∨
    Past decodeOptGeneralSubtree (GeneralNamesAnnounce T) s)

/-- The entries of an address family; the form of the first is looked at before. -/
def IpEntriesAnnounce : Bytes → Prop :=
  InArray fun n s => n ≠ 0 ∧ Past peekForm (fun _ => T .ipEntries n s.length) s

def IpAddressFamiliesAnnounce : Bytes → Prop :=
  GroupsAnnounce T .ipFamilies 3 decodeFamily
    (Past Decoder.u16 (Past decodeSafi (IpEntriesAnnounce T)))

def AsIdentifiersAnnounce : Bytes → Prop := InArray fun n s => T .asIdentifiers n s.length

/-- The value under an id. -/
def ExtensionValue.Announces (id : UInt32) : Bytes → Prop :=
  match id with
  | 3 | 25 => GeneralNamesAnnounce T
  | 5 | 29 => DistributionPointName.Announces T
  | 6 => CertificatePolicies.Announces T
  | 7 => AuthorityKeyIdentifier.Announces T
  | 9 | 31 => LeavesAnnounce T .accessDescriptions 2
  | 24 => SubjectDirectoryAttributes.Announces T
  | 26 => NameConstraints.Announces T
  | 27 => LeavesAnnounce T .policyMappings 2
  | 32 | 34 => IpAddressFamiliesAnnounce T
  | 33 | 35 => AsIdentifiersAnnounce T
  | _ => fun _ => False

/-- An id and the value under it. -/
def Extension.Announces (b : Bytes) : Prop :=
  ∃ (n : Int32) (h s : Bytes), IntHead n.toInt h ∧
    ExtensionValue.Announces T (unsignedAbs n) s ∧ b = h ++ s

def Extensions.Announces : Bytes → Prop :=
  GroupsAnnounce T .extensions 2 Extension.decode (Extension.Announces T)

namespace C509Certificate

/-- The two names, and the extensions. -/
def FieldsAnnounce : Bytes → Prop :=
  Past Decoder.i32 <| Past readBiguint <| Past AlgorithmIdentifier.decode fun issuer =>
    Name.Announces T issuer ∨ Past Name.decodeOptional (
      Past readTime <| Past decodeNotAfter fun subject =>
        Name.Announces T subject ∨ Past Name.decode (
          Past AlgorithmIdentifier.decode <| Past Decoder.bytes (Extensions.Announces T))
          subject) issuer

/-- The same fields under the header of the array form. -/
def ItemAnnounces : Bytes → Prop := InArray fun n s => n = 11 ∧ FieldsAnnounce T s

end C509Certificate

end

/-! ### The decoders log them -/

section Rules

variable [Minicbor] [LawfulMinicbor] {α β : Type} {E : Reserve → Prop} {V : Nat → Bytes → Prop}

theorem meets_array {f : Option UInt64 → Dec β} (hsome : ∀ n, Meets E (V n.toNat) (f (some n)))
    (hnone : Quiet (f none)) : Meets E (InArray V) (Decoder.array >>= f) := by
  have hf : ∀ o, Meets E (fun s => ∃ n, o = some n ∧ V (UInt64.toNat n) s) (f o) := by
    intro o
    cases o with
    | none => exact (Meets.quiet hnone).congr fun s => by simp
    | some n => exact (hsome n).congr fun s => by simp
  refine (Meets.bind (Meets.quiet (logs_lift _)) hf).congr fun b => ?_
  rw [or_iff_right id]
  constructor
  · rintro ⟨o, s, hrun, n, rfl, hV⟩
    obtain ⟨h, hh, rfl⟩ := LawfulMinicbor.readArray_some.mp (Decoder.lift_run_ok.mp hrun)
    exact ⟨n.toNat, h, s, hh, hV, rfl⟩
  · rintro ⟨n, h, s, hh, hV, rfl⟩
    have hn : (UInt64.ofNat n).toNat = n := UInt64.toNat_ofNat_of_lt' hh.lt
    refine ⟨some (UInt64.ofNat n), s, Decoder.lift_run_ok.mpr ?_, _, rfl, by rwa [hn]⟩
    exact LawfulMinicbor.readArray_some.mpr ⟨h, by rwa [hn], rfl⟩

theorem meets_definiteArray {f : UInt64 → Dec β} (hf : ∀ n, Meets E (V n.toNat) (f n)) :
    Meets E (InArray V) (definiteArrayLen >>= f) := by
  unfold definiteArrayLen
  rw [Parser.bind_assoc]
  exact meets_array hf fun b e he => by cases he

theorem meets_expectArray {want : UInt64} {W : Bytes → Prop} {f : Unit → Dec β}
    (hf : Meets E W (f ())) :
    Meets E (InArray fun n s => n = want.toNat ∧ W s) (expectArrayLen want >>= f) := by
  unfold expectArrayLen
  rw [Parser.bind_assoc]
  exact meets_definiteArray fun n =>
    (Meets.ensure hf).congr fun s => and_congr_left' UInt64.toNat_inj.symm

theorem meets_datatype {V : DataType → Bytes → Prop} {f : DataType → Dec α}
    (hf : ∀ t, Meets E (V t) (f t)) :
    Meets E (fun b => ∃ t, typeOf b = some t ∧ V t b) (Decoder.datatype >>= f) := by
  refine (Meets.bind (Meets.quiet (logs_lift _)) hf).congr fun b => ?_
  rw [or_iff_right id]
  constructor
  · rintro ⟨t, r, hpeek, hV⟩
    obtain ⟨ht, rfl⟩ := datatype_run_ok.mp hpeek
    exact ⟨t, ht, hV⟩
  · rintro ⟨t, ht, hV⟩
    exact ⟨t, b, datatype_run_ok.mpr ⟨ht, rfl⟩, hV⟩

/-- Where only an array is looked into, its header is all there is to see. -/
theorem meets_peek {f : DataType → Dec α}
    (hf : ∀ t, t ≠ .array ∧ Quiet (f t) ∨ Meets E (InArray V) (f t)) :
    Meets E (InArray V) (Decoder.datatype >>= f) := by
  have hseen : ∀ t, ∃ P : Prop, (t = .array → P) ∧ Meets E (fun b => P ∧ InArray V b) (f t) := by
    intro t
    rcases hf t with ⟨hne, hquiet⟩ | hm
    · exact ⟨False, hne, (Meets.quiet hquiet).congr fun b => by simp⟩
    · exact ⟨True, fun _ => trivial, hm.congr fun b => by simp⟩
  choose P harray hm using hseen
  refine (meets_datatype hm).congr fun b => ⟨fun ⟨t, _, _, hV⟩ => hV, fun hV => ?_⟩
  obtain ⟨n, h, s, hh, -, hb⟩ := id hV
  have htype : typeOf b = some .array := by rw [hb, typeOf_head (by omega) (by omega) hh]; rfl
  exact ⟨.array, htype, harray _ rfl, hV⟩

/-- An int, and what comes after it. -/
theorem meets_i32 {V : Int32 → Bytes → Prop} {f : Int32 → Dec β} (hf : ∀ n, Meets E (V n) (f n)) :
    Meets E (fun b => ∃ (n : Int32) (h s : Bytes), IntHead n.toInt h ∧ V n s ∧ b = h ++ s)
      (Decoder.i32 >>= f) := by
  refine (Meets.bind (Meets.quiet (logs_lift _)) hf).congr fun b => ?_
  rw [or_iff_right id]
  constructor
  · rintro ⟨n, s, hrun, hV⟩
    obtain ⟨h, hh, rfl⟩ := LawfulMinicbor.readI32_ok.mp (Decoder.lift_run_ok.mp hrun)
    exact ⟨n, h, s, hh, hV, rfl⟩
  · rintro ⟨n, h, s, hh, hV, rfl⟩
    exact ⟨n, s, Decoder.lift_run_ok.mpr (LawfulMinicbor.readI32_ok.mpr ⟨h, hh, rfl⟩), hV⟩

/-- An OID or an int, told apart by the type. -/
theorem meets_oidOrInt {f : DataType → Dec β} {W : Bytes → Prop} {V : Int32 → Bytes → Prop}
    (hoid : Meets E W (f .bytes)) (hbytes : ∀ b, W b → typeOf b = some .bytes)
    (hint : ∀ t, t ≠ .bytes → Meets E (fun b => ∃ (n : Int32) (h s : Bytes),
      IntHead n.toInt h ∧ V n s ∧ b = h ++ s) (f t)) :
    Meets E (fun b => W b ∨ ∃ (n : Int32) (h s : Bytes), IntHead n.toInt h ∧ V n s ∧ b = h ++ s)
      (Decoder.datatype >>= f) := by
  have hf : ∀ t, Meets E (fun b => (t = .bytes ∧ W b) ∨ t ≠ .bytes ∧
      ∃ (n : Int32) (h s : Bytes), IntHead n.toInt h ∧ V n s ∧ b = h ++ s) (f t) := by
    intro t
    by_cases ht : t = .bytes
    · subst ht
      exact hoid.congr fun b => by simp
    · exact (hint t ht).congr fun b => by simp [ht]
  refine (meets_datatype hf).congr fun b => ⟨?_, ?_⟩
  · rintro ⟨t, -, ⟨-, hW⟩ | ⟨-, hV⟩⟩
    · exact Or.inl hW
    · exact Or.inr hV
  · rintro (hW | ⟨n, h, s, hh, hV, rfl⟩)
    · exact ⟨.bytes, hbytes b hW, Or.inl ⟨rfl, hW⟩⟩
    · obtain ⟨t, ht, htype⟩ := typeOf_intHead hh
      refine ⟨t, htype s, Or.inr ⟨?_, n, h, s, hh, hV, rfl⟩⟩
      rintro rfl
      cases ht

variable {T : HeaderTest} {site : Site} {reserve : Nat → Dec Unit} {m : Dec α} {W : Bytes → Prop}

omit [LawfulMinicbor] in
theorem meets_withCapacity (n : Nat) :
    Meets (Reserve.Matches T) (fun b => T site n b.length) (withCapacity site n) := Meets.emit _

omit [LawfulMinicbor] in
theorem meets_withBoundedCapacity (n : Nat) :
    Meets (Reserve.Matches T) (fun b => T site n b.length) (withBoundedCapacity site n) :=
  Meets.emit _

/-- An array: its own header, and what its elements come to. -/
theorem meets_decodeArray (hreserve : ∀ n, Meets E (fun b => T site n b.length) (reserve n))
    (hstill : ∀ n, Yields (reserve n) [] ()) (hm : Meets E W m) :
    Meets E (InArray fun n s => T site n s.length ∨ ∃ i, i < n ∧ Past (Parser.times i m) W s)
      (decodeArray reserve m) :=
  meets_definiteArray fun n => (Meets.both (hreserve _) fun _ => hm.times _).congr fun s =>
    or_congr_right (Past.iff_of_run (hstill n.toNat s))

theorem meets_decodeGroups {k : UInt64} {msg : String}
    (hreserve : ∀ n, Meets E (fun b => T site n b.length) (reserve n))
    (hstill : ∀ n, Yields (reserve n) [] ()) (hm : Meets E W m) :
    Meets E (GroupsAnnounce T site k.toNat m W) (decodeGroups reserve k msg m) := by
  refine meets_definiteArray fun n => (Meets.ensure
    (Meets.both (hreserve _) fun _ => hm.times _)).congr fun s => and_congr ?_ ?_
  · rw [← UInt64.toNat_inj, UInt64.toNat_mod]
    rfl
  · rw [UInt64.toNat_div]
    exact or_congr_right (Past.iff_of_run (hstill _ s))

/-- Where nothing inside is reserved for, the header stands alone. -/
theorem meets_leaves {k : UInt64} {msg : String}
    (hreserve : ∀ n, Meets E (fun b => T site n b.length) (reserve n))
    (hstill : ∀ n, Yields (reserve n) [] ()) (hm : Quiet m) :
    Meets E (LeavesAnnounce T site k.toNat) (decodeGroups reserve k msg m) := by
  refine (meets_decodeGroups hreserve hstill (Meets.quiet hm)).congr
    (InArray.congr fun n s _ => and_congr_right fun _ => or_iff_left ?_)
  rintro ⟨i, -, l, r, -, h⟩
  exact h

end Rules

section

variable [Minicbor] [OidCrate] [LawfulMinicbor] {T : HeaderTest}

omit [LawfulMinicbor] in
theorem RdnAttribute.quiet : Quiet (RdnAttr.decode : Dec RdnAttribute) := by
  refine Logs.bind (logs_lift _) fun t => ?_
  split
  · exact Logs.bind logs_decodeOid fun _ => Logs.bind (logs_lift _) fun _ => Logs.pure _
  · exact Logs.bind (logs_lift _) fun _ => Logs.bind (Logs.get _ _) fun _ =>
      Logs.bind SpecialText.logs fun _ => Logs.pure _

theorem Name.meets : Meets (Reserve.Matches T) (Name.Announces T) Name.decode := by
  have hlist : Meets (Reserve.Matches T) (Name.Announces T) decodeAttributes :=
    (meets_leaves meets_withCapacity (yields_withCapacity _) RdnAttribute.quiet).map
  refine meets_peek fun t => ?_
  split
  · exact Or.inr hlist
  · exact Or.inr hlist
  · rename_i hne _
    exact Or.inl ⟨hne, Logs.bind SpecialText.logs fun _ => Logs.pure _⟩

theorem Name.meets_optional : Meets (Reserve.Matches T) (Name.Announces T) decodeOptional := by
  refine meets_peek fun t => ?_
  split
  · rename_i hnull
    exact Or.inl ⟨by rw [hnull]; decide, Logs.bind (logs_lift _) fun _ => Logs.pure _⟩
  · exact Or.inr Name.meets.map

theorem GeneralNameValue.meets (k : Option GeneralNameKind) :
    Meets (Reserve.Matches T) (fun b => k = some .directoryName ∧ Name.Announces T b)
      (GeneralNameValue.decode k) := by
  by_cases hk : k = some .directoryName
  · subst hk
    exact Name.meets.map.congr fun b => (and_iff_right rfl).symm
  · refine (Meets.quiet ?_).congr fun b => (iff_false_intro fun h => hk h.1).symm
    match k, hk with
    | some .macAddress, _ => exact Logs.bind logs_macBytes fun _ => Logs.pure _
    | some .smtpUtf8Mailbox, _ | some .rfc822Name, _ | some .dnsName, _ | some .uri, _
      | some .ipAddress, _ => exact Logs.bind (logs_lift _) fun _ => Logs.pure _
    | some .hardwareModuleName, _ | some .otherName, _ => exact logs_decodeTyped _
    | some .registeredId, _ => exact Logs.bind logs_decodeOid fun _ => Logs.pure _
    | some .raw, _ | none, _ => exact Logs.bind logs_rawItem fun _ => Logs.pure _

/-- Four is the kind of a directory name, and no other is. -/
theorem GeneralName.meets : Meets (Reserve.Matches T) (GeneralName.Announces T) decode := by
  refine (meets_i32 fun kind =>
    (GeneralNameValue.meets (GeneralNameKind.fromRepr kind)).map).congr fun b => ?_
  constructor
  · rintro ⟨kind, h, s, hh, ⟨hkind, hname⟩, rfl⟩
    obtain rfl : (4 : Int32) = kind := GeneralNameKind.repr_of_fromRepr hkind
    exact ⟨h, s, hh, hname, rfl⟩
  · rintro ⟨h, s, hh, hname, rfl⟩
    exact ⟨4, h, s, hh, ⟨GeneralNameKind.fromRepr_repr .directoryName, hname⟩, rfl⟩

theorem meets_generalNames :
    Meets (Reserve.Matches T) (GeneralNamesAnnounce T) decodeGeneralNames :=
  meets_decodeGroups meets_withCapacity (yields_withCapacity _) GeneralName.meets

theorem meets_altName : Meets (Reserve.Matches T) (GeneralNamesAnnounce T) decodeAltName := by
  refine meets_peek fun t => ?_
  split
  · exact Or.inl ⟨by decide, Logs.bind (logs_lift _) fun _ => Logs.pure _⟩
  · exact Or.inr meets_generalNames

theorem DistributionPointName.meets :
    Meets (Reserve.Matches T) (DistributionPointName.Announces T) decode := by
  have hfull : Meets (Reserve.Matches T) (FullNameAnnounces T) decodeFullName := by
    refine meets_peek fun t => ?_
    split
    · exact Or.inl ⟨by decide, Logs.bind (logs_lift _) fun _ => Logs.pure _⟩
    · refine Or.inr ((meets_decodeArray meets_withCapacity (yields_withCapacity _)
        (Meets.quiet (logs_lift _))).congr (InArray.congr fun n s _ => or_iff_left ?_))
      rintro ⟨i, -, l, r, -, h⟩
      exact h
  have hone : Meets (Reserve.Matches T) (OneAnnounces T) decodeOne :=
    meets_expectArray (Meets.both hfull fun _ =>
      Meets.after logs_decodeOptUint fun _ => Name.meets_optional.map)
  refine meets_peek fun t => ?_
  split
  · exact Or.inl ⟨by decide, Logs.bind (logs_lift _) fun _ => Logs.pure _⟩
  · exact Or.inr (meets_decodeArray meets_withCapacity (yields_withCapacity _) hone)

theorem AccessDescription.meets :
    Meets (Reserve.Matches T) (LeavesAnnounce T .accessDescriptions 2) AccessDescription.decode :=
  meets_leaves meets_withCapacity (yields_withCapacity _)
    (Logs.bind IntOrOid.logs fun _ => Logs.bind (logs_lift _) fun _ => Logs.pure _)

theorem CertificatePolicies.meets :
    Meets (Reserve.Matches T) (CertificatePolicies.Announces T) decode := by
  have hqualifiers : Meets (Reserve.Matches T) (LeavesAnnounce T .policyQualifiers 2)
      decodePolicyQualifiers :=
    meets_leaves meets_withCapacity (yields_withCapacity _)
      (Logs.bind IntOrOid.logs fun _ => Logs.bind (logs_lift _) fun _ => Logs.pure _)
  exact (meets_decodeGroups meets_withCapacity (yields_withCapacity _)
    (Meets.after IntOrOid.logs fun _ => hqualifiers.map)).map

theorem PolicyMappings.meets :
    Meets (Reserve.Matches T) (LeavesAnnounce T .policyMappings 2) PolicyMappings.decode :=
  (meets_leaves meets_withCapacity (yields_withCapacity _)
    (Logs.bind IntOrOid.logs fun _ => Logs.bind IntOrOid.logs fun _ => Logs.pure _)).map

theorem AuthorityKeyIdentifier.meets :
    Meets (Reserve.Matches T) (AuthorityKeyIdentifier.Announces T) decode := by
  refine meets_peek fun t => ?_
  split
  · exact Or.inl ⟨by decide, Logs.bind (logs_lift _) fun _ => Logs.pure _⟩
  · exact Or.inr (meets_expectArray (Meets.after (logs_lift _) fun _ =>
      meets_generalNames.first fun _ => Logs.bind logs_readBiguint fun _ => Logs.pure _))

theorem NameConstraints.meets :
    Meets (Reserve.Matches T) (NameConstraints.Announces T) decode := by
  have hsubtree : Meets (Reserve.Matches T) (GeneralNamesAnnounce T) decodeOptGeneralSubtree := by
    refine meets_peek fun t => ?_
    split
    · rename_i hnull
      exact Or.inl ⟨by rw [hnull]; decide, Logs.bind (logs_lift _) fun _ => Logs.pure _⟩
    · exact Or.inr meets_generalNames.map
  exact meets_expectArray (Meets.both hsubtree fun _ => hsubtree.map)

omit [OidCrate] in
/-- The values of an attribute: the header alone. -/
theorem meets_rdnValues {α : Type} [RdnValue α] (hm : Quiet (RdnValue.decode : Dec α)) :
    Meets (Reserve.Matches T) (RdnValuesAnnounce T) (RdnValue.decode : Dec (List α)) := by
  refine (meets_decodeArray meets_withBoundedCapacity (yields_withBoundedCapacity _)
    (Meets.quiet hm)).congr (InArray.congr fun n s _ => or_iff_left ?_)
  rintro ⟨i, -, l, r, -, h⟩
  exact h

theorem RdnAttributes.meets : Meets (Reserve.Matches T) (RdnAttributes.Announces T)
    (RdnAttr.decode : Dec RdnAttributes) := by
  have hvalues : ∀ (raw : Int32), Meets (Reserve.Matches T)
      (fun s => raw.toInt.natAbs < 2 ^ 16 ∧ RdnValuesAnnounce T s) (do
        let id ← okOr (u16TryFrom (unsignedAbs raw))
          "attributeType out of range for a registered id"
        return .registered id (decide (raw < 0)) (← RdnValue.decode) : Dec RdnAttributes) := by
    intro raw
    refine (Meets.get fun id => (meets_rdnValues SpecialText.logs).map).congr fun s => ?_
    refine and_congr_left' ?_
    unfold u16TryFrom
    rw [unsignedAbs_toNat]
    split <;> simp_all
  refine meets_oidOrInt ?_ ?_ fun t ht => ?_
  · exact Meets.after logs_decodeOid fun _ => (meets_rdnValues (α := Bytes) (logs_lift _)).map
  · rintro b ⟨o, r, hrun, -⟩
    obtain ⟨bytes, r', hbytes, -⟩ := Parser.run_bind_ok_iff.mp hrun
    obtain ⟨h, hh, rfl⟩ := LawfulMinicbor.readBytes_ok.mp (Decoder.lift_run_ok.mp hbytes)
    rw [List.append_assoc, typeOf_head (by omega) (by omega) hh]
    rfl
  · cases t <;> first | exact meets_i32 hvalues | exact absurd rfl ht

theorem SubjectDirectoryAttributes.meets :
    Meets (Reserve.Matches T) (SubjectDirectoryAttributes.Announces T) decode :=
  (meets_decodeGroups meets_withCapacity (yields_withCapacity _) RdnAttributes.meets).map

omit [OidCrate] in
theorem meets_ipAddressFamilies :
    Meets (Reserve.Matches T) (IpAddressFamiliesAnnounce T) decodeIpAddressFamilies := by
  have hentries : ∀ afi, Meets (Reserve.Matches T) (IpEntriesAnnounce T) (decodeEntries afi) := by
    intro afi
    refine meets_definiteArray fun n => ?_
    by_cases hn : n = 0
    · rw [if_pos hn]
      exact (Meets.quiet (Logs.pure _)).congr fun s => by simp [hn]
    · rw [if_neg hn]
      refine (Meets.after (Logs.probe logs_peekForm) fun form =>
        Meets.first (meets_withBoundedCapacity _) fun _ =>
          Logs.bind (Logs.iterate (logs_decodeEntry afi form) _ _) fun _ =>
            Logs.pure _).congr fun s => ?_
      have hpos : n.toNat ≠ 0 := fun h => hn (UInt64.toNat_inj.mp h)
      exact Past.probe_iff.trans (and_iff_right hpos).symm
  have hchoice : ∀ afi, Meets (Reserve.Matches T) (IpEntriesAnnounce T)
      (decodeIpAddressChoice afi) := by
    intro afi
    refine meets_peek fun t => ?_
    split
    · rename_i hnull
      exact Or.inl ⟨by rw [hnull]; decide, Logs.bind (logs_lift _) fun _ => Logs.pure _⟩
    · exact Or.inr (hentries afi)
  exact meets_decodeGroups meets_withBoundedCapacity (yields_withBoundedCapacity _)
    (Meets.after (logs_lift _) fun afi => Meets.after logs_decodeSafi fun _ => (hchoice afi).map)

omit [OidCrate] in
theorem meets_asIdentifiers :
    Meets (Reserve.Matches T) (AsIdentifiersAnnounce T) decodeAsIdentifiers := by
  refine meets_peek fun t => ?_
  split
  · rename_i hnull
    exact Or.inl ⟨by rw [hnull]; decide, Logs.bind (logs_lift _) fun _ => Logs.pure _⟩
  · exact Or.inr (meets_definiteArray fun n => Meets.first (meets_withBoundedCapacity _) fun _ =>
      Logs.bind (Logs.iterate logs_decodeAsEntry _ _) fun _ => Logs.pure _)

theorem ExtensionValue.meets (id : UInt32) :
    Meets (Reserve.Matches T) (ExtensionValue.Announces T id) (ExtensionValue.decode id) := by
  unfold decode
  split
  · exact Meets.quiet (Logs.bind (logs_lift _) fun _ => Logs.pure _)
  · exact Meets.quiet (Logs.bind (logs_lift _) fun _ => Logs.pure _)
  · exact meets_altName.map
  · exact Meets.quiet (Logs.bind BasicConstraints.logs fun _ => Logs.pure _)
  · exact DistributionPointName.meets.map
  · exact CertificatePolicies.meets.map
  · exact AuthorityKeyIdentifier.meets.map
  · exact Meets.quiet (Logs.bind ExtKeyUsage.logs fun _ => Logs.pure _)
  · exact AccessDescription.meets.map
  · exact SubjectDirectoryAttributes.meets.map
  · exact meets_altName.map
  · exact NameConstraints.meets.map
  · exact PolicyMappings.meets.map
  · exact Meets.quiet (Logs.bind PolicyConstraints.logs fun _ => Logs.pure _)
  · exact DistributionPointName.meets.map
  · exact Meets.quiet (Logs.bind (logs_lift _) fun _ => Logs.pure _)
  · exact AccessDescription.meets.map
  · exact meets_ipAddressFamilies.map
  · exact meets_asIdentifiers.map
  · exact meets_ipAddressFamilies.map
  · exact meets_asIdentifiers.map
  · exact Meets.quiet (Logs.bind (logs_lift _) fun _ => Logs.pure _)
  · exact Meets.quiet (Logs.bind (logs_lift _) fun _ => Logs.pure _)
  · refine (Meets.quiet (Logs.bind logs_rawItem fun _ => Logs.pure _)).congr fun b => ?_
    unfold Announces
    split <;> first | rfl | exact absurd rfl ‹_›

/-- The critical form of an id is the same int with its sign turned. -/
theorem Extension.meets : Meets (Reserve.Matches T) (Extension.Announces T) decode := by
  have hint : Meets (Reserve.Matches T) (Extension.Announces T) (do
      let x ← decodeCriticalMagnitude
      let value ← ExtensionValue.decode x.1
      return { id := .int x.1.toInt32, critical := x.2, value } : Dec Extension) := by
    unfold decodeCriticalMagnitude
    rw [Parser.bind_assoc]
    exact meets_i32 fun n => (ExtensionValue.meets (unsignedAbs n)).map
  refine (meets_oidOrInt (Meets.quiet ?_) (fun _ => False.elim) fun t ht => ?_).congr
    fun b => or_iff_right fun h => h
  · exact Logs.bind logs_decodeOid fun _ => Logs.bind logs_decodeOidValue fun _ => Logs.pure _
  · cases t <;> first | exact hint | exact absurd rfl ht

theorem Extensions.meets : Meets (Reserve.Matches T) (Extensions.Announces T) decode := by
  have hlist : Meets (Reserve.Matches T) (Extensions.Announces T) decodeList :=
    (meets_decodeGroups meets_withCapacity (yields_withCapacity _) Extension.meets).map
  refine meets_peek fun t => ?_
  split
  · exact Or.inr hlist
  · exact Or.inr hlist
  · rename_i hne _
    exact Or.inl ⟨hne, Logs.bind logs_criticalMagnitude fun _ => Logs.pure _⟩

namespace C509Certificate

/-- **The headers of the bare form.** -/
theorem meets_decodeFields : Meets (Reserve.Matches T) (FieldsAnnounce T) decodeFields :=
  Meets.after (logs_lift _) fun _ =>
  Meets.after logs_readBiguint fun _ =>
  Meets.after AlgorithmIdentifier.logs fun _ =>
  Meets.both Name.meets_optional fun _ =>
  Meets.after logs_readTime fun _ =>
  Meets.after logs_decodeNotAfter fun _ =>
  Meets.both Name.meets fun _ =>
  Meets.after AlgorithmIdentifier.logs fun _ =>
  Meets.after (logs_lift _) fun _ =>
  Meets.first Extensions.meets fun _ => Logs.bind (logs_lift _) fun _ => Logs.pure _

/-- **And of the array form.** -/
theorem meets_decodeItem : Meets (Reserve.Matches T) (ItemAnnounces T) decodeItem := by
  refine meets_array (fun n => ?_) fun b e he => by cases he
  exact (Meets.ensure meets_decodeFields.mapError).congr fun s =>
    and_congr_left' UInt64.toNat_inj.symm

end C509Certificate

end

end C509
