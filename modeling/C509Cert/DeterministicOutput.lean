/-
What the encoders write, as CBOR.

Every head the crate writes is in its shortest form and every length definite.  Only the
items a decoder kept raw, an extension under an id the crate does not know and a general
name of a kind it does not know, are written as they were found.
-/
import C509Cert.RawItems
import C509Cert.Codec.Deterministic

namespace C509

open Cbor Codec

section

variable [Minicbor] [LawfulMinicbor] {R : Bytes → Prop} {α β : Type} {k : Nat}

/-! ### The writes -/

omit [Minicbor] [LawfulMinicbor] in
private theorem emits_head {m n : Nat} (hm : m < 2) (hn : n < 2 ^ 64) :
    Emits R 1 (Printer.put (shortHead m n) : Enc) := by
  refine Emits.put ?_
  rw [← List.append_nil (shortHead m n)]
  exact Deterministic.int hm hn Deterministic.nil

theorem emits_u16 (n : UInt16) : Emits R 1 (Encoder.u16 n) := by
  rw [Encoder.u16, LawfulMinicbor.writeU16_eq]
  have hn := n.toNat_lt
  exact emits_head (by decide) (by omega)

theorem emits_u32 (n : UInt32) : Emits R 1 (Encoder.u32 n) := by
  rw [Encoder.u32, LawfulMinicbor.writeU32_eq]
  have hn := n.toNat_lt
  exact emits_head (by decide) (by omega)

theorem emits_u64 (n : UInt64) : Emits R 1 (Encoder.u64 n) := by
  rw [Encoder.u64, LawfulMinicbor.writeU64_eq]
  exact emits_head (by decide) n.toNat_lt

theorem emits_int {v : Int} (hlo : -2 ^ 64 ≤ v) (hhi : v < 2 ^ 64) :
    Emits R 1 (Encoder.int v) := by
  rw [Encoder.int, LawfulMinicbor.writeInt_eq hlo hhi, ← List.append_nil (shortInt v)]
  exact Emits.put (Deterministic.shortInt hlo hhi Deterministic.nil)

theorem emits_i32 (n : Int32) : Emits R 1 (Encoder.i32 n) := by
  have hlo := n.le_toInt
  have hhi := n.toInt_lt
  rw [Encoder.i32, LawfulMinicbor.writeI32_eq, ← List.append_nil (shortInt n.toInt)]
  exact Emits.put (Deterministic.shortInt (by omega) (by omega) Deterministic.nil)

omit [Minicbor] [LawfulMinicbor] in
private theorem emits_string {m : Nat} {s : Bytes} (hm : m = 2 ∨ m = 3) (hs : s.length < 2 ^ 64) :
    Emits R 1 (Printer.put (shortHead m s.length ++ s) : Enc) := by
  refine Emits.put ?_
  rw [← List.append_nil (shortHead m s.length ++ s)]
  exact Deterministic.string hm hs Deterministic.nil

theorem emits_bytes {s : Bytes} (hs : s.length < 2 ^ 64) : Emits R 1 (Encoder.bytes s) := by
  rw [Encoder.bytes, LawfulMinicbor.writeBytes_eq hs]
  exact emits_string (Or.inl rfl) hs

theorem emits_str {s : String} (hs : (utf8 s).length < 2 ^ 64) : Emits R 1 (Encoder.str s) := by
  rw [Encoder.str, LawfulMinicbor.writeStr_eq hs]
  exact emits_string (Or.inr rfl) hs

theorem emits_null : Emits R 1 Encoder.null := by
  rw [Encoder.null, LawfulMinicbor.writeNull_eq]
  exact Emits.put (Deterministic.null Deterministic.nil)

omit [Minicbor] [LawfulMinicbor] in
theorem emits_raw {raw : Bytes} (hraw : R raw) : Emits R 1 (writeRaw raw) := by
  refine Emits.put ?_
  rw [← List.append_nil raw]
  exact Deterministic.kept hraw Deterministic.nil

omit [Minicbor] [LawfulMinicbor] in
theorem emits_refuse (msg : String) : Emits R k (refuse msg) := Emits.fail _

/-- An array header of `n`, and the `n` items it announces. -/
theorem emits_array {n : UInt64} {f : Unit → Printer EncodeError β} (hf : Emits R n.toNat (f ())) :
    Emits R 1 (Encoder.array n >>= f) := by
  rw [Encoder.array, LawfulMinicbor.writeArray_eq]
  exact Emits.array n.toNat_lt hf

theorem emits_list {l : List α} {enc : α → Enc} (hlen : l.length < 2 ^ 64)
    (henc : ∀ x ∈ l, Emits R 1 (enc x)) :
    Emits R 1 (do Encoder.array (UInt64.ofNat l.length); forM l enc) := by
  have hn : (UInt64.ofNat l.length).toNat = l.length := UInt64.toNat_ofNat_of_lt' hlen
  exact emits_array ((Emits.forM henc).cast (by rw [hn, Nat.mul_one]))

theorem emits_groups {n : UInt64} {l : List α} {enc : α → Enc}
    (hlen : l.length * n.toNat < 2 ^ 64) (henc : ∀ x ∈ l, Emits R n.toNat (enc x)) :
    Emits R 1 (encodeGroups n l enc) := by
  have hcount : (UInt64.ofNat l.length * n).toNat = l.length * n.toNat := by
    rw [UInt64.toNat_mul, UInt64.toNat_ofNat', Nat.mod_mul_mod, Nat.mod_eq_of_lt hlen]
  exact emits_array ((Emits.forM henc).cast hcount.symm)

/-! ### The shared parts -/

theorem emits_optUint (v : Option UInt32) : Emits R 1 (encodeOptUint v) := by
  cases v with
  | none => exact emits_null
  | some n => exact emits_u32 n

theorem emits_time (t : OffsetDateTime) : Emits R 1 (encodeTime t) := by
  unfold encodeTime
  split
  · exact emits_u64 _
  · exact emits_refuse _

theorem emits_biguint {n : BigUint} (hn : n.Valid) : Emits R 1 (Encoder.bytes (biguintBytes n)) :=
  emits_bytes hn

omit [Minicbor] [LawfulMinicbor] in
theorem MacAddr.length_lt (mac : MacAddr) : mac.bytes.length < 2 ^ 64 := by
  rcases mac.size with h | h <;> omega

variable [OidCrate]

theorem emits_oid {oid : ObjectIdentifier} (h : oid.Read) :
    Emits R 1 (Encoder.bytes (oidBytes oid)) := emits_bytes h.2

theorem IntOrOid.emits {v : IntOrOid} (hv : v.Valid .decoded) : Emits R 1 v.encode := by
  cases v with
  | int n => exact emits_i32 n
  | oid o => exact emits_oid hv

theorem AlgorithmIdentifier.emits {a : AlgorithmIdentifier} (ha : a.Valid .decoded) :
    Emits R 1 a.encode := by
  match a, ha with
  | .int n, _ => exact emits_i32 n
  | .oid algorithm none, ha => exact emits_oid ha
  | .oid algorithm (some params), ha =>
      exact emits_array (Emits.bind (emits_oid ha.1) fun _ => emits_bytes ha.2)

/-! ### Names -/

omit [OidCrate] in
theorem SpecialText.emits {v : SpecialText} (hv : v.Valid) : Emits R 1 v.encode := by
  cases v with
  | text s => exact emits_str hv
  | bytes b => exact emits_bytes hv
  | mac m =>
      rw [encode, Encoder.tag, LawfulMinicbor.writeTag_eq]
      exact Emits.tag (by decide) (emits_bytes m.length_lt)

theorem RdnAttr.emits {S B : Type} [RdnValue S] [RdnValue B] [LawfulRdnValue S]
    [LawfulRdnValue B] (hS : ∀ v : S, LawfulRdnValue.Valid v → Emits R 1 (RdnValue.encode v))
    (hB : ∀ v : B, LawfulRdnValue.Valid v → Emits R 1 (RdnValue.encode v)) {a : RdnAttr S B}
    (ha : a.Valid .decoded) : Emits R 2 a.encode := by
  cases a with
  | registered id printableString value => exact Emits.bind (emits_i32 _) fun _ => hS value ha.2
  | oid o value => exact Emits.bind (emits_oid ha.1) fun _ => hB value ha.2

theorem Name.emits {name : Name} (hname : name.Valid .decoded) : Emits R 1 name.encode := by
  unfold encode
  cases hbare : name.bareValue with
  | some value =>
      obtain rfl := bareValue_eq_some hbare
      exact SpecialText.emits (hname.2 _ (List.mem_singleton_self _)).2
  | none =>
      exact emits_groups hname.1 fun a ha =>
        RdnAttr.emits (fun _ hv => SpecialText.emits hv) (fun _ hv => emits_bytes hv)
          (hname.2 a ha)

theorem Name.emits_optional {name : Option Name} (hname : OptionalValid .decoded name) :
    Emits R 1 (encodeOptional name) := by
  cases name with
  | none => exact emits_null
  | some n => exact Name.emits (hname n rfl)

theorem GeneralName.emits {g : GeneralName} (hg : g.Valid .decoded) (hraw : ∀ r ∈ g.rawItems, R r) :
    Emits R 2 g.encode := by
  have htyped : ∀ {oid : ObjectIdentifier} {value : Bytes}, oid.Read → value.length < 2 ^ 64 →
      Emits R 1 (GeneralNameValue.encodeTyped oid value) := fun ho hv =>
    emits_array (Emits.bind (emits_oid ho) fun _ => emits_bytes hv)
  obtain ⟨kind, value⟩ := g
  have hv : value.Valid .decoded := hg.2
  refine Emits.bind (k := 1) (emits_i32 kind) fun _ => ?_
  cases value with
  | otherName oid value => exact htyped hv.1 hv.2
  | hardwareModuleName oid value => exact htyped hv.1 hv.2
  | smtpUtf8Mailbox s | rfc822Name s | dnsName s | uri s => exact emits_str hv
  | macAddress mac => exact emits_bytes mac.length_lt
  | directoryName name => exact Name.emits hv
  | ipAddress b => exact emits_bytes hv
  | registeredId oid => exact emits_oid hv
  | raw item => exact emits_raw (hraw item (List.mem_singleton_self _))

theorem emits_generalNames {names : List GeneralName} (h : GeneralNamesValid .decoded names)
    (hraw : ∀ r ∈ namesRawItems names, R r) : Emits R 1 (encodeGeneralNames names) :=
  emits_groups h.1 fun g hg => GeneralName.emits (h.2 g hg) fun r hr =>
    hraw r (List.mem_flatMap.mpr ⟨g, hg, hr⟩)

theorem emits_altName {names : List GeneralName} (h : GeneralNamesValid .decoded names)
    (hraw : ∀ r ∈ namesRawItems names, R r) : Emits R 1 (encodeAltName names) := by
  unfold encodeAltName
  cases hbare : bareDnsName names with
  | some s =>
      obtain rfl := bareDnsName_eq_some hbare
      exact emits_str (h.2 _ (List.mem_singleton_self _)).2
  | none => exact emits_generalNames h hraw

/-! ### Extension values -/

theorem AuthorityKeyIdentifier.emits {v : AuthorityKeyIdentifier} (hv : v.Valid .decoded)
    (hraw : ∀ r ∈ namesRawItems (v.certIssuer.getD []), R r) : Emits R 1 v.encode := by
  obtain ⟨key, issuer, serial⟩ := v
  obtain ⟨hkey, -, hissuer, hserial⟩ := hv
  match issuer, serial with
  | none, none => exact emits_bytes hkey
  | some issuer, some serial =>
      exact emits_array (Emits.bind (emits_bytes hkey) fun _ =>
        Emits.bind (emits_generalNames (hissuer issuer rfl) hraw) fun _ =>
          emits_biguint (hserial serial rfl))
  | none, some _ => exact emits_refuse _
  | some _, none => exact emits_refuse _

theorem NameConstraints.emits {v : NameConstraints} (hv : v.Valid .decoded)
    (hraw : ∀ r ∈ namesRawItems (v.permitted.getD []) ++ namesRawItems (v.excluded.getD []),
      R r) : Emits R 1 v.encode := by
  have hsubtree : ∀ {t : Option (List GeneralName)}, SubtreeValid .decoded t →
      (∀ r ∈ namesRawItems (t.getD []), R r) → Emits R 1 (encodeOptGeneralSubtree t) := by
    intro t ht hr
    cases t with
    | none => exact emits_null
    | some names => exact emits_generalNames (ht names rfl) hr
  exact emits_array (Emits.bind
    (hsubtree hv.1 fun r hr => hraw r (List.mem_append_left _ hr)) fun _ =>
      hsubtree hv.2 fun r hr => hraw r (List.mem_append_right _ hr))

omit [OidCrate] in
theorem BasicConstraints.emits (v : BasicConstraints) : Emits R 1 v.encode := by
  match v with
  | .notCa => exact emits_i32 _
  | .ca none => exact emits_i32 _
  | .ca (some n) =>
      simp only [encode]
      split
      · exact emits_i32 _
      · exact emits_refuse _

theorem ExtKeyUsage.emits {v : ExtKeyUsage} (hv : v.Valid .decoded) : Emits R 1 v.encode := by
  obtain ⟨purposes⟩ := v
  obtain ⟨hlen, hpurposes⟩ := hv
  have harray := emits_list hlen fun p hp => IntOrOid.emits (R := R) (hpurposes p hp)
  match purposes, hpurposes, harray with
  | [], _, harray => exact harray
  | [single], hpurposes, _ => exact IntOrOid.emits (hpurposes single (List.mem_singleton_self _))
  | _ :: _ :: _, _, harray => exact harray

theorem AccessDescription.emits {v : List AccessDescription} (hv : ListValid .decoded v) :
    Emits R 1 (encode v) :=
  emits_groups hv.1 fun ad had =>
    Emits.bind (IntOrOid.emits (hv.2 ad had).1) fun _ => emits_str (hv.2 ad had).2

theorem DistributionPointName.emits {points : List DistributionPointName}
    (h : ListValid .decoded points) :
    Emits R 1 (encode points) := by
  have hfull : ∀ {names : List String}, FullNameValid names →
      Emits R 1 (encodeFullName names) := by
    intro names hnames
    have hnames' : ∀ s ∈ names, Emits R 1 (Encoder.str s) := fun s hs =>
      emits_str (hnames.2 s hs)
    have harray := emits_list hnames.1 hnames'
    match names, hnames, harray with
    | [], _, harray => exact harray
    | [single], hnames, _ => exact emits_str (hnames.2 single (List.mem_singleton_self _))
    | _ :: _ :: _, _, harray => exact harray
  unfold encode
  cases hbare : bareText points with
  | some s =>
      obtain rfl := bareText_eq_some hbare
      exact emits_str ((h.2 _ (List.mem_singleton_self _)).1.2 s (List.mem_singleton_self _))
  | none =>
      exact emits_list h.1 fun dp hdp => emits_array (Emits.bind (hfull (h.2 dp hdp).1) fun _ =>
        Emits.bind (emits_optUint _) fun _ => Name.emits_optional (h.2 dp hdp).2)

theorem CertificatePolicies.emits {v : CertificatePolicies} (hv : v.Valid .decoded) :
    Emits R 1 v.encode := by
  have hqualifiers : ∀ policy ∈ v.policies, Emits R 1 (encodePolicyQualifiers policy.2) :=
    fun policy hp => emits_groups (hv.2 policy hp).2.1 fun q hq =>
      Emits.bind (IntOrOid.emits ((hv.2 policy hp).2.2 q hq).1) fun _ =>
        emits_str ((hv.2 policy hp).2.2 q hq).2
  exact emits_groups hv.1 fun policy hp =>
    Emits.bind (IntOrOid.emits (hv.2 policy hp).1) fun _ => hqualifiers policy hp

omit [OidCrate] in
theorem PolicyConstraints.emits (v : PolicyConstraints) : Emits R 1 v.encode :=
  emits_array (Emits.bind (emits_optUint _) fun _ => emits_optUint _)

theorem PolicyMappings.emits {v : PolicyMappings} (hv : v.Valid .decoded) : Emits R 1 v.encode :=
  emits_groups hv.1 fun p hp =>
    Emits.bind (IntOrOid.emits (hv.2 p hp).1) fun _ => IntOrOid.emits (hv.2 p hp).2

theorem SubjectDirectoryAttributes.emits {v : SubjectDirectoryAttributes} (hv : v.Valid .decoded) :
    Emits R 1 v.encode := by
  have htexts : ∀ l : List SpecialText, LawfulRdnValue.Valid l →
      Emits R 1 (RdnValue.encode l) := fun l hl =>
    emits_list hl.1 fun t ht => SpecialText.emits (hl.2 t ht)
  have hbytes : ∀ l : List Bytes, LawfulRdnValue.Valid l → Emits R 1 (RdnValue.encode l) :=
    fun l hl => emits_list hl.1 fun b hb => emits_bytes (hl.2 b hb)
  exact emits_groups hv.1 fun a ha => RdnAttr.emits htexts hbytes (hv.2 a ha)

/-! ### Addresses and AS identifiers -/

section Addresses

omit [OidCrate]

theorem emits_delta (delta : Int) : Emits R 1 (encodeDelta delta) := by
  unfold encodeDelta
  split
  · rename_i h
    exact emits_int h.1 h.2
  · exact emits_refuse _

omit [Minicbor] [LawfulMinicbor] in
theorem emits_toEncodeErr (x : Except String α) : Emits R 0 (toEncodeErr x) := by
  cases x with
  | ok a => exact Emits.pure a
  | error msg => exact Emits.fail _

theorem emits_intEntry (c : Chain) (e : ResolvedEntry) : Emits R 1 (encodeIntEntry c e) := by
  cases e with
  | addressPrefix bytes unusedBits =>
      exact Emits.bind (emits_toEncodeErr _) fun _ => Emits.bind (emits_delta _) fun _ =>
        Emits.pure _
  | range minBytes maxBytes =>
      refine (Emits.bind (emits_toEncodeErr _) fun _ => Emits.bind (emits_toEncodeErr _) fun _ =>
        emits_array (Emits.bind (emits_delta _) fun _ => Emits.bind (emits_delta _) fun _ =>
          Emits.pure _)).cast rfl

theorem emits_bytesEntry (e : IpAddressOrRange) : Emits R 1 (encodeBytesEntry e.resolve) := by
  cases e with
  | addressPrefix net =>
      have hle := net.le
      have hsize := net.addr.size
      have hlen := prefixToFramed_length net
      exact emits_bytes (by rw [List.length_cons]; omega)
  | range min max =>
      have hmin := addrToFramedTrimmed_length min 0x00
      have hmax := addrToFramedTrimmed_length max 0xFF
      exact emits_array (Emits.bind (emits_bytes (by rw [List.length_cons]; omega)) fun _ =>
        emits_bytes (by rw [List.length_cons]; omega))

theorem emits_ipAddressFamilies {families : List IpAddressFamily} (h : FamiliesValid families) :
    Emits R 1 (encodeIpAddressFamilies families) := by
  have hsafi : ∀ safi, Emits R 1 (encodeSafi safi) := by
    intro safi
    cases safi with
    | none => exact emits_null
    | some s => exact emits_u16 s
  have hchoice : ∀ {afi : UInt16} {choice : IpAddressChoice}, choice.Valid afi →
      Emits R 1 (encodeIpAddressChoice choice) := by
    intro afi choice hc
    cases choice with
    | inherit => exact emits_null
    | prefixes entries =>
        have hn : (UInt64.ofNat entries.length).toNat = entries.length :=
          UInt64.toNat_ofNat_of_lt' hc.1
        refine emits_array ?_
        rw [hn]
        split
        · exact (Emits.iterate (fun s x _ => emits_intEntry s x) _).cast (by simp)
        · refine (Emits.forM (k := 1) fun x hx => ?_).cast (by simp)
          obtain ⟨e, -, rfl⟩ := List.mem_map.mp hx
          exact emits_bytesEntry e
  exact emits_groups h.1 fun fam hfam => Emits.bind (emits_u16 _) fun _ =>
    Emits.bind (hsafi _) fun _ => hchoice (h.2 fam hfam)

theorem emits_asIdentifiers {ids : Option (List AsIdOrRange)} (h : AsIdsValid ids) :
    Emits R 1 (encodeAsIdentifiers ids) := by
  have hentry : ∀ c e, Emits R 1 (encodeAsEntry c e) := by
    intro c e
    cases e with
    | id n => exact Emits.bind (emits_delta _) fun _ => Emits.pure _
    | range min max =>
        exact emits_array (Emits.bind (emits_delta _) fun _ => Emits.bind (emits_delta _) fun _ =>
          Emits.pure _)
  cases ids with
  | none => exact emits_null
  | some l =>
      have hn : (UInt64.ofNat l.length).toNat = l.length := UInt64.toNat_ofNat_of_lt' (h l rfl)
      refine emits_array ?_
      rw [hn]
      exact (Emits.iterate (fun s x _ => hentry s x) _).cast (Nat.mul_one _)

end Addresses

/-! ### Certificates -/

theorem ExtensionValue.emits {v : ExtensionValue} (hv : v.Valid .decoded)
    (hraw : ∀ r ∈ v.rawItems, R r) :
    Emits R 1 v.encode := by
  cases v with
  | subjectKeyIdentifier b => exact emits_bytes hv
  | keyUsage n => exact emits_u32 n
  | subjectAltName names => exact emits_altName hv hraw
  | basicConstraints bc => exact BasicConstraints.emits bc
  | crlDistributionPoints dp => exact DistributionPointName.emits hv
  | certificatePolicies v => exact CertificatePolicies.emits hv
  | authorityKeyIdentifier v => exact AuthorityKeyIdentifier.emits hv hraw
  | extKeyUsage v => exact ExtKeyUsage.emits hv
  | authorityInfoAccess v => exact AccessDescription.emits hv
  | subjectDirectoryAttributes v => exact SubjectDirectoryAttributes.emits hv
  | issuerAltName names => exact emits_altName hv hraw
  | nameConstraints v => exact NameConstraints.emits hv hraw
  | policyMappings v => exact PolicyMappings.emits hv
  | policyConstraints v => exact PolicyConstraints.emits v
  | freshestCrl dp => exact DistributionPointName.emits hv
  | inhibitAnyPolicy n => exact emits_u32 n
  | subjectInfoAccess v => exact AccessDescription.emits hv
  | ipAddrBlocks v => exact emits_ipAddressFamilies hv
  | asIdentifiers v => exact emits_asIdentifiers hv
  | ipAddrBlocksV2 v => exact emits_ipAddressFamilies hv
  | asIdentifiersV2 v => exact emits_asIdentifiers hv
  | ocspNoCheck => exact emits_null
  | tlsFeatures v =>
      have hforM : ∀ l : List UInt32, Deterministic R l.length
          (l.flatMap fun n => shortHead 0 n.toNat) := by
        intro l
        induction l with
        | nil => exact Deterministic.nil
        | cons n l ih =>
            have hn := n.toNat_lt
            exact Deterministic.int (by decide) (by omega) ih
      show Emits R 1 (Encoder.vecU32 v)
      rw [Encoder.vecU32, LawfulMinicbor.writeVecU32_eq hv]
      exact Emits.put (Deterministic.array hv (hforM v))
  | raw b => exact emits_raw (hraw b (List.mem_singleton_self _))

omit [OidCrate] in
theorem emits_criticalI32 (value : Int32) (critical : Bool) :
    Emits R 1 (encodeCriticalI32 value critical) := by
  unfold encodeCriticalI32
  split
  · exact (Emits.bind (Emits.get _ _) fun _ => emits_i32 _).cast rfl
  · exact (Emits.bind (Emits.pure _) fun _ => emits_i32 _).cast rfl

theorem Extension.emits {e : Extension} (he : e.Valid .decoded) (hraw : ∀ r ∈ e.rawItems, R r) :
    Emits R 2 e.encode := by
  obtain ⟨id, critical, value⟩ := e
  cases id with
  | int id =>
      exact Emits.bind (emits_criticalI32 id critical) fun _ =>
        ExtensionValue.emits he.2.2.2 hraw
  | oid oid =>
      obtain ⟨hoid, b, rfl, hb⟩ := he
      refine Emits.bind (k := 1) (emits_oid hoid) fun _ => ?_
      show Emits R 1 (encodeOidValue critical (.raw b))
      simp only [encodeOidValue]
      split
      · exact emits_array (n := 1) (emits_bytes hb)
      · exact emits_bytes hb

theorem Extensions.emits {v : Extensions} (hv : v.Valid .decoded)
    (hraw : ∀ r ∈ v.exts.flatMap Extension.rawItems, R r) : Emits R 1 v.encode := by
  unfold encode
  cases v.bareKeyUsage with
  | some x =>
      obtain ⟨critical, n⟩ := x
      show Emits R 1 (encodeKeyUsage critical n)
      unfold encodeKeyUsage
      split
      · exact emits_criticalI32 _ _
      · exact emits_refuse _
  | none =>
      exact emits_groups hv.1 fun e he => Extension.emits (hv.2 e he) fun r hr =>
        hraw r (List.mem_flatMap.mpr ⟨e, he, hr⟩)

namespace C509Certificate

theorem emits_fields {c : C509Certificate} (hc : c.Valid .decoded) (hraw : ∀ r ∈ c.rawItems, R r) :
    Emits R 11 c.encodeFields := by
  have hafter : Emits R 1 (encodeNotAfter c.tbs.validityNotAfter) := by
    cases c.tbs.validityNotAfter with
    | none => exact emits_null
    | some t => exact emits_time t
  exact
    Emits.bind (k := 10) (emits_i32 _) fun _ =>
    Emits.bind (k := 9) (emits_biguint hc.serialNumber) fun _ =>
    Emits.bind (k := 8) (AlgorithmIdentifier.emits hc.signatureAlgorithm) fun _ =>
    Emits.bind (k := 7) (Name.emits_optional hc.issuer) fun _ =>
    Emits.bind (k := 6) (emits_time _) fun _ =>
    Emits.bind (k := 5) hafter fun _ =>
    Emits.bind (k := 4) (Name.emits hc.subject) fun _ =>
    Emits.bind (k := 3) (AlgorithmIdentifier.emits hc.publicKeyAlgorithm) fun _ =>
    Emits.bind (k := 2) (emits_bytes hc.publicKey) fun _ =>
    Emits.bind (k := 1) (Extensions.emits hc.extensions hraw) fun _ =>
    emits_bytes hc.signatureValue

/--
**What is written is deterministic CBOR.**  The bare form is eleven items with shortest
heads and definite lengths throughout, as far as the items kept raw are, and the array form
is those under one head.
-/
theorem encode_deterministic {c : C509Certificate} (hc : c.Valid .decoded)
    (hraw : ∀ r ∈ c.rawItems, Deterministic R 1 r) :
    (∀ o, c.encodeSequence = .returned o →
      Deterministic R 11 o ∧ c.encode = .returned (shortHead 4 11 ++ o)) ∧
      ∀ o, c.encode = .returned o → Deterministic R 1 o := by
  have hfields : ∀ o, c.encodeFields.run = .ok ((), o) → Deterministic R 11 o := fun o ho =>
    (emits_fields hc (fun r (hr : r ∈ c.rawItems) => hr) () o ho).trans hraw
  have hitem : Emits R 1 c.encodeItem := emits_array (n := FIELD_COUNT) fun _ o ho => hfields o ho
  refine ⟨fun o ho => ?_, fun o ho => hitem () o (Outcome.expect_eq_returned.mp ho)⟩
  have hrun := Outcome.expect_eq_returned.mp ho
  refine ⟨hfields o hrun, Outcome.expect_eq_returned.mpr ?_⟩
  rw [encodeItem, Encoder.array, LawfulMinicbor.writeArray_eq]
  exact Printer.run_bind_of_ok (Printer.run_put _) hrun

end C509Certificate

end

open scoped Reference in
/-- The one item the sample keeps raw is deterministic, and so is the sample. -/
theorem C509Certificate.sample_deterministic :
    Deterministic (fun _ => False) 11 sampleBytes ∧
      sample.encode = .returned (shortHead 4 11 ++ sampleBytes) := by
  refine (encode_deterministic (valid_of_decodeSequence sample_decodes) fun r hr => ?_).1
    sampleBytes rfl
  rw [List.mem_singleton.mp hr]
  exact Deterministic.array (n := 1) (by decide)
    (Deterministic.string (m := 3) (s := [0x78]) (Or.inr rfl) (by decide) Deterministic.nil)

end C509
