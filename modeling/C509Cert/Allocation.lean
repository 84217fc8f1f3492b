/-
What a whole run of the decoder reserves.

A single `Vec::with_capacity` may ask for as much as a header announces, and a certificate
holds many headers.  Three loops nest: extensions, the names or points of one of them, and
the attributes of a name among those.  So each byte of input pays for three reserved
elements, on every input; a header that announces more than is left is only ever found on
the way into the loop that fails, and there are at most three of those.
-/
import C509Cert.Capacity
import C509Cert.RoundTrip
import C509Cert.Codec.Budget

namespace C509

open Cbor Codec

/-! ### The cost of a reservation -/

namespace Reserve

/-- The elements a header can really stand for. -/
def capped (e : Reserve) : Nat := min e.announced e.remaining

/-- The header announces more elements than there are bytes left. -/
def overdrawn (e : Reserve) : Bool := decide (e.remaining < e.announced)

theorem requested_le_capped {e : Reserve} (he : e.Computed) (hb : e.Bounded) :
    e.requested ≤ e.capped := by
  unfold Computed at he
  unfold Bounded at hb
  unfold capped
  split at he <;> omega

theorem bounded_of_not_overdrawn {e : Reserve} (he : e.Computed) (h : e.overdrawn = false) :
    e.Bounded := by
  have hle : ¬ e.remaining < e.announced := of_decide_eq_false h
  unfold Computed at he
  unfold Bounded
  split at he <;> omega

instance (e : Reserve) : Decidable e.Bounded := inferInstanceAs (Decidable (_ ≤ _))

end Reserve

section

variable [Minicbor] {α β : Type} {d : Nat}

/-- The input pays for what `m` reserves, each byte for `d` elements. -/
abbrev Frugal (d : Nat) (m : Dec α) : Prop := Affords Reserve.capped Reserve.overdrawn d m

/-- `p` reserves for `n` announced elements, whatever it asks for. -/
def ReservesFor (n : Nat) (p : Dec Unit) : Prop :=
  ∃ (site : Site) (q : Bytes → Nat), p = Parser.emit fun b =>
    { site, announced := n, remaining := b.length, requested := q b }

theorem reservesFor_withCapacity (site : Site) (n : Nat) : ReservesFor n (withCapacity site n) :=
  ⟨site, _, rfl⟩

theorem reservesFor_withBoundedCapacity (site : Site) (n : Nat) :
    ReservesFor n (withBoundedCapacity site n) := ⟨site, _, rfl⟩

theorem frugal_reserve {n k : Nat} {p : Dec Unit} (hp : ReservesFor n p) {m : Dec α}
    {P : α → Prop} (hm : Frugal d m) (hreads : Reads Skipped k m P) (hk : n ≤ k) :
    Frugal (d + 1) (p >>= fun _ => m) := by
  obtain ⟨site, q, rfl⟩ := hp
  refine Affords.announce (n := n) (fun b => Nat.le_refl _) (fun b hb => ?_) ?_ hm
  · exact decide_eq_false (Nat.not_lt.mpr hb)
  · intro b a r hrun
    have := Affords.shrinks_of_reads hreads hrun
    omega

/-! ### The reads -/

theorem quiet_lift (f : Bytes → Except Minicbor.Err (α × Bytes)) :
    Logs (Decoder.lift f) fun _ => False := by
  intro b e he
  cases he

theorem frugal_result (x : Except String α) : Frugal d (result x) := by
  cases x with
  | ok a => exact Affords.pure a
  | error msg => exact Affords.fail _

theorem frugal_lift {k : Nat} {f : Bytes → Except Minicbor.Err (α × Bytes)} {P : α → Prop}
    (hf : Reads Skipped k (Decoder.lift f) P) : Frugal d (Decoder.lift f) :=
  Affords.ofReads (quiet_lift f) hf

variable [LawfulMinicbor]

theorem frugal_datatype : Frugal d Decoder.datatype :=
  Affords.quiet (quiet_lift _) (Affords.left_le_of_shrinks fun b t r hrun => by
    obtain ⟨-, rfl⟩ := datatype_run_ok.mp hrun
    exact Nat.le_refl _)

theorem frugal_array : Frugal d Decoder.array := by
  refine Affords.quiet (quiet_lift _) (Affords.left_le_of_shrinks fun b o r hrun => ?_)
  have harray := Decoder.lift_run_ok.mp hrun
  cases o with
  | none => simp [LawfulMinicbor.readArray_none.mp harray]
  | some n =>
      obtain ⟨h, -, rfl⟩ := LawfulMinicbor.readArray_some.mp harray
      simp

theorem frugal_tag : Frugal d Decoder.tag := by
  refine Affords.quiet (quiet_lift _) (Affords.left_le_of_shrinks fun b n r hrun => ?_)
  obtain ⟨h, -, rfl⟩ := LawfulMinicbor.readTag_ok.mp (Decoder.lift_run_ok.mp hrun)
  simp

/-- A look at the type of the next item, and then one branch or the other. -/
theorem frugal_peek {f : DataType → Dec β} (hf : ∀ t, Frugal d (f t)) :
    Frugal d (Decoder.datatype >>= f) := Affords.bind frugal_datatype hf

theorem frugal_definiteArrayLen : Frugal d definiteArrayLen :=
  Affords.bind frugal_array fun _ => Affords.get _ _

theorem frugal_expectArray {want : UInt64} {f : Unit → Dec β} (hf : Frugal d (f ())) :
    Frugal d (expectArrayLen want >>= f) :=
  Affords.bind (Affords.bind frugal_definiteArrayLen fun _ => Affords.ensure _ _) fun _ => hf

variable {reserve : Nat → Dec Unit} {m : Dec α} {P : α → Prop}

/-- **A loop over an announced array costs one more than its element.** -/
theorem frugal_decodeArray (hreserve : ∀ n, ReservesFor n (reserve n)) (hm : Frugal d m)
    (hreads : Reads Skipped 1 m P) : Frugal (d + 1) (decodeArray reserve m) :=
  Affords.bind frugal_definiteArrayLen fun n =>
    frugal_reserve (hreserve n.toNat) (Affords.times hm _) (Reads.times hreads _)
      (Nat.mul_one _).ge

theorem frugal_decodeGroups {k : UInt64} {msg : String}
    (hreserve : ∀ n, ReservesFor n (reserve n)) (hm : Frugal d m)
    (hreads : Reads Skipped k.toNat m P) (hk : 0 < k.toNat) :
    Frugal (d + 1) (decodeGroups reserve k msg m) :=
  Affords.bind frugal_definiteArrayLen fun n => Affords.bind (Affords.ensure _ _) fun _ =>
    frugal_reserve (hreserve (n / k).toNat) (Affords.times hm _) (Reads.times hreads _)
      (Nat.le_mul_of_pos_right _ hk)

/-! ### The shared parts -/

theorem frugal_decodeOptUint : Frugal d decodeOptUint := by
  refine frugal_peek fun t => ?_
  split
  · exact Affords.map (frugal_lift reads_null)
  · exact Affords.map (frugal_lift reads_u32)

theorem frugal_readBiguint : Frugal d readBiguint := Affords.map (frugal_lift reads_bytes)

theorem frugal_readTime : Frugal d readTime :=
  Affords.bind (frugal_lift reads_u64) fun _ => Affords.bind (Affords.get _ _) fun _ =>
    Affords.get _ _

theorem frugal_rawItem : Frugal d rawItem := by
  refine Affords.ofReads (fun b e he => ?_) reads_rawItem
  cases he

theorem frugal_macBytes : Frugal d macBytes :=
  Affords.bind (frugal_lift reads_bytes) fun _ => Affords.get _ _

variable [OidCrate]

theorem frugal_decodeOid : Frugal d decodeOid :=
  Affords.bind (frugal_lift reads_bytes) fun _ => Affords.get _ _

theorem IntOrOid.frugal : Frugal d IntOrOid.decode := by
  refine frugal_peek fun t => ?_
  split
  · exact Affords.map frugal_decodeOid
  · exact Affords.map (frugal_lift reads_i32)

theorem AlgorithmIdentifier.frugal : Frugal d AlgorithmIdentifier.decode := by
  have harray : Frugal d AlgorithmIdentifier.decodeWithParameters :=
    Affords.bind frugal_definiteArrayLen fun _ => Affords.bind (Affords.ensure _ _) fun _ =>
      Affords.bind frugal_decodeOid fun _ => Affords.map (frugal_lift reads_bytes)
  refine frugal_peek fun t => ?_
  split
  · exact harray
  · exact harray
  · exact Affords.map frugal_decodeOid
  · exact Affords.map (frugal_lift reads_i32)

/-! ### Names -/

omit [OidCrate] in
theorem SpecialText.frugal : Frugal d SpecialText.decode := by
  refine frugal_peek fun t => ?_
  split
  · exact Affords.map (frugal_lift reads_str)
  · exact Affords.map (frugal_lift reads_bytes)
  · exact Affords.bind frugal_tag fun _ => Affords.bind (Affords.ensure _ _) fun _ =>
      Affords.map frugal_macBytes
  · exact Affords.fail _

theorem RdnAttr.frugal {S B : Type} [RdnValue S] [RdnValue B]
    (hS : Frugal d (RdnValue.decode : Dec S)) (hB : Frugal d (RdnValue.decode : Dec B)) :
    Frugal d (RdnAttr.decode : Dec (RdnAttr S B)) := by
  refine frugal_peek fun t => ?_
  split
  · exact Affords.bind frugal_decodeOid fun _ => Affords.map hB
  · exact Affords.bind (frugal_lift reads_i32) fun _ => Affords.bind (Affords.get _ _) fun _ =>
      Affords.map hS

variable [LawfulOid]

theorem Name.frugal : Frugal 1 Name.decode := by
  have hvalue : Frugal 0 (RdnAttr.decode : Dec RdnAttribute) :=
    RdnAttr.frugal SpecialText.frugal (frugal_lift reads_bytes)
  have harray : Frugal 1 Name.decodeAttributes :=
    Affords.map (frugal_decodeGroups (reservesFor_withCapacity _) hvalue RdnAttr.reads
      (by decide))
  refine frugal_peek fun t => ?_
  split
  · exact harray
  · exact harray
  · exact Affords.map SpecialText.frugal

theorem Name.frugal_optional : Frugal 1 Name.decodeOptional := by
  refine frugal_peek fun t => ?_
  split
  · exact Affords.map (frugal_lift reads_null)
  · exact Affords.map Name.frugal

theorem GeneralNameValue.frugal (k : Option GeneralNameKind) :
    Frugal 1 (GeneralNameValue.decode k) := by
  have htyped : ∀ make, Frugal 1 (GeneralNameValue.decodeTyped make) := fun make =>
    frugal_expectArray (Affords.bind frugal_decodeOid fun _ =>
      Affords.map (frugal_lift reads_bytes))
  match k with
  | some .macAddress => exact Affords.map frugal_macBytes
  | some .smtpUtf8Mailbox | some .rfc822Name | some .dnsName | some .uri =>
      exact Affords.map (frugal_lift reads_str)
  | some .ipAddress => exact Affords.map (frugal_lift reads_bytes)
  | some .hardwareModuleName | some .otherName => exact htyped _
  | some .directoryName => exact Affords.map Name.frugal
  | some .registeredId => exact Affords.map frugal_decodeOid
  | some .raw | none => exact Affords.map frugal_rawItem

theorem frugal_generalNames : Frugal 2 decodeGeneralNames :=
  frugal_decodeGroups (reservesFor_withCapacity _)
    (Affords.bind (frugal_lift reads_i32) fun _ => Affords.map (GeneralNameValue.frugal _))
    GeneralName.reads (by decide)

theorem frugal_altName : Frugal 2 decodeAltName := by
  refine frugal_peek fun t => ?_
  split
  · exact Affords.map (frugal_lift reads_str)
  · exact frugal_generalNames

/-! ### Extension values -/

theorem AuthorityKeyIdentifier.frugal : Frugal 2 AuthorityKeyIdentifier.decode := by
  refine frugal_peek fun t => ?_
  split
  · exact Affords.map (frugal_lift reads_bytes)
  · exact frugal_expectArray (Affords.bind (frugal_lift reads_bytes) fun _ =>
      Affords.bind frugal_generalNames fun _ => Affords.map frugal_readBiguint)

theorem NameConstraints.frugal : Frugal 2 NameConstraints.decode := by
  have hsubtree : Frugal 2 NameConstraints.decodeOptGeneralSubtree := by
    refine frugal_peek fun t => ?_
    split
    · exact Affords.map (frugal_lift reads_null)
    · exact Affords.map frugal_generalNames
  exact frugal_expectArray (Affords.bind hsubtree fun _ => Affords.map hsubtree)

omit [OidCrate] [LawfulOid] in
theorem BasicConstraints.frugal : Frugal d BasicConstraints.decode := by
  refine Affords.bind (frugal_lift reads_i32) fun v => ?_
  split
  · exact Affords.pure _
  split
  · exact Affords.pure _
  split
  · exact Affords.pure _
  · exact Affords.fail _

/-- A vector `minicbor` reads itself reserves nothing. -/
theorem ExtKeyUsage.frugal : Frugal d ExtKeyUsage.decode := by
  have hvec : Frugal d (Decoder.vec IntOrOid.minicborDecode) :=
    frugal_lift (reads_vec ExtKeyUsage.reads_minicborDecode)
  refine frugal_peek fun t => ?_
  split
  · exact Affords.map hvec
  · exact Affords.map hvec
  · exact Affords.map IntOrOid.frugal

theorem AccessDescription.frugal : Frugal 1 AccessDescription.decode :=
  frugal_decodeGroups (k := 2) (P := fun _ => True) (reservesFor_withCapacity _)
    (Affords.bind IntOrOid.frugal fun _ => Affords.map (frugal_lift reads_str))
    (Reads.bind IntOrOid.reads fun _ _ => Reads.map reads_str fun _ _ => trivial) (by decide)

theorem DistributionPointName.frugal : Frugal 2 DistributionPointName.decode := by
  have hfull : Frugal 1 DistributionPointName.decodeFullName := by
    refine frugal_peek fun t => ?_
    split
    · exact Affords.map (frugal_lift reads_str)
    · exact frugal_decodeArray (reservesFor_withCapacity _) (frugal_lift reads_str) reads_str
  have hone : Frugal 1 DistributionPointName.decodeOne :=
    frugal_expectArray (Affords.bind hfull fun _ => Affords.bind frugal_decodeOptUint fun _ =>
      Affords.map Name.frugal_optional)
  refine frugal_peek fun t => ?_
  split
  · exact Affords.map (frugal_lift reads_str)
  · exact frugal_decodeArray (reservesFor_withCapacity _) hone DistributionPointName.reads_one

theorem CertificatePolicies.frugal : Frugal 2 CertificatePolicies.decode := by
  have hqualifier : Reads Skipped 2 PolicyQualifierInfo.decode fun _ => True :=
    Reads.bind IntOrOid.reads fun _ _ => Reads.map reads_str fun _ _ => trivial
  have hqualifiers : Frugal 1 CertificatePolicies.decodePolicyQualifiers :=
    frugal_decodeGroups (reservesFor_withCapacity _)
      (Affords.bind IntOrOid.frugal fun _ => Affords.map (frugal_lift reads_str)) hqualifier
      (by decide)
  have hone : Frugal 1 CertificatePolicies.decodeOne :=
    Affords.bind IntOrOid.frugal fun _ => Affords.map hqualifiers
  exact Affords.map (frugal_decodeGroups (reservesFor_withCapacity _) hone
    CertificatePolicies.reads_one (by decide))

omit [OidCrate] [LawfulOid] in
theorem PolicyConstraints.frugal : Frugal d PolicyConstraints.decode :=
  frugal_expectArray (Affords.bind frugal_decodeOptUint fun _ => Affords.map frugal_decodeOptUint)

theorem PolicyMappings.frugal : Frugal 1 PolicyMappings.decode :=
  Affords.map (frugal_decodeGroups (k := 2) (P := fun _ => True) (reservesFor_withCapacity _)
    (Affords.bind IntOrOid.frugal fun _ => Affords.map IntOrOid.frugal)
    (Reads.bind IntOrOid.reads fun _ _ => Reads.map IntOrOid.reads fun _ _ => trivial)
    (by decide))

theorem SubjectDirectoryAttributes.frugal : Frugal 2 SubjectDirectoryAttributes.decode := by
  have htexts : Frugal 1 (RdnValue.decode : Dec (List SpecialText)) :=
    frugal_decodeArray (reservesFor_withBoundedCapacity _) SpecialText.frugal SpecialText.reads
  have hbytes : Frugal 1 (RdnValue.decode : Dec (List Bytes)) :=
    frugal_decodeArray (reservesFor_withBoundedCapacity _) (frugal_lift reads_bytes) reads_bytes
  exact Affords.map (frugal_decodeGroups (reservesFor_withCapacity _)
    (RdnAttr.frugal htexts hbytes) RdnAttr.reads (by decide))

/-! ### Addresses and AS identifiers -/

section Addresses

omit [OidCrate] [LawfulOid]

theorem frugal_singleOrRange {msg : String} {single range : Dec α} (hsingle : Frugal d single)
    (hrange : Frugal d range) : Frugal d (decodeSingleOrRange msg single range) := by
  have harray : Frugal d (do
      let n ← definiteArrayLen
      ensure (n = 2) msg
      range) :=
    Affords.bind frugal_definiteArrayLen fun _ => Affords.bind (Affords.ensure _ _) fun _ => hrange
  refine frugal_peek fun t => ?_
  split
  · exact harray
  · exact harray
  · exact hsingle

theorem frugal_decodeEntry (afi : UInt16) (isIntForm : Bool) (c : Chain) :
    Frugal d (decodeEntry afi isIntForm c) := by
  have hbound : ∀ fill, Frugal d (decodeBound afi fill) := fun fill =>
    Affords.bind (frugal_lift reads_bytes) fun _ => Affords.bind (frugal_result _) fun _ =>
      Affords.bind (Affords.ensure _ _) fun _ => frugal_result _
  unfold decodeEntry
  split
  · refine frugal_singleOrRange ?_ ?_
    · exact Affords.bind (frugal_lift reads_int) fun _ => Affords.bind (frugal_result _) fun _ =>
        Affords.map (frugal_result _)
    · exact Affords.bind (frugal_lift reads_int) fun _ =>
        Affords.bind (frugal_lift reads_int) fun _ => Affords.bind (frugal_result _) fun _ =>
          Affords.bind (frugal_result _) fun _ => Affords.bind (frugal_result _) fun _ =>
            Affords.map (frugal_result _)
  · refine frugal_singleOrRange ?_ ?_
    · exact Affords.bind (frugal_lift reads_bytes) fun _ => Affords.bind (frugal_result _) fun _ =>
        Affords.map (frugal_result _)
    · exact Affords.bind (hbound 0x00) fun _ => Affords.map (hbound 0xFF)

omit [LawfulMinicbor] in
theorem quiet_peekForm : Logs peekForm fun _ => False := by
  have hrange : Logs peekRangeForm fun _ => False :=
    Logs.bind (Logs.bind (quiet_lift _) fun _ => Logs.get _ _) fun _ =>
      Logs.bind (quiet_lift _) fun _ => Logs.pure _
  refine Logs.bind (quiet_lift _) fun t => ?_
  split
  · exact hrange
  · exact hrange
  · exact Logs.pure _

theorem frugal_decodeEntries (afi : UInt16) : Frugal 1 (decodeEntries afi) := by
  refine Affords.bind frugal_definiteArrayLen fun n => ?_
  split
  · exact Affords.pure _
  · refine Affords.bind (Affords.probe quiet_peekForm) fun form => ?_
    exact frugal_reserve (reservesFor_withBoundedCapacity _ _)
      (Affords.map (Affords.iterate (frugal_decodeEntry afi form) _ _))
      (Reads.map (Q := fun _ => True) (Reads.iterate (reads_decodeEntry afi form) _ _)
        fun _ _ => trivial) (Nat.mul_one _).ge

theorem frugal_ipAddressFamilies : Frugal 2 decodeIpAddressFamilies := by
  have hsafi : Frugal 1 decodeSafi := by
    refine frugal_peek fun t => ?_
    split
    · exact Affords.map (frugal_lift reads_null)
    · exact Affords.map (frugal_lift reads_u16)
  have hchoice : ∀ afi, Frugal 1 (decodeIpAddressChoice afi) := by
    intro afi
    refine frugal_peek fun t => ?_
    split
    · exact Affords.map (frugal_lift reads_null)
    · exact frugal_decodeEntries afi
  have hfamily : Frugal 1 decodeFamily :=
    Affords.bind (frugal_lift reads_u16) fun afi => Affords.bind hsafi fun _ =>
      Affords.map (hchoice afi)
  exact frugal_decodeGroups (reservesFor_withBoundedCapacity _) hfamily reads_decodeFamily
    (by decide)

theorem frugal_asIdentifiers : Frugal 1 decodeAsIdentifiers := by
  have hentry : ∀ c, Frugal 0 (decodeAsEntry c) := by
    intro c
    refine frugal_singleOrRange ?_ ?_
    · exact Affords.bind (frugal_lift reads_int) fun _ => Affords.map (Affords.get _ _)
    · exact Affords.bind (frugal_lift reads_int) fun _ =>
        Affords.bind (frugal_lift reads_int) fun _ => Affords.bind (Affords.get _ _) fun _ =>
          Affords.map (Affords.get _ _)
  refine frugal_peek fun t => ?_
  split
  · exact Affords.map (frugal_lift reads_null)
  · refine Affords.bind frugal_definiteArrayLen fun n => ?_
    exact frugal_reserve (reservesFor_withBoundedCapacity _ _)
      (Affords.map (Affords.iterate hentry _ _))
      (Reads.map (Q := fun _ => True) (Reads.iterate (P := fun _ => True) reads_decodeAsEntry _ _)
        fun _ _ => trivial) (Nat.mul_one _).ge

end Addresses

/-! ### Certificates -/

theorem ExtensionValue.frugal (id : UInt32) : Frugal 2 (ExtensionValue.decode id) := by
  unfold ExtensionValue.decode
  split
  · exact Affords.map (frugal_lift reads_bytes)
  · exact Affords.map (frugal_lift reads_u32)
  · exact Affords.map frugal_altName
  · exact Affords.map BasicConstraints.frugal
  · exact Affords.map DistributionPointName.frugal
  · exact Affords.map CertificatePolicies.frugal
  · exact Affords.map AuthorityKeyIdentifier.frugal
  · exact Affords.map ExtKeyUsage.frugal
  · exact Affords.map (AccessDescription.frugal.weaken (by decide))
  · exact Affords.map SubjectDirectoryAttributes.frugal
  · exact Affords.map frugal_altName
  · exact Affords.map NameConstraints.frugal
  · exact Affords.map (PolicyMappings.frugal.weaken (by decide))
  · exact Affords.map PolicyConstraints.frugal
  · exact Affords.map DistributionPointName.frugal
  · exact Affords.map (frugal_lift reads_u32)
  · exact Affords.map (AccessDescription.frugal.weaken (by decide))
  · exact Affords.map frugal_ipAddressFamilies
  · exact Affords.map (frugal_asIdentifiers.weaken (by decide))
  · exact Affords.map frugal_ipAddressFamilies
  · exact Affords.map (frugal_asIdentifiers.weaken (by decide))
  · exact Affords.map (frugal_lift reads_null)
  · exact Affords.map (frugal_lift (reads_vec reads_u32))
  · exact Affords.map frugal_rawItem

theorem Extension.frugal : Frugal 2 Extension.decode := by
  have hcritical : Frugal 2 Extension.decodeCriticalBytes :=
    frugal_expectArray (Affords.map (frugal_lift reads_bytes))
  have hvalue : Frugal 2 Extension.decodeOidValue := by
    refine frugal_peek fun t => ?_
    split
    · exact hcritical
    · exact hcritical
    · exact Affords.map (frugal_lift reads_bytes)
  refine frugal_peek fun t => ?_
  split
  · exact Affords.bind frugal_decodeOid fun _ => Affords.map hvalue
  · exact Affords.bind (Affords.map (frugal_lift reads_i32)) fun x =>
      Affords.map (ExtensionValue.frugal x.1)

theorem Extensions.frugal : Frugal 3 Extensions.decode := by
  have hlist : Frugal 3 Extensions.decodeList :=
    Affords.map (frugal_decodeGroups (reservesFor_withCapacity _) Extension.frugal
      Extension.reads (by decide))
  refine frugal_peek fun t => ?_
  split
  · exact hlist
  · exact hlist
  · exact Affords.map (Affords.map (frugal_lift reads_i32))

namespace C509Certificate

theorem frugal_decodeFields : Frugal 3 decodeFields := by
  have hafter : Frugal 3 decodeNotAfter := by
    refine frugal_peek fun t => ?_
    split
    · exact Affords.map (frugal_lift reads_null)
    · exact Affords.map frugal_readTime
  exact
    Affords.bind (frugal_lift reads_i32) fun _ =>
    Affords.bind frugal_readBiguint fun _ =>
    Affords.bind AlgorithmIdentifier.frugal fun _ =>
    Affords.bind (Name.frugal_optional.weaken (by decide)) fun _ =>
    Affords.bind frugal_readTime fun _ =>
    Affords.bind hafter fun _ =>
    Affords.bind (Name.frugal.weaken (by decide)) fun _ =>
    Affords.bind AlgorithmIdentifier.frugal fun _ =>
    Affords.bind (frugal_lift reads_bytes) fun _ =>
    Affords.bind Extensions.frugal fun _ =>
    Affords.map (frugal_lift reads_bytes)

theorem frugal_decodeItem : Frugal 3 decodeItem :=
  Affords.bind frugal_array fun _ => Affords.bind (Affords.get _ _) fun _ =>
    Affords.bind (Affords.ensure _ _) fun _ => frugal_decodeFields.mapError

end C509Certificate

/-! ### Whole runs -/

/-- What a run of `m` on `b` reserves, all in all. -/
structure ReservesWithin (k : Nat) (m : Dec α) (b : Bytes) : Prop where
  /-- the requests the input covers come to at most `k` elements for each byte -/
  covered : (((m.log b).filter fun e => decide e.Bounded).map Reserve.requested).sum ≤
    k * b.length
  /-- at most `k` requests are for more elements than there are bytes left -/
  uncovered : ((m.log b).filter fun e => decide ¬ e.Bounded).length ≤ k
  /-- and none is where the input is accepted -/
  accepted : ∀ v, m.run b = .ok v → ∀ e ∈ m.log b, e.Bounded

omit [LawfulMinicbor] [OidCrate] [LawfulOid] in
theorem reservesWithin_of_frugal (hm : Frugal d m) (hlog : Logs m Reserve.Computed) (b : Bytes) :
    ReservesWithin d m b := by
  refine ⟨?_, ?_, fun v hv e he => ?_⟩
  · have hle : ∀ l : List Reserve, (∀ e ∈ l, e.Computed) →
        ((l.filter fun e => decide e.Bounded).map Reserve.requested).sum ≤
          total Reserve.capped l := by
      intro l
      induction l with
      | nil => intro _; exact Nat.le_refl _
      | cons e l ih =>
          intro h
          obtain ⟨he, hl⟩ := List.forall_mem_cons.mp h
          have hrest := ih hl
          have hcons : total Reserve.capped (e :: l) = e.capped + total Reserve.capped l := rfl
          by_cases hb : e.Bounded
          · have hcost := Reserve.requested_le_capped he hb
            rw [List.filter_cons_of_pos (by simpa using hb), List.map_cons, List.sum_cons, hcons]
            omega
          · rw [List.filter_cons_of_neg (by simpa using hb), hcons]
            omega
    have hpays := hm.pays b
    exact (hle _ (hlog b)).trans (by omega)
  · rw [← List.countP_eq_length_filter]
    refine (List.countP_mono_left fun e he hunbounded => ?_).trans (hm.faults b)
    by_contra hover
    exact (of_decide_eq_true hunbounded)
      (Reserve.bounded_of_not_overdrawn (hlog b e he) (by simpa using hover))
  · have hclean := List.countP_eq_zero.mp (hm.clean b v hv) e he
    exact Reserve.bounded_of_not_overdrawn (hlog b e he) (by simpa using hclean)

namespace C509Certificate

/--
**The input bounds what is reserved.**  On every input, each byte pays for three elements,
at most three requests ask for more than the input that is left, and none does where the
certificate is accepted.
-/
theorem decode_reservesWithin (b : Bytes) :
    ReservesWithin 3 decodeItem b ∧ ReservesWithin 3 decodeFields b :=
  ⟨reservesWithin_of_frugal frugal_decodeItem logs_decodeItem b,
    reservesWithin_of_frugal frugal_decodeFields logs_decodeFields b⟩

omit [LawfulMinicbor] [OidCrate] [LawfulOid] in
/-- What is reserved on an accepted input, in bytes. -/
theorem memory_of_reservesWithin {k : Nat} {m : Dec α} {b : Bytes} (hm : ReservesWithin k m b)
    {size : Site → Nat} {s : Nat} (hs : ∀ site, size site ≤ s) {v : α × Bytes}
    (hv : m.run b = .ok v) :
    ((m.log b).map fun e => e.requested * size e.site).sum ≤ k * b.length * s := by
  have hall : (m.log b).filter (fun e => decide e.Bounded) = m.log b :=
    List.filter_eq_self.mpr fun e he => decide_eq_true (hm.accepted v hv e he)
  have hcovered := hm.covered
  rw [hall] at hcovered
  calc ((m.log b).map fun e => e.requested * size e.site).sum
      ≤ ((m.log b).map fun e => e.requested * s).sum :=
        List.sum_le_sum fun e _ => Nat.mul_le_mul_left _ (hs e.site)
    _ = ((m.log b).map Reserve.requested).sum * s := List.sum_map_mul_right _ _ _
    _ ≤ k * b.length * s := Nat.mul_le_mul_right s hcovered

omit [LawfulMinicbor] [OidCrate] [LawfulOid] in
theorem decodeOrPanic_of_reservesWithin {k : Nat} {m : Dec α} {b : Bytes}
    (hm : ReservesWithin k m b) {size : Site → Nat} {s : Nat} (hs : ∀ site, size site ≤ s)
    (hfits : k * b.length * s ≤ ISIZE_MAX) {v : α × Bytes} (hv : m.run b = .ok v) :
    decodeOrPanic size m b = .returned (.ok v) := by
  have hevery : ∀ e ∈ m.log b, e.Fits size := by
    intro e he
    have hsum : e.requested * size e.site ≤
        ((m.log b).map fun e => e.requested * size e.site).sum :=
      List.single_le_sum (fun _ _ => Nat.zero_le _) _ (List.mem_map_of_mem he)
    exact (hsum.trans (memory_of_reservesWithin hm hs hv)).trans hfits
  rw [decodeOrPanic, if_pos hevery, hv]

/--
**An accepted certificate never panics the decoder**, and all its reservations together are
bounded by the size of the input, as long as the input is one an allocation of three times
its elements can be made for.
-/
theorem decode_accepted_memory {size : Site → Nat} {s : Nat} (hs : ∀ site, size site ≤ s)
    {b : Bytes} (hfits : 3 * b.length * s ≤ ISIZE_MAX) :
    (∀ v, decodeItem.run b = .ok v → decodeOrPanic size decodeItem b = .returned (.ok v) ∧
      ((decodeItem.log b).map fun e => e.requested * size e.site).sum ≤ 3 * b.length * s) ∧
    ∀ v, decodeFields.run b = .ok v → decodeOrPanic size decodeFields b = .returned (.ok v) ∧
      ((decodeFields.log b).map fun e => e.requested * size e.site).sum ≤ 3 * b.length * s := by
  obtain ⟨hitem, hfields⟩ :=
    And.intro (reservesWithin_of_frugal frugal_decodeItem logs_decodeItem b)
      (reservesWithin_of_frugal frugal_decodeFields logs_decodeFields b)
  constructor
  · intro v hv
    exact ⟨decodeOrPanic_of_reservesWithin hitem hs hfits hv, memory_of_reservesWithin hitem hs hv⟩
  · intro v hv
    exact ⟨decodeOrPanic_of_reservesWithin hfields hs hfits hv,
      memory_of_reservesWithin hfields hs hv⟩

end C509Certificate

end

open scoped Reference in
theorem C509Certificate.sample_accepted_memory :
    decodeOrPanic (fun _ => 24) decodeFields sampleBytes = .returned (.ok (sample, [])) ∧
      ((decodeFields.log sampleBytes).map fun e => e.requested * 24).sum ≤
        3 * sampleBytes.length * 24 :=
  (decode_accepted_memory (s := 24) (fun _ => Nat.le_refl 24) (b := sampleBytes)
    (by decide)).2 (sample, []) rfl

/-- Three headers on the way to the end of the input: of extensions, of the names of one, and
of the attributes of the first name. -/
def nestedHeaders : Bytes :=
  [0x03, 0x41, 0x05, 0x00, 0xf6, 0x00, 0xf6, 0x61, 0x78, 0x01, 0x40,
    0x98, 0xfe, 0x03, 0x98, 0xfe, 0x04, 0x98, 0xfe]

open scoped Reference in
theorem C509Certificate.decode_reservesWithin_nested :
    ReservesWithin 3 decodeItem nestedHeaders ∧ ReservesWithin 3 decodeFields nestedHeaders :=
  decode_reservesWithin nestedHeaders

open scoped Reference in
/-- All three requests are for more than is left. -/
example : C509Certificate.decodeFields.log nestedHeaders =
    [⟨.extensions, 127, 6, 127⟩, ⟨.generalNames, 127, 3, 127⟩, ⟨.name, 127, 0, 127⟩] := rfl

end C509
