/-
Which certificates can be written.

The encoders panic where a field cannot be written, and the types of the fields allow for
more than the wire does.  This is settled here for every value of the types, whatever it was
made by: a time must be a second from 1970 on that a `u64` holds, a path length and a
keyUsage alone must fit an `i32`, `i32::MIN` has no critical form, an authority key comes
with both issuer and serial number or neither, and a value under an OID is raw.
-/
import C509Cert.Certificate
import C509Cert.Codec.Total
import C509Cert.Extensions.AddressStability

namespace C509

open Cbor Codec

/-! ### What can be written -/

def BasicConstraints.Writable : BasicConstraints → Prop
  | .ca (some n) => n.toNat < 2 ^ 31
  | _ => True

def ExtensionValue.Writable : ExtensionValue → Prop
  | basicConstraints bc => bc.Writable
  | authorityKeyIdentifier v => v.certIssuer.isSome = v.certSerial.isSome
  | _ => True

def Extension.Writable (e : Extension) : Prop :=
  match e.id with
  | .int id => (e.critical = true → id ≠ Int32.minValue) ∧ e.value.Writable
  | .oid _ => ∃ b, e.value = .raw b

/-- A keyUsage alone is written as a number of its own. -/
def Extensions.Writable (v : Extensions) : Prop :=
  (∀ e ∈ v.exts, e.Writable) ∧ ∀ critical n, v.bareKeyUsage = some (critical, n) → n.toNat < 2 ^ 31

def OffsetDateTime.Writable (t : OffsetDateTime) : Prop :=
  0 ≤ t.unixTimestamp ∧ t.unixTimestamp < 2 ^ 64

structure C509Certificate.Writable (c : C509Certificate) : Prop where
  notBefore : c.tbs.validityNotBefore.Writable
  notAfter : ∀ t ∈ c.tbs.validityNotAfter, t.Writable
  extensions : c.tbs.extensions.Writable

section

open Printer

variable [Minicbor] {α : Type}

/-! ### The encoders that never fail -/

theorem total_groups {k : UInt64} {l : List α} {enc : α → Enc} :
    Total (encodeGroups k l enc) ↔ ∀ x ∈ l, Total (enc x) := by
  simp [encodeGroups, Encoder.array]

theorem total_optUint (v : Option UInt32) : Total (encodeOptUint v) := by
  cases v <;> exact total_put _

theorem total_asIdentifiers (ids : Option (List AsIdOrRange)) :
    Total (encodeAsIdentifiers ids) := by
  have hstep : ∀ c : Chain, c.InRange → ∀ e : AsIdOrRange,
      ∃ c' o, (encodeAsEntry c e).run = .ok (c', o) ∧ c'.InRange := by
    intro c hc e
    have hnat : ∀ n : UInt64, (0 : Int) ≤ n.toNat ∧ (n.toNat : Int) < 2 ^ 64 := fun n => by
      have hn := n.toNat_lt
      omega
    cases e with
    | id n =>
        obtain ⟨⟨⟩, o, ho⟩ := total_encodeDelta hc (hnat n).1 (hnat n).2
        exact ⟨_, _, run_bind_of_ok ho (run_pure _), Chain.inRange_after (hnat n).1 (hnat n).2⟩
    | range min max =>
        obtain ⟨⟨⟩, o, ho⟩ := total_encodeDelta hc (hnat min).1 (hnat min).2
        obtain ⟨⟨⟩, o', ho'⟩ := total_encodeDelta
          (Chain.inRange_after (hnat min).1 (hnat min).2) (hnat max).1 (hnat max).2
        exact ⟨_, _, run_bind_of_ok (run_put _) (run_bind_of_ok ho
          (run_bind_of_ok ho' (run_pure _))), Chain.inRange_after (hnat max).1 (hnat max).2⟩
  cases ids with
  | none => exact total_put _
  | some l =>
      refine Total.bind (total_put _) fun _ => ?_
      exact Total.iterate (I := Chain.InRange) (fun c hc e _ => hstep c hc e) _ Chain.inRange_start

variable [OidCrate]

theorem IntOrOid.total (v : IntOrOid) : Total v.encode := by
  cases v <;> exact total_put _

theorem AlgorithmIdentifier.total (a : AlgorithmIdentifier) : Total a.encode := by
  match a with
  | .int n => exact total_put _
  | .oid algorithm none => exact total_put _
  | .oid algorithm (some params) => simp [encode, Encoder.array, Encoder.bytes]

omit [OidCrate] in
theorem SpecialText.total (v : SpecialText) : Total v.encode := by
  cases v <;> simp [encode, Encoder.str, Encoder.bytes, Encoder.tag]

theorem RdnAttr.total {S B : Type} [RdnValue S] [RdnValue B]
    (hS : ∀ v : S, Total (RdnValue.encode v)) (hB : ∀ v : B, Total (RdnValue.encode v))
    (a : RdnAttr S B) : Total a.encode := by
  cases a with
  | registered id printableString value => exact Total.bind (total_put _) fun _ => hS value
  | oid o value => exact Total.bind (total_put _) fun _ => hB value

theorem Name.total (name : Name) : Total name.encode := by
  unfold encode
  split
  · exact SpecialText.total _
  · exact total_groups.mpr fun a _ => RdnAttr.total SpecialText.total (fun _ => total_put _) a

theorem Name.total_optional (name : Option Name) : Total (encodeOptional name) := by
  cases name with
  | none => exact total_put _
  | some n => exact n.total

theorem total_generalNames (names : List GeneralName) : Total (encodeGeneralNames names) := by
  refine total_groups.mpr fun g _ => Total.bind (total_put _) fun _ => ?_
  cases g.value with
  | otherName oid value =>
      exact Total.bind (total_put _) fun _ => Total.bind (total_put _) fun _ => total_put _
  | hardwareModuleName oid value =>
      exact Total.bind (total_put _) fun _ => Total.bind (total_put _) fun _ => total_put _
  | directoryName name => exact name.total
  | _ => exact total_put _

theorem total_altName (names : List GeneralName) : Total (encodeAltName names) := by
  unfold encodeAltName
  split
  · exact total_put _
  · exact total_generalNames names

theorem DistributionPointName.total (points : List DistributionPointName) :
    Total (encode points) := by
  have hfull : ∀ names, Total (encodeFullName names) := by
    intro names
    unfold encodeFullName
    split
    · exact total_put _
    · exact Total.bind (total_put _) fun _ => Total.forM fun _ _ => total_put _
  unfold encode
  split
  · exact total_put _
  · exact Total.bind (total_put _) fun _ => Total.forM fun dp _ =>
      Total.bind (total_put _) fun _ => Total.bind (hfull _) fun _ =>
        Total.bind (total_optUint _) fun _ => Name.total_optional _

theorem CertificatePolicies.total (v : CertificatePolicies) : Total v.encode :=
  total_groups.mpr fun _ _ => Total.bind (IntOrOid.total _) fun _ =>
    total_groups.mpr fun _ _ => Total.bind (IntOrOid.total _) fun _ => total_put _

theorem ExtKeyUsage.total (v : ExtKeyUsage) : Total v.encode := by
  unfold encode
  split
  · exact IntOrOid.total _
  · exact Total.bind (total_put _) fun _ => Total.forM fun p _ => p.total

theorem AccessDescription.total (v : List AccessDescription) : Total (encode v) :=
  total_groups.mpr fun _ _ => Total.bind (IntOrOid.total _) fun _ => total_put _

theorem SubjectDirectoryAttributes.total (v : SubjectDirectoryAttributes) : Total v.encode := by
  have hlist : ∀ {β : Type} [RdnValue β], (∀ x : β, Total (RdnValue.encode x)) →
      ∀ l : List β, Total (RdnValue.encode l) := fun hx l =>
    Total.bind (total_put _) fun _ => Total.forM fun x _ => hx x
  exact total_groups.mpr fun a _ =>
    RdnAttr.total (hlist SpecialText.total) (hlist fun _ => total_put _) a

theorem NameConstraints.total (v : NameConstraints) : Total v.encode := by
  have hsubtree : ∀ t, Total (encodeOptGeneralSubtree t) := by
    intro t
    cases t with
    | none => exact total_put _
    | some names => exact total_generalNames names
  exact Total.bind (total_put _) fun _ => Total.bind (hsubtree _) fun _ => hsubtree _

/-! ### The encoders that may fail -/

omit [OidCrate] in
theorem BasicConstraints.total_iff {v : BasicConstraints} : Total v.encode ↔ v.Writable := by
  match v with
  | .notCa => exact iff_of_true (total_put _) trivial
  | .ca none => exact iff_of_true (total_put _) trivial
  | .ca (some n) =>
      by_cases hn : n.toNat < 2 ^ 31
      · refine iff_of_true ?_ hn
        simp only [encode, i32TryFrom, if_pos hn]
        exact total_put _
      · refine iff_of_false ?_ hn
        simp only [encode, i32TryFrom, if_neg hn]
        exact total_fail _

theorem AuthorityKeyIdentifier.total_iff {v : AuthorityKeyIdentifier} :
    Total v.encode ↔ v.certIssuer.isSome = v.certSerial.isSome := by
  obtain ⟨key, issuer, serial⟩ := v
  match issuer, serial with
  | none, none => exact iff_of_true (total_put _) rfl
  | some issuer, some serial =>
      refine iff_of_true ?_ rfl
      exact Total.bind (total_put _) fun _ => Total.bind (total_put _) fun _ =>
        Total.bind (total_generalNames _) fun _ => total_put _
  | none, some _ => exact iff_of_false (total_fail _) (by simp)
  | some _, none => exact iff_of_false (total_fail _) (by simp)

theorem ExtensionValue.total_iff {v : ExtensionValue} : Total v.encode ↔ v.Writable := by
  cases v with
  | basicConstraints bc => exact BasicConstraints.total_iff
  | authorityKeyIdentifier v => exact AuthorityKeyIdentifier.total_iff
  | subjectAltName names => exact iff_of_true (total_altName names) trivial
  | issuerAltName names => exact iff_of_true (total_altName names) trivial
  | crlDistributionPoints dp => exact iff_of_true (DistributionPointName.total dp) trivial
  | freshestCrl dp => exact iff_of_true (DistributionPointName.total dp) trivial
  | certificatePolicies v => exact iff_of_true v.total trivial
  | extKeyUsage v => exact iff_of_true v.total trivial
  | authorityInfoAccess v => exact iff_of_true (AccessDescription.total v) trivial
  | subjectInfoAccess v => exact iff_of_true (AccessDescription.total v) trivial
  | subjectDirectoryAttributes v => exact iff_of_true v.total trivial
  | nameConstraints v => exact iff_of_true v.total trivial
  | policyMappings v =>
      refine iff_of_true (total_groups.mpr fun p _ => ?_) trivial
      exact Total.bind (IntOrOid.total _) fun _ => IntOrOid.total _
  | policyConstraints v =>
      refine iff_of_true (Total.bind (total_put _) fun _ => ?_) trivial
      exact Total.bind (total_optUint _) fun _ => total_optUint _
  | ipAddrBlocks v => exact iff_of_true (total_ipAddressFamilies v) trivial
  | ipAddrBlocksV2 v => exact iff_of_true (total_ipAddressFamilies v) trivial
  | asIdentifiers v => exact iff_of_true (total_asIdentifiers v) trivial
  | asIdentifiersV2 v => exact iff_of_true (total_asIdentifiers v) trivial
  | _ => exact iff_of_true (total_put _) trivial

omit [OidCrate] in
theorem total_criticalI32 {value : Int32} {critical : Bool} :
    Total (encodeCriticalI32 value critical) ↔ (critical = true → value ≠ Int32.minValue) := by
  cases critical with
  | false =>
      refine iff_of_true ?_ (fun h => (by cases h))
      exact Total.bind (total_pure _) fun _ => total_put _
  | true =>
      by_cases hmin : value = Int32.minValue
      · subst hmin
        refine iff_of_false ?_ (fun h => h rfl rfl)
        rintro ⟨⟨⟩, o, ho⟩
        exact encodeCriticalI32_minValue o ho
      · refine iff_of_true ?_ fun _ => hmin
        simp only [encodeCriticalI32, if_true, checkedNeg, if_neg hmin]
        exact Total.bind (total_get.mpr rfl) fun _ => total_put _

theorem Extension.total_iff {e : Extension} : Total e.encode ↔ e.Writable := by
  obtain ⟨id, critical, value⟩ := e
  cases id with
  | int id => exact total_bind.trans (and_congr total_criticalI32 ExtensionValue.total_iff)
  | oid oid =>
      have hput : Total (Encoder.bytes (oidBytes oid)) := total_put _
      refine (total_bind.trans (and_iff_right hput)).trans ?_
      cases value with
      | raw b =>
          refine iff_of_true ?_ ⟨b, rfl⟩
          show Total (encodeOidValue critical (.raw b))
          simp only [encodeOidValue]
          split
          · exact Total.bind (total_put _) fun _ => total_put _
          · exact total_put _
      | _ =>
          refine iff_of_false (total_fail _) ?_
          rintro ⟨b, ⟨⟩⟩

theorem Extensions.total_iff {v : Extensions} : Total v.encode ↔ v.Writable := by
  unfold encode Writable
  cases hbare : v.bareKeyUsage with
  | none =>
      refine (total_groups.trans (forall₂_congr fun e _ => Extension.total_iff)).trans ?_
      exact ⟨fun h => ⟨h, fun _ _ h' => by cases h'⟩, And.left⟩
  | some x =>
      obtain ⟨critical, n⟩ := x
      have hwritable : ∀ e ∈ v.exts, e.Writable := by
        intro e he
        rw [bareKeyUsage_eq_some.mp hbare] at he
        rw [List.mem_singleton.mp he]
        exact ⟨fun _ => by decide, trivial⟩
      show Total (encodeKeyUsage critical n) ↔ _
      by_cases hn : n.toNat < 2 ^ 31
      · refine iff_of_true ?_ ⟨hwritable, ?_⟩
        · rw [encodeKeyUsage, i32TryFrom_eq hn]
          refine total_criticalI32.mpr fun _ hmin => ?_
          have hnonneg := toInt_toInt32 hn
          rw [hmin] at hnonneg
          have : Int32.minValue.toInt = -2 ^ 31 := rfl
          omega
        · rintro _ _ ⟨⟩
          exact hn
      · refine iff_of_false ?_ fun h => hn (h.2 critical n rfl)
        simp only [encodeKeyUsage, i32TryFrom, if_neg hn]
        exact total_fail _

omit [OidCrate] in
theorem total_time {t : OffsetDateTime} : Total (encodeTime t) ↔ t.Writable := by
  unfold encodeTime u64TryFrom
  by_cases ht : 0 ≤ t.unixTimestamp ∧ t.unixTimestamp < 2 ^ 64
  · rw [if_pos ht]
    exact iff_of_true (total_put _) ht
  · rw [if_neg ht]
    exact iff_of_false (total_fail _) ht

namespace C509Certificate

theorem total_iff {c : C509Certificate} : Total c.encodeFields ↔ c.Writable := by
  have hafter : Total (encodeNotAfter c.tbs.validityNotAfter) ↔
      ∀ t ∈ c.tbs.validityNotAfter, t.Writable := by
    cases c.tbs.validityNotAfter with
    | none => exact iff_of_true (total_put _) (fun _ h => by cases h)
    | some t =>
        refine total_time.trans ⟨?_, fun h => h t rfl⟩
        rintro ht _ ⟨⟩
        exact ht
  have hput : ∀ o, Total (Printer.put o : Enc) := total_put
  unfold encodeFields
  simp only [total_bind, Encoder.i32, Encoder.bytes, hput, AlgorithmIdentifier.total, Name.total,
    Name.total_optional, total_time, hafter, Extensions.total_iff, true_and, and_true]
  constructor
  · rintro ⟨hbefore, hafter, hextensions⟩
    exact ⟨hbefore, hafter, hextensions⟩
  · intro h
    exact ⟨h.notBefore, h.notAfter, h.extensions⟩

/--
**Which certificates are written, of all there are.**  Both encoders return exactly on the
certificates described, and panic on all others.
-/
theorem encode_returns_iff {c : C509Certificate} :
    ((∃ o, c.encode = .returned o) ↔ c.Writable) ∧
      ((∃ o, c.encodeSequence = .returned o) ↔ c.Writable) := by
  have hreturned : ∀ {msg : String} {p : Enc},
      (∃ o, Outcome.expect msg p = .returned o) ↔ Total p := by
    intro msg p
    simp only [Outcome.expect_eq_returned]
    exact ⟨fun ⟨o, ho⟩ => ⟨(), o, ho⟩, fun ⟨⟨⟩, o, ho⟩ => ⟨o, ho⟩⟩
  have hitem : Total c.encodeItem ↔ Total c.encodeFields :=
    total_bind.trans (and_iff_right (total_put _))
  exact ⟨hreturned.trans (hitem.trans total_iff), hreturned.trans total_iff⟩

end C509Certificate

end

/-! ### Decoded certificates

Decoding ensures all of this but one thing: that no number is too large for its sign.
-/

section

variable [Minicbor] [OidCrate] [LawfulMinicbor] {D : Demands}

omit [OidCrate] in
theorem ExtensionValue.Valid.writable {v : ExtensionValue} (hv : v.Valid D) : v.Writable := by
  cases v with
  | basicConstraints bc =>
      match bc with
      | .notCa => trivial
      | .ca none => trivial
      | .ca (some n) => exact hv
  | authorityKeyIdentifier v => exact hv.2.1
  | _ => trivial

omit [OidCrate] in
theorem Extension.Valid.writable_iff {e : Extension} (he : e.Valid D) :
    e.Writable ↔ e.IdFits := by
  obtain ⟨id, critical, value⟩ := e
  cases id with
  | int id =>
      obtain ⟨hid, -, -, hvalue⟩ := he
      refine (and_iff_left hvalue.writable).trans ⟨fun h hmin => ?_, fun h _ hmin => ?_⟩
      · obtain rfl : id = Int32.minValue := IntOrOid.int.inj hmin
        obtain hnonneg | ⟨-, hcritical⟩ := hid
        · exact absurd hnonneg (by decide)
        · exact h hcritical rfl
      · exact h (congrArg IntOrOid.int hmin)
  | oid oid =>
      obtain ⟨-, b, hb, -⟩ := he
      exact iff_of_true ⟨b, hb⟩ (fun h => by cases h)

omit [OidCrate] in
theorem Extensions.Valid.writable_iff {v : Extensions} (hv : v.Valid D) :
    v.Writable ↔ v.Encodable :=
  and_congr_left' (forall₂_congr fun e he => (hv.2 e he).writable_iff)

omit [Minicbor] [OidCrate] [LawfulMinicbor] in
theorem OffsetDateTime.Valid.writable {t : OffsetDateTime} (ht : t.Valid) : t.Writable := by
  obtain ⟨secs, hlo, hhi, hnanos⟩ := ht
  unfold Writable
  rw [OffsetDateTime.unixTimestamp_eq hnanos]
  unfold maxTimestamp at hhi
  omega

omit [OidCrate] in
theorem C509Certificate.Valid.writable_iff {c : C509Certificate} (hc : c.Valid D) :
    c.Writable ↔ c.tbs.extensions.Encodable := by
  rw [← hc.extensions.writable_iff]
  exact ⟨fun h => h.extensions,
    fun h => ⟨hc.notBefore.writable, fun t ht => (hc.notAfter t ht).writable, h⟩⟩

end

end C509
