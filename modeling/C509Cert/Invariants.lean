/-
The data model of a decoded certificate.

The types carry fields that have to agree: an id and a variant, a kind and a variant, a
family and its addresses.  Nothing but the decoders keeps them in step.  `Valid` says so
type by type, as the encoders need it; here the same facts are stated about the whole
certificate, for every general name, attribute and address anywhere in it.

All of them hold of every decoded certificate but one.  What is kept raw is what `skip` steps
over, and it is a CBOR item only where the input is made of items.
-/
import C509Cert.RawItems

namespace C509

open Cbor Codec

/-! ### Everything of one kind in a certificate -/

namespace ExtensionValue

/-- The general names of a value. -/
def generalNames : ExtensionValue → List GeneralName
  | subjectAltName names | issuerAltName names => names
  | nameConstraints v => v.permitted.getD [] ++ v.excluded.getD []
  | authorityKeyIdentifier v => v.certIssuer.getD []
  | _ => []

/-- The names of a value: directory names, and the issuers of distribution points. -/
def names : ExtensionValue → List Name
  | crlDistributionPoints dp | freshestCrl dp => dp.filterMap DistributionPointName.crlIssuer
  | v => v.generalNames.filterMap fun g =>
      match g.value with
      | .directoryName name => some name
      | _ => none

/-- The address families of a value. -/
def families : ExtensionValue → List IpAddressFamily
  | ipAddrBlocks v | ipAddrBlocksV2 v => v
  | _ => []

end ExtensionValue

/-- The registered type of an attribute, and whether its value is a printable string. -/
def RdnAttr.registeredType {S B : Type} : RdnAttr S B → Option (UInt16 × Bool)
  | .registered id printableString _ => some (id, printableString)
  | .oid _ _ => none

/-- The registered attribute types of a value. -/
def ExtensionValue.attributeTypes : ExtensionValue → List (UInt16 × Bool)
  | subjectDirectoryAttributes v => v.attrs.filterMap RdnAttr.registeredType
  | v => v.names.flatMap fun name => name.attrs.filterMap RdnAttr.registeredType

def IpAddressFamily.entries (fam : IpAddressFamily) : List IpAddressOrRange :=
  match fam.choice with
  | .inherit => []
  | .prefixes entries => entries

/-- Addresses of `width` octets, and prefixes no longer than that. -/
def IpAddressOrRange.OfWidth (width : Nat) : IpAddressOrRange → Prop
  | .addressPrefix net => net.addr.octets.length = width ∧ net.prefixLen.toNat ≤ 8 * width
  | .range min max => min.octets.length = width ∧ max.octets.length = width

namespace C509Certificate

def generalNames (c : C509Certificate) : List GeneralName :=
  c.tbs.extensions.exts.flatMap fun e => e.value.generalNames

/-- The registered attribute types of every name and directory attribute. -/
def attributeTypes (c : C509Certificate) : List (UInt16 × Bool) :=
  (c.tbs.issuer.toList ++ [c.tbs.subject]).flatMap
      (fun name => name.attrs.filterMap RdnAttr.registeredType) ++
    c.tbs.extensions.exts.flatMap fun e => e.value.attributeTypes

/-- What the fields of a certificate have to do with each other. -/
structure DataModel (c : C509Certificate) : Prop where
  times : ∀ t ∈ c.tbs.validityNotBefore :: c.tbs.validityNotAfter.toList,
    ∃ secs : Int, 0 ≤ secs ∧ secs ≤ 253402300799 ∧ t.nanos = secs * 1000000000
  intIds : ∀ e ∈ c.tbs.extensions.exts, ∀ id, e.id = .int id → e.value.RegisteredFor id.toUInt32
  oidIds : ∀ e ∈ c.tbs.extensions.exts, ∀ oid, e.id = .oid oid → ∃ b, e.value = .raw b
  rawIds : ∀ e ∈ c.tbs.extensions.exts, ∀ id b, e.id = .int id → e.value = .raw b → Item b
  kinds : ∀ g ∈ c.generalNames, g.KindAgrees
  rawKinds : ∀ g ∈ c.generalNames, ∀ b, g.value = .raw b → Item b
  attributes : ((0 : UInt16), true) ∉ c.attributeTypes
  pathLen : ∀ e ∈ c.tbs.extensions.exts, ∀ n, e.value = .basicConstraints (.ca (some n)) →
    n.toNat < 2 ^ 31
  keyIdentifier : ∀ e ∈ c.tbs.extensions.exts, ∀ v, e.value = .authorityKeyIdentifier v →
    v.certIssuer.isSome = v.certSerial.isSome
  families : ∀ e ∈ c.tbs.extensions.exts, ∀ fam ∈ e.value.families, fam.entries ≠ [] →
    (fam.afi = 1 ∧ ∀ x ∈ fam.entries, x.OfWidth 4) ∨
      (fam.afi = 2 ∧ ∀ x ∈ fam.entries, x.OfWidth 16)

end C509Certificate

section

variable [Minicbor] [LawfulMinicbor] {D : Demands}

/-! ### Valid values -/

theorem Name.Valid.attributes {name : Name} (h : name.Valid D) :
    ((0 : UInt16), true) ∉ name.attrs.filterMap RdnAttr.registeredType := by
  intro hmem
  obtain ⟨a, ha, htype⟩ := List.mem_filterMap.mp hmem
  have hvalid := h.2 a ha
  cases a with
  | registered id printableString value =>
      cases htype
      exact hvalid.1 ⟨rfl, rfl⟩
  | oid o value => cases htype

namespace ExtensionValue

theorem Valid.generalNames {v : ExtensionValue} (h : v.Valid D) :
    ∀ g ∈ v.generalNames, g.Valid D := by
  have hopt : ∀ {o : Option (List GeneralName)}, (∀ names ∈ o, GeneralNamesValid D names) →
      ∀ g ∈ o.getD [], g.Valid D := by
    intro o ho g hg
    cases o with
    | none => cases hg
    | some names => exact (ho names rfl).2 g hg
  cases v with
  | subjectAltName names => exact h.2
  | issuerAltName names => exact h.2
  | nameConstraints v =>
      intro g hg
      rcases List.mem_append.mp hg with hg | hg
      · exact hopt h.1 g hg
      · exact hopt h.2 g hg
  | authorityKeyIdentifier v => exact hopt h.2.2.1
  | _ => intro g hg; cases hg

theorem Valid.names {v : ExtensionValue} (h : v.Valid D) : ∀ name ∈ v.names, name.Valid D := by
  have hpoints : ∀ {dp : List DistributionPointName}, DistributionPointName.ListValid D dp →
      ∀ name ∈ dp.filterMap DistributionPointName.crlIssuer, name.Valid D := by
    intro dp hdp name hname
    obtain ⟨p, hp, hissuer⟩ := List.mem_filterMap.mp hname
    exact (hdp.2 p hp).2 name hissuer
  have hdirectory : ∀ name ∈ v.generalNames.filterMap (fun g => match g.value with
      | .directoryName name => some name
      | _ => none), name.Valid D := by
    intro name hname
    obtain ⟨g, hg, hdir⟩ := List.mem_filterMap.mp hname
    obtain ⟨-, hvalue⟩ := h.generalNames g hg
    split at hdir
    · rename_i name' heq
      cases hdir
      rw [heq] at hvalue
      exact hvalue
    · cases hdir
  cases v with
  | crlDistributionPoints dp => exact hpoints h
  | freshestCrl dp => exact hpoints h
  | _ => exact hdirectory

theorem Valid.attributes {v : ExtensionValue} (h : v.Valid D) :
    ((0 : UInt16), true) ∉ v.attributeTypes := by
  have hnames : ((0 : UInt16), true) ∉ v.names.flatMap fun name =>
      name.attrs.filterMap RdnAttr.registeredType := by
    intro hmem
    obtain ⟨name, hname, hattr⟩ := List.mem_flatMap.mp hmem
    exact (h.names name hname).attributes hattr
  cases v with
  | subjectDirectoryAttributes v =>
      intro hmem
      obtain ⟨a, ha, htype⟩ := List.mem_filterMap.mp hmem
      have hvalid := h.2 a ha
      cases a with
      | registered id printableString value =>
          cases htype
          exact hvalid.1 ⟨rfl, rfl⟩
      | oid o value => cases htype
  | _ => exact hnames

theorem Valid.families {v : ExtensionValue} (h : v.Valid D) : ∀ fam ∈ v.families, fam.Valid := by
  cases v with
  | ipAddrBlocks l => exact h.2
  | ipAddrBlocksV2 l => exact h.2
  | _ => intro fam hfam; cases hfam

end ExtensionValue

omit [Minicbor] [LawfulMinicbor] in
theorem IpAddressFamily.Valid.entries {fam : IpAddressFamily} (h : fam.Valid) :
    ∀ x ∈ fam.entries, x.OfFamily fam.afi := by
  obtain ⟨afi, safi, choice⟩ := fam
  cases choice with
  | inherit => intro x hx; cases hx
  | prefixes entries => exact h.2

omit [Minicbor] [LawfulMinicbor] in
/-- The number of the family decides the width of its addresses. -/
theorem IpAddressOrRange.OfFamily.width {afi : UInt16} {x : IpAddressOrRange}
    (h : x.OfFamily afi) : (afi = 1 ∧ x.OfWidth 4) ∨ (afi = 2 ∧ x.OfWidth 16) := by
  cases x with
  | addressPrefix net =>
      have hle := net.le
      rcases h with ⟨hafi, hlen⟩ | ⟨hafi, hlen⟩
      · exact Or.inl ⟨hafi, hlen, by rwa [hlen] at hle⟩
      · exact Or.inr ⟨hafi, hlen, by rwa [hlen] at hle⟩
  | range min max =>
      obtain ⟨⟨rfl, hmin⟩ | ⟨rfl, hmin⟩, hmax⟩ := h
      · exact Or.inl ⟨rfl, hmin, (hmax.resolve_right fun h => absurd h.1 (by decide)).2⟩
      · exact Or.inr ⟨rfl, hmin, (hmax.resolve_left fun h => absurd h.1 (by decide)).2⟩

omit [Minicbor] [LawfulMinicbor] in
theorem IpAddressFamily.Valid.width {fam : IpAddressFamily} (h : fam.Valid)
    (hne : fam.entries ≠ []) : (fam.afi = 1 ∧ ∀ x ∈ fam.entries, x.OfWidth 4) ∨
      (fam.afi = 2 ∧ ∀ x ∈ fam.entries, x.OfWidth 16) := by
  obtain ⟨x, hx⟩ := List.exists_mem_of_ne_nil _ hne
  rcases (h.entries x hx).width with ⟨hafi, -⟩ | ⟨hafi, -⟩
  · refine Or.inl ⟨hafi, fun y hy => ?_⟩
    exact ((h.entries y hy).width.resolve_right fun h => by
      rw [hafi] at h; exact absurd h.1 (by decide)).2
  · refine Or.inr ⟨hafi, fun y hy => ?_⟩
    exact ((h.entries y hy).width.resolve_left fun h => by
      rw [hafi] at h; exact absurd h.1 (by decide)).2

namespace Extension

theorem Valid.value {e : Extension} (h : e.Valid D) :
    (∃ oid b, e.id = .oid oid ∧ e.value = .raw b) ∨
      ∃ id, e.id = .int id ∧ e.value.RegisteredFor id.toUInt32 ∧ e.value.Valid D := by
  obtain ⟨id, critical, value⟩ := e
  cases id with
  | int id => exact Or.inr ⟨id, rfl, h.2.2⟩
  | oid oid =>
      obtain ⟨-, b, hvalue, -⟩ := h
      exact Or.inl ⟨oid, b, rfl, hvalue⟩

/-- What holds of every valid value and of raw bytes holds of the value of an extension. -/
theorem Valid.of_value {e : Extension} (h : e.Valid D) {P : ExtensionValue → Prop}
    (hraw : ∀ b, P (.raw b)) (hvalid : ∀ v : ExtensionValue, v.Valid D → P v) : P e.value := by
  rcases h.value with ⟨oid, b, -, hvalue⟩ | ⟨id, -, -, hvalue⟩
  · rw [hvalue]
    exact hraw b
  · exact hvalid _ hvalue

end Extension

/-! ### Valid certificates -/

namespace C509Certificate

theorem Valid.attributes {c : C509Certificate} (h : c.Valid D) :
    ((0 : UInt16), true) ∉ c.attributeTypes := by
  intro hmem
  rcases List.mem_append.mp hmem with hmem | hmem
  · obtain ⟨name, hname, hattr⟩ := List.mem_flatMap.mp hmem
    rcases List.mem_append.mp hname with hname | hname
    · exact (h.issuer name (Option.mem_toList.mp hname)).attributes hattr
    · rw [List.mem_singleton.mp hname] at hattr
      exact h.subject.attributes hattr
  · obtain ⟨e, he, hattr⟩ := List.mem_flatMap.mp hmem
    exact (h.extensions.2 e he).of_value (P := fun v => ((0 : UInt16), true) ∉ v.attributeTypes)
      (fun b hb => by cases hb) (fun v hv => hv.attributes) hattr

theorem Valid.generalNames {c : C509Certificate} (h : c.Valid D) :
    ∀ g ∈ c.generalNames, g.Valid D := by
  intro g hg
  obtain ⟨e, he, hg⟩ := List.mem_flatMap.mp hg
  exact (h.extensions.2 e he).of_value (P := fun v => ∀ g ∈ v.generalNames, g.Valid D)
    (fun b g hg => by cases hg) (fun v hv => hv.generalNames) g hg

/-! ### What is kept raw -/

omit [Minicbor] [LawfulMinicbor] in
theorem mem_rawItems {item : Bytes} {v : ExtensionValue} :
    item ∈ v.rawItems ↔ v = .raw item ∨ ∃ g ∈ v.generalNames, g.value = .raw item := by
  have hnames : ∀ {names : List GeneralName},
      item ∈ namesRawItems names ↔ ∃ g ∈ names, g.value = .raw item := by
    intro names
    rw [namesRawItems, List.mem_flatMap]
    refine exists_congr fun g => and_congr_right fun _ => ?_
    rw [GeneralName.rawItems]
    cases g.value <;> simp [GeneralNameValue.rawItems, eq_comm]
  cases v with
  | subjectAltName names => exact hnames.trans (or_iff_right (by simp)).symm
  | issuerAltName names => exact hnames.trans (or_iff_right (by simp)).symm
  | authorityKeyIdentifier v => exact hnames.trans (or_iff_right (by simp)).symm
  | nameConstraints v =>
      have h := @hnames (v.permitted.getD [] ++ v.excluded.getD [])
      rw [namesRawItems, List.flatMap_append] at h
      exact h.trans (or_iff_right (by simp)).symm
  | raw b => simp [ExtensionValue.rawItems, ExtensionValue.generalNames, eq_comm]
  | _ => simp [ExtensionValue.rawItems, ExtensionValue.generalNames]

omit [Minicbor] [LawfulMinicbor] in
theorem mem_rawItems_of_value {c : C509Certificate} {e : Extension} {id : Int32} {item : Bytes}
    (he : e ∈ c.tbs.extensions.exts) (hid : e.id = .int id) (hvalue : e.value = .raw item) :
    item ∈ c.rawItems := by
  refine List.mem_flatMap.mpr ⟨e, he, ?_⟩
  rw [Extension.rawItems, hid]
  exact mem_rawItems.mpr (Or.inl hvalue)

/-- No general name stands under an OID. -/
theorem Valid.mem_rawItems_of_name {c : C509Certificate} (h : c.Valid D) {g : GeneralName}
    {item : Bytes} (hg : g ∈ c.generalNames) (hvalue : g.value = .raw item) :
    item ∈ c.rawItems := by
  obtain ⟨e, he, hg⟩ := List.mem_flatMap.mp hg
  refine List.mem_flatMap.mpr ⟨e, he, ?_⟩
  rcases (h.extensions.2 e he).value with ⟨oid, b, -, hraw⟩ | ⟨id, hid, -, -⟩
  · rw [hraw] at hg
    cases hg
  · rw [Extension.rawItems, hid]
    exact mem_rawItems.mpr (Or.inr ⟨g, hg, hvalue⟩)

/-- A value stands under its registered id. -/
theorem Valid.registeredFor {c : C509Certificate} (h : c.Valid D) {e : Extension}
    (he : e ∈ c.tbs.extensions.exts) {id : Int32} (hid : e.id = .int id) :
    e.value.RegisteredFor id.toUInt32 := by
  rcases (h.extensions.2 e he).value with ⟨oid, b, hoid, -⟩ | ⟨id', hid', hvalue, -⟩
  · rw [hid] at hoid
    cases hoid
  · rw [hid] at hid'
    cases hid'
    exact hvalue

/-- **A valid certificate has the data model's invariants throughout**, if what it keeps raw is
items. -/
theorem Valid.dataModel {c : C509Certificate} (h : c.Valid D)
    (hraw : ∀ item ∈ c.rawItems, Item item) : c.DataModel where
  times t ht := by
    rcases List.mem_cons.mp ht with rfl | ht
    · exact h.notBefore
    · exact h.notAfter t (Option.mem_toList.mp ht)
  intIds e he id hid := h.registeredFor he hid
  oidIds e he oid hoid := by
    rcases (h.extensions.2 e he).value with ⟨-, b, -, hvalue⟩ | ⟨id, hid, -, -⟩
    · exact ⟨b, hvalue⟩
    · rw [hoid] at hid
      cases hid
  rawIds e he id b hid hvalue := hraw b (mem_rawItems_of_value he hid hvalue)
  kinds g hg := (h.generalNames g hg).1
  rawKinds g hg b hvalue := hraw b (h.mem_rawItems_of_name hg hvalue)
  attributes := h.attributes
  pathLen e he n hn := by
    have hbc := (h.extensions.2 e he).of_value
      (P := fun v => ∀ n, v = .basicConstraints (.ca (some n)) → n.toNat < 2 ^ 31)
      (fun b n hn => by cases hn) fun v hv n hn => by
        subst hn
        exact hv
    exact hbc n hn
  keyIdentifier e he v hv := by
    have haki := (h.extensions.2 e he).of_value
      (P := fun w => ∀ v, w = .authorityKeyIdentifier v → v.certIssuer.isSome = v.certSerial.isSome)
      (fun b v hv => by cases hv) fun w hw v hv => by
        subst hv
        exact hw.2.1
    exact haki v hv
  families e he fam hfam hne := by
    have hvalid := (h.extensions.2 e he).of_value (P := fun v => ∀ fam ∈ v.families, fam.Valid)
      (fun b fam hfam => by cases hfam) fun v hv => hv.families
    exact (hvalid fam hfam).width hne

omit [Minicbor] [LawfulMinicbor] in
theorem DataModel.rawItems {c : C509Certificate} (h : c.DataModel) :
    ∀ item ∈ c.rawItems, Item item := by
  intro item hitem
  obtain ⟨e, he, hmem⟩ := List.mem_flatMap.mp hitem
  rw [Extension.rawItems] at hmem
  split at hmem
  · rename_i id hid
    rcases mem_rawItems.mp hmem with hvalue | ⟨g, hg, hvalue⟩
    · exact h.rawIds e he id item hid hvalue
    · exact h.rawKinds g (List.mem_flatMap.mpr ⟨e, he, hg⟩) item hvalue
  · cases hmem

theorem Valid.dataModel_iff {c : C509Certificate} (h : c.Valid D) :
    c.DataModel ↔ ∀ item ∈ c.rawItems, Item item :=
  ⟨fun hc => hc.rawItems, fun hraw => h.dataModel hraw⟩

variable [OidCrate]

/-- **Decoding establishes the data model's invariants exactly where the input starts with
well-formed items**: eleven of them for the bare form, one for the array form. -/
theorem decoded_dataModel_iff [LawfulOid] (b : Bytes) (c : C509Certificate) :
    (decodeSequence b = .ok c → (c.DataModel ↔ Begins 11 b)) ∧
      (decode b = .ok c → (c.DataModel ↔ Begins 1 b)) :=
  ⟨fun h => (valid_of_decodeSequence h).dataModel_iff.trans (rawItems_of_decodeSequence h),
    fun h => (valid_of_decode h).dataModel_iff.trans (rawItems_of_decode h)⟩

end C509Certificate

end

open scoped Reference in
theorem sample_dataModel : C509Certificate.sample.DataModel :=
  ((C509Certificate.decoded_dataModel_iff C509Certificate.sampleBytes
    C509Certificate.sample).1 C509Certificate.sample_decodes).mpr (by decide)

open scoped Reference in
/-- **A lone break is kept raw under an unknown id**, and it is no item. -/
theorem loneBreak_not_dataModel :
    ∃ c, C509Certificate.decodeSequence C509Certificate.loneBreakBytes = .ok c ∧
      ¬ c.DataModel := by
  refine ⟨_, C509Certificate.loneBreak_decodes, fun h => ?_⟩
  have hitem : Item [0xff] :=
    h.rawIds ⟨.int 99, false, .raw [0xff]⟩ (List.mem_singleton_self _) 99 [0xff] rfl rfl
  exact absurd ⟨[0xff], [], rfl, hitem⟩ (by decide : ¬ Begins 1 [0xff])

end C509
