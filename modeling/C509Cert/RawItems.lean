/-
What a decoded certificate keeps raw.

An extension under an id the crate does not know and a general name of a kind it does not
know keep the bytes `raw_item` captures, which are whatever `skip` steps over.  `skip` steps
over every item, but it is not bound to refuse what is none, a lone break for one.  What the
decoders kept is items exactly when the input they read starts with items.
-/
import C509Cert.Codec.Kept
import C509Cert.RoundTrip

namespace C509

open Cbor Codec

/-! ### The items kept raw -/

/-- The item of a general name of an unknown kind. -/
def GeneralNameValue.rawItems : GeneralNameValue → List Bytes
  | raw item => [item]
  | _ => []

def GeneralName.rawItems (g : GeneralName) : List Bytes := g.value.rawItems

def namesRawItems (names : List GeneralName) : List Bytes := names.flatMap GeneralName.rawItems

def AuthorityKeyIdentifier.rawItems (v : AuthorityKeyIdentifier) : List Bytes :=
  namesRawItems (v.certIssuer.getD [])

def NameConstraints.rawItems (v : NameConstraints) : List Bytes :=
  namesRawItems (v.permitted.getD []) ++ namesRawItems (v.excluded.getD [])

/-- The items of a value that were kept raw. -/
def ExtensionValue.rawItems : ExtensionValue → List Bytes
  | subjectAltName names | issuerAltName names => namesRawItems names
  | authorityKeyIdentifier v => v.rawItems
  | nameConstraints v => v.rawItems
  | raw b => [b]
  | _ => []

/-- Under an OID a raw value is the content of a byte string, and no item. -/
def Extension.rawItems (e : Extension) : List Bytes :=
  match e.id with
  | .int _ => e.value.rawItems
  | .oid _ => []

def Extensions.rawItems (v : Extensions) : List Bytes := v.exts.flatMap Extension.rawItems

def C509Certificate.rawItems (c : C509Certificate) : List Bytes := c.tbs.extensions.rawItems

section

variable [Minicbor] [LawfulMinicbor]

/-- What `skip` steps over is told apart as items are. -/
theorem selfDelimiting_skipped : SelfDelimiting Skipped where
  item := LawfulMinicbor.skip_item
  unique := Skipped.unique

/-! ### The decoders -/

section Rules

variable {α β : Type} {k : Nat} {m : Dec α} {R : α → List Bytes → Prop} {Q : β → List Bytes → Prop}

theorem keeps_rawItem : Keeps Skipped 1 rawItem fun item l => l = [item] := by
  intro b item r hrun
  obtain ⟨rfl, hitem⟩ := rawItem_run_ok.mp hrun
  exact ⟨item, [item], rfl, Framed.piece hitem hitem.headed, rfl⟩

omit [LawfulMinicbor] in
/-- The value of a decoder that takes nothing but items, where none of it is raw. -/
theorem keeps_nothing {P : α → Prop} {g : α → β} {pieces : β → List Bytes}
    (hm : Reads NoPieces k m P) (hg : ∀ a, pieces (g a) = []) :
    Keeps Skipped k (m >>= fun a => pure (g a)) fun y l => l = pieces y :=
  Keeps.of_reads (P := fun y => [] = pieces y) (Reads.map hm fun a _ => (hg a).symm) fun _ h => h

theorem keeps_peek {f : DataType → Dec β} (hf : ∀ t, Keeps Skipped k (f t) Q) :
    Keeps Skipped k (Decoder.datatype >>= f) Q := by
  intro b y r hrun
  obtain ⟨t, b', hpeek, hft⟩ := Parser.run_bind_ok_iff.mp hrun
  obtain ⟨-, rfl⟩ := datatype_run_ok.mp hpeek
  exact hf t b' y r hft

/-- The header of an array of `n` elements makes one item of the `n` items after it. -/
theorem keeps_array {f : Option UInt64 → Dec β}
    (hsome : ∀ n, Keeps Skipped n.toNat (f (some n)) Q)
    (hnone : ∀ b y, (f none).run b ≠ .ok y) : Keeps Skipped 1 (Decoder.array >>= f) Q := by
  intro b y r hrun
  obtain ⟨o, b', ho, hfo⟩ := Parser.run_bind_ok_iff.mp hrun
  cases o with
  | none => exact absurd hfo (hnone b' _)
  | some n =>
      obtain ⟨h, hh, rfl⟩ := LawfulMinicbor.readArray_some.mp (Decoder.lift_run_ok.mp ho)
      obtain ⟨c, l, rfl, hc, hy⟩ := hsome n b' y r hfo
      exact ⟨h ++ c, l, by rw [List.append_assoc], hc.array hh, hy⟩

theorem keeps_definiteArray {f : UInt64 → Dec β} (hf : ∀ n, Keeps Skipped n.toNat (f n) Q) :
    Keeps Skipped 1 (definiteArrayLen >>= f) Q := by
  unfold definiteArrayLen
  rw [Parser.bind_assoc]
  refine keeps_array (fun n => ?_) (fun b y h => ?_)
  · exact Keeps.step selfDelimiting_skipped (Reads.get _ _) fun a ha => by
      obtain rfl := Option.some.inj ha
      exact hf n
  · cases h

theorem keeps_expectArray {want : UInt64} {f : Unit → Dec β}
    (hf : Keeps Skipped want.toNat (f ()) Q) : Keeps Skipped 1 (expectArrayLen want >>= f) Q := by
  unfold expectArrayLen
  rw [Parser.bind_assoc]
  refine keeps_definiteArray fun n =>
    Keeps.step selfDelimiting_skipped (Reads.ensure _) fun _ hn => ?_
  subst hn
  exact hf

theorem keeps_decodeGroups {reserve : Nat → Dec Unit} {k : UInt64} {msg : String}
    {pieces : α → List Bytes} (hreserve : ∀ n, Reads NoPieces 0 (reserve n) fun _ => True)
    (hm : Keeps Skipped k.toNat m fun a l => l = pieces a) :
    Keeps Skipped 1 (decodeGroups reserve k msg m) fun as l => l = as.flatMap pieces := by
  refine keeps_definiteArray fun n =>
    Keeps.step selfDelimiting_skipped (Reads.ensure _) fun _ hmod =>
      Keeps.step selfDelimiting_skipped (hreserve _) fun _ _ => ?_
  exact (Keeps.times selfDelimiting_skipped hm _).cast (groups_mul hmod)

end Rules

variable [OidCrate] [LawfulOid]

theorem GeneralNameValue.keeps (k : Option GeneralNameKind) :
    Keeps Skipped 1 (GeneralNameValue.decode k) fun v l => l = v.rawItems := by
  match k with
  | some .macAddress => exact keeps_nothing reads_macBytes fun _ => rfl
  | some .smtpUtf8Mailbox | some .rfc822Name | some .dnsName | some .uri =>
      exact keeps_nothing reads_str fun _ => rfl
  | some .hardwareModuleName | some .otherName =>
      exact Keeps.of_reads (P := fun v => [] = v.rawItems)
        (reads_decodeTyped fun _ _ _ _ => rfl) fun _ h => h
  | some .directoryName => exact keeps_nothing Name.reads fun _ => rfl
  | some .ipAddress => exact keeps_nothing reads_bytes fun _ => rfl
  | some .registeredId => exact keeps_nothing reads_decodeOid fun _ => rfl
  | some .raw | none => exact Keeps.map keeps_rawItem fun _ _ h => h

theorem GeneralName.keeps : Keeps Skipped 2 GeneralName.decode fun g l => l = g.rawItems :=
  Keeps.after selfDelimiting_skipped reads_i32 fun _ _ =>
    Keeps.map (GeneralNameValue.keeps _) fun _ _ h => h

theorem keeps_generalNames : Keeps Skipped 1 decodeGeneralNames fun v l => l = namesRawItems v :=
  keeps_decodeGroups (reads_withCapacity _) GeneralName.keeps

theorem keeps_altName : Keeps Skipped 1 decodeAltName fun v l => l = namesRawItems v := by
  refine keeps_peek fun t => ?_
  split
  · exact keeps_nothing reads_str fun _ => rfl
  · exact keeps_generalNames

theorem AuthorityKeyIdentifier.keeps :
    Keeps Skipped 1 AuthorityKeyIdentifier.decode fun v l => l = v.rawItems := by
  refine keeps_peek fun t => ?_
  split
  · exact keeps_nothing reads_bytes fun _ => rfl
  · refine keeps_expectArray (Keeps.after (j := 2) selfDelimiting_skipped reads_bytes fun _ _ => ?_)
    refine Keeps.bind (j := 1) selfDelimiting_skipped keeps_generalNames fun names l hl => ?_
    refine Keeps.of_reads (Reads.map reads_readBiguint fun _ _ => ?_) fun _ h => h
    rw [hl, List.append_nil]
    rfl

theorem NameConstraints.keeps_subtree :
    Keeps Skipped 1 NameConstraints.decodeOptGeneralSubtree
      fun v l => l = namesRawItems (v.getD []) := by
  refine keeps_peek fun t => ?_
  split
  · exact keeps_nothing reads_null fun _ => rfl
  · exact Keeps.map keeps_generalNames fun _ _ h => h

theorem NameConstraints.keeps :
    Keeps Skipped 1 NameConstraints.decode fun v l => l = v.rawItems :=
  keeps_expectArray <| Keeps.bind (j := 1) selfDelimiting_skipped keeps_subtree fun _ _ hp =>
    Keeps.map keeps_subtree fun _ _ he => by rw [hp, he]; rfl

theorem ExtensionValue.keeps (id : UInt32) :
    Keeps Skipped 1 (ExtensionValue.decode id) fun v l => l = v.rawItems := by
  unfold decode
  split
  · exact keeps_nothing reads_bytes fun _ => rfl
  · exact keeps_nothing reads_u32 fun _ => rfl
  · exact Keeps.map keeps_altName fun _ _ h => h
  · exact keeps_nothing BasicConstraints.reads fun _ => rfl
  · exact keeps_nothing DistributionPointName.reads fun _ => rfl
  · exact keeps_nothing CertificatePolicies.reads fun _ => rfl
  · exact Keeps.map AuthorityKeyIdentifier.keeps fun _ _ h => h
  · exact keeps_nothing ExtKeyUsage.reads fun _ => rfl
  · exact keeps_nothing AccessDescription.reads fun _ => rfl
  · exact keeps_nothing SubjectDirectoryAttributes.reads fun _ => rfl
  · exact Keeps.map keeps_altName fun _ _ h => h
  · exact Keeps.map NameConstraints.keeps fun _ _ h => h
  · exact keeps_nothing PolicyMappings.reads fun _ => rfl
  · exact keeps_nothing PolicyConstraints.reads fun _ => rfl
  · exact keeps_nothing DistributionPointName.reads fun _ => rfl
  · exact keeps_nothing reads_u32 fun _ => rfl
  · exact keeps_nothing AccessDescription.reads fun _ => rfl
  · exact keeps_nothing reads_ipAddressFamilies fun _ => rfl
  · exact keeps_nothing reads_asIdentifiers fun _ => rfl
  · exact keeps_nothing reads_ipAddressFamilies fun _ => rfl
  · exact keeps_nothing reads_asIdentifiers fun _ => rfl
  · exact keeps_nothing reads_null fun _ => rfl
  · exact keeps_nothing (reads_vec reads_u32) fun _ => rfl
  · exact Keeps.map keeps_rawItem fun _ _ h => h

/-- An extension under an OID keeps the content of a byte string, which is no item. -/
theorem Extension.keeps : Keeps Skipped 2 Extension.decode fun e l => l = e.rawItems := by
  refine keeps_peek fun t => ?_
  split
  · refine Keeps.after (j := 1) selfDelimiting_skipped reads_decodeOid fun _ _ => ?_
    exact keeps_nothing reads_oidValue fun _ => rfl
  · refine Keeps.after (j := 1) selfDelimiting_skipped reads_criticalMagnitude fun x _ => ?_
    exact Keeps.map (ExtensionValue.keeps x.1) fun _ _ h => h

theorem Extensions.keeps : Keeps Skipped 1 Extensions.decode fun v l => l = v.rawItems := by
  have hlist : Keeps Skipped 1 Extensions.decodeList fun v l => l = v.rawItems :=
    Keeps.map (keeps_decodeGroups (reads_withCapacity _) Extension.keeps) fun _ _ h => h
  refine keeps_peek fun t => ?_
  split
  · exact hlist
  · exact hlist
  · exact keeps_nothing reads_criticalMagnitude fun _ => rfl

namespace C509Certificate

/-- Only the extensions keep anything raw. -/
theorem keeps_decodeFields : Keeps Skipped 11 decodeFields fun c l => l = c.rawItems := by
  have hX : SelfDelimiting Skipped := selfDelimiting_skipped
  refine Keeps.after (j := 10) hX reads_i32 fun _ _ => ?_
  refine Keeps.after (j := 9) hX reads_readBiguint fun _ _ => ?_
  refine Keeps.after (j := 8) hX AlgorithmIdentifier.reads fun _ _ => ?_
  refine Keeps.after (j := 7) hX Name.reads_optional fun _ _ => ?_
  refine Keeps.after (j := 6) hX reads_readTime fun _ _ => ?_
  refine Keeps.after (j := 5) hX reads_decodeNotAfter fun _ _ => ?_
  refine Keeps.after (j := 4) hX Name.reads fun _ _ => ?_
  refine Keeps.after (j := 3) hX AlgorithmIdentifier.reads fun _ _ => ?_
  refine Keeps.after (j := 2) hX reads_bytes fun _ _ => ?_
  refine Keeps.bind (j := 1) hX Extensions.keeps fun exts l hl => ?_
  refine Keeps.of_reads (Reads.map reads_bytes fun _ _ => ?_) fun _ h => h
  rw [hl, List.append_nil]
  rfl

theorem keeps_decodeItem : Keeps Skipped 1 decodeItem fun c l => l = c.rawItems := by
  have hX : SelfDelimiting Skipped := selfDelimiting_skipped
  refine keeps_array (fun n => ?_) (fun b y h => ?_)
  · refine Keeps.step hX (Reads.get _ _) fun m hm => Keeps.step hX (Reads.ensure _) fun _ hn => ?_
    obtain rfl := Option.some.inj hm
    rw [hn]
    exact keeps_decodeFields.mapError
  · cases h

/-- **What a certificate keeps raw is items exactly when its input starts with eleven.** -/
theorem rawItems_of_decodeSequence {b : Bytes} {c : C509Certificate}
    (h : decodeSequence b = .ok c) : (∀ item ∈ c.rawItems, Item item) ↔ Begins 11 b := by
  obtain ⟨r, hrun⟩ := decodeFront_ok.mp h
  exact keeps_decodeFields.items_iff selfDelimiting_skipped hrun

/-- And in the array form, exactly when it starts with one. -/
theorem rawItems_of_decode {b : Bytes} {c : C509Certificate} (h : decode b = .ok c) :
    (∀ item ∈ c.rawItems, Item item) ↔ Begins 1 b := by
  obtain ⟨r, hrun⟩ := decodeFront_ok.mp h
  exact keeps_decodeItem.items_iff selfDelimiting_skipped hrun

end C509Certificate

end

/-! ### A lone break -/

namespace C509Certificate

/-- The bare form of a certificate whose one extension, under the unknown id 99, is a lone
break. -/
def loneBreakBytes : Bytes :=
  [0x03, 0x41, 0x05, 0x00, 0xf6, 0x00, 0xf6, 0x80, 0x01, 0x40, 0x82, 0x18, 0x63, 0xff, 0x40]

open scoped Reference in
theorem loneBreak_decodes : decodeSequence loneBreakBytes = .ok (keepingText [0xff]) := rfl

theorem loneBreak_begins : ¬ Begins 11 loneBreakBytes := by decide

end C509Certificate

end C509
