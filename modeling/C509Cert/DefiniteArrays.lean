/-
Arrays of definite length (`definite_array_len`).

Every array the crate reads itself goes through `definite_array_len`, which refuses
indefinite lengths.  Two extension values are read by the `Decode` that `minicbor` has for
vectors instead, and that one takes both: the purposes of an extKeyUsage and the numbers of
a TLS feature list.

`Minicbor.definite` is `minicbor` without indefinite-length arrays.  A decoder that reads
none of them cannot tell the two apart, and what it accepts over `Minicbor.definite` is what
it accepts having met definite-length headers only.
-/
import C509Cert.Codec.Agree
import C509Cert.RoundTrip

open Cbor Codec

/-! ### `minicbor` without indefinite-length arrays -/

/-- The first byte of an indefinite-length array. -/
def indefiniteByte : UInt8 := initial 4 31

/-- `minicbor`, with the header of an indefinite-length array an error. -/
@[reducible] def Minicbor.definite (M : Minicbor) : Minicbor :=
  { M with
    readArray := fun b =>
      match M.readArray b with
      | .ok (some n, r) => .ok (some n, r)
      | .ok (none, _) => .error (M.message "indefinite-length array")
      | .error e => .error e
    readVec := fun f b =>
      if b.head? = some indefiniteByte then .error (M.message "indefinite-length array")
      else M.readVec f b }

namespace C509

section

variable [M : Minicbor] {α β : Type}

/-- The decoder accepts the same inputs, with the same results, where indefinite-length
arrays are refused. -/
abbrev Definite (m : (N : Minicbor) → @Dec N α) : Prop := Agree (m M.definite) (m M)

/-- The decoder refuses the inputs of `W` there, and otherwise does the same. -/
abbrev DefiniteOff (W : Bytes → Prop) (m : (N : Minicbor) → @Dec N α) : Prop :=
  AgreeOff W (m M.definite) (m M)

/-! ### Reads of `minicbor` -/

theorem definite_lift {f : (N : Minicbor) → Bytes → Except N.Err (α × Bytes)}
    (hf : ∀ b a r, f M.definite b = .ok (a, r) ↔ f M b = .ok (a, r)) :
    Definite fun N => @Decoder.lift N α (f N) := by
  intro b a r
  rw [@Decoder.lift_run_ok M.definite, @Decoder.lift_run_ok M]
  exact hf b a r

theorem definite_datatype : Definite fun _ => Decoder.datatype := by
  refine definite_lift fun b _ _ => ?_
  cases M.datatype b
  · exact Iff.rfl
  · exact Iff.rfl

theorem definite_u16 : Definite fun _ => Decoder.u16 := definite_lift fun _ _ _ => Iff.rfl
theorem definite_u32 : Definite fun _ => Decoder.u32 := definite_lift fun _ _ _ => Iff.rfl
theorem definite_u64 : Definite fun _ => Decoder.u64 := definite_lift fun _ _ _ => Iff.rfl
theorem definite_i32 : Definite fun _ => Decoder.i32 := definite_lift fun _ _ _ => Iff.rfl
theorem definite_int : Definite fun _ => Decoder.int := definite_lift fun _ _ _ => Iff.rfl
theorem definite_bytes : Definite fun _ => Decoder.bytes := definite_lift fun _ _ _ => Iff.rfl
theorem definite_str : Definite fun _ => Decoder.str := definite_lift fun _ _ _ => Iff.rfl
theorem definite_tag : Definite fun _ => Decoder.tag := definite_lift fun _ _ _ => Iff.rfl
theorem definite_null : Definite fun _ => Decoder.null := definite_lift fun _ _ _ => Iff.rfl
theorem definite_skip : Definite fun _ => Decoder.skip := definite_lift fun _ _ _ => Iff.rfl

theorem definite_result (x : Except String α) : Definite fun _ => result x := by
  cases x with
  | ok a => exact Agree.pure a
  | error msg => exact Agree.fail _ _

/-! ### Array headers -/

theorem definite_array_some {b r : Bytes} {n : UInt64} :
    (@Decoder.array M.definite).run b = .ok (some n, r) ↔
      Decoder.array.run b = .ok (some n, r) := by
  refine (@Decoder.lift_run_ok M.definite ..).trans (Iff.trans ?_ (@Decoder.lift_run_ok M ..).symm)
  simp only [Minicbor.readArray]
  split <;> simp_all

/-- A header that is only used where the length is given. -/
theorem definite_arrayLen (e' : @DecodeError M.definite) (e : @DecodeError M) :
    Agree (@Decoder.array M.definite >>= fun o => Parser.get o e')
      (@Decoder.array M >>= fun o => Parser.get o e) := by
  intro b n r
  rw [Parser.run_bind_ok_iff, Parser.run_bind_ok_iff]
  refine exists_congr fun o => exists_congr fun r' => ?_
  cases o with
  | none => simp [Parser.get]
  | some n' => rw [definite_array_some, Agree.get (some n') e' e r' n r]

theorem definite_definiteArrayLen : Definite fun _ => definiteArrayLen := definite_arrayLen _ _

theorem definite_expectArrayLen (want : UInt64) : Definite fun _ => expectArrayLen want :=
  Agree.bind definite_definiteArrayLen fun _ => Agree.ensure _ _ _

/-- Memory is reserved for any length alike. -/
theorem definite_withCapacity (site : Site) (n : Nat) : Definite fun _ => withCapacity site n :=
  Agree.emit _ _

theorem definite_withBoundedCapacity (site : Site) (n : Nat) :
    Definite fun _ => withBoundedCapacity site n :=
  Agree.emit _ _

section

variable {reserve : (N : Minicbor) → Nat → @Dec N Unit} {m : (N : Minicbor) → @Dec N α}

theorem definite_decodeArray (hreserve : ∀ n, Definite fun N => reserve N n) (hm : Definite m) :
    Definite fun N => @decodeArray N α (reserve N) (m N) :=
  Agree.bind definite_definiteArrayLen fun n =>
    Agree.bind (hreserve n.toNat) fun _ => hm.times n.toNat

theorem definite_decodeGroups {k : UInt64} {msg : String}
    (hreserve : ∀ n, Definite fun N => reserve N n) (hm : Definite m) :
    Definite fun N => @decodeGroups N α (reserve N) k msg (m N) :=
  Agree.bind definite_definiteArrayLen fun n =>
    Agree.bind (Agree.ensure _ _ _) fun _ =>
      Agree.bind (hreserve (n / k).toNat) fun _ => hm.times (n / k).toNat

end

/-! ### Common decoders -/

theorem definite_decodeOptUint : Definite fun _ => decodeOptUint := by
  refine Agree.bind definite_datatype fun t => ?_
  split
  · exact Agree.bind definite_null fun _ => Agree.pure _
  · exact Agree.bind definite_u32 fun _ => Agree.pure _

theorem definite_readBiguint : Definite fun _ => readBiguint :=
  Agree.bind definite_bytes fun _ => Agree.pure _

theorem definite_readTime : Definite fun _ => readTime :=
  Agree.bind definite_u64 fun _ => Agree.bind (Agree.get _ _ _) fun _ => Agree.get _ _ _

theorem definite_rawItem : Definite fun _ => rawItem := by
  have hskip := definite_skip (M := M)
  intro b a r
  have hrun : ∀ (N : Minicbor), (@rawItem N).run b = .ok (a, r) ↔
      (@Decoder.skip N).run b = .ok ((), r) ∧ a = b.take (b.length - r.length) := by
    intro N
    unfold rawItem
    simp only
    split
    · rename_i r' hs
      rw [hs]
      constructor
      · rintro ⟨⟩
        exact ⟨rfl, rfl⟩
      · rintro ⟨⟨⟩, rfl⟩
        rfl
    · rename_i e hs
      rw [hs]
      constructor
      · rintro ⟨⟩
      · rintro ⟨⟨⟩, -⟩
  rw [hrun, hrun, hskip b () r]

theorem definite_macBytes : Definite fun _ => macBytes :=
  Agree.bind definite_bytes fun _ => Agree.get _ _ _

end

section

variable [M : Minicbor] [OidCrate]

theorem definite_decodeOid : Definite fun _ => decodeOid :=
  Agree.bind definite_bytes fun _ => Agree.get _ _ _

theorem IntOrOid.definite : Definite fun _ => IntOrOid.decode := by
  refine Agree.bind definite_datatype fun t => ?_
  split
  · exact Agree.bind definite_decodeOid fun _ => Agree.pure _
  · exact Agree.bind definite_i32 fun _ => Agree.pure _

theorem AlgorithmIdentifier.definite : Definite fun _ => AlgorithmIdentifier.decode := by
  have hparameters : Definite fun _ => AlgorithmIdentifier.decodeWithParameters :=
    Agree.bind definite_definiteArrayLen fun _ => Agree.bind (Agree.ensure _ _ _) fun _ =>
      Agree.bind definite_decodeOid fun _ => Agree.bind definite_bytes fun _ => Agree.pure _
  refine Agree.bind definite_datatype fun t => ?_
  split
  · exact hparameters
  · exact hparameters
  · exact Agree.bind definite_decodeOid fun _ => Agree.pure _
  · exact Agree.bind definite_i32 fun _ => Agree.pure _

/-! ### Names -/

omit [OidCrate] in
theorem SpecialText.definite : Definite fun _ => SpecialText.decode := by
  refine Agree.bind definite_datatype fun t => ?_
  split
  · exact Agree.bind definite_str fun _ => Agree.pure _
  · exact Agree.bind definite_bytes fun _ => Agree.pure _
  · exact Agree.bind definite_tag fun _ => Agree.bind (Agree.ensure _ _ _) fun _ =>
      Agree.bind definite_macBytes fun _ => Agree.pure _
  · exact Agree.fail _ _

theorem RdnAttr.definite {S B : Type} (s : (N : Minicbor) → @RdnValue N S)
    (b : (N : Minicbor) → @RdnValue N B) (hs : Definite fun N => (s N).decode)
    (hb : Definite fun N => (b N).decode) :
    Definite fun N => @RdnAttr.decode N _ S B (s N) (b N) := by
  refine Agree.bind definite_datatype fun t => ?_
  split
  · exact Agree.bind definite_decodeOid fun _ => Agree.bind hb fun _ => Agree.pure _
  · exact Agree.bind definite_i32 fun _ => Agree.bind (Agree.get _ _ _) fun _ =>
      Agree.bind hs fun _ => Agree.pure _

theorem Name.definite : Definite fun _ => Name.decode := by
  have hattributes : Definite fun _ => Name.decodeAttributes :=
    Agree.bind (definite_decodeGroups (definite_withCapacity .name)
      (RdnAttr.definite (fun _ => inferInstance) (fun _ => inferInstance) SpecialText.definite
        definite_bytes)) fun _ => Agree.pure _
  refine Agree.bind definite_datatype fun t => ?_
  split
  · exact hattributes
  · exact hattributes
  · exact Agree.bind SpecialText.definite fun _ => Agree.pure _

theorem Name.definite_optional : Definite fun _ => Name.decodeOptional := by
  refine Agree.bind definite_datatype fun t => ?_
  split
  · exact Agree.bind definite_null fun _ => Agree.pure _
  · exact Agree.bind Name.definite fun _ => Agree.pure _

/-! ### General names -/

theorem GeneralNameValue.definite (kind : Option GeneralNameKind) :
    Definite fun _ => GeneralNameValue.decode kind := by
  have htyped : ∀ make, Definite fun _ => GeneralNameValue.decodeTyped make := fun make =>
    Agree.bind (definite_expectArrayLen 2) fun _ => Agree.bind definite_decodeOid fun _ =>
      Agree.bind definite_bytes fun _ => Agree.pure _
  unfold GeneralNameValue.decode
  split
  · exact Agree.bind definite_macBytes fun _ => Agree.pure _
  · exact Agree.bind definite_str fun _ => Agree.pure _
  · exact htyped _
  · exact htyped _
  · exact Agree.bind definite_str fun _ => Agree.pure _
  · exact Agree.bind definite_str fun _ => Agree.pure _
  · exact Agree.bind Name.definite fun _ => Agree.pure _
  · exact Agree.bind definite_str fun _ => Agree.pure _
  · exact Agree.bind definite_bytes fun _ => Agree.pure _
  · exact Agree.bind definite_decodeOid fun _ => Agree.pure _
  · exact Agree.bind definite_rawItem fun _ => Agree.pure _
  · exact Agree.bind definite_rawItem fun _ => Agree.pure _

theorem definite_decodeGeneralNames : Definite fun _ => decodeGeneralNames :=
  definite_decodeGroups (definite_withCapacity .generalNames)
    (Agree.bind definite_i32 fun _ => Agree.bind (GeneralNameValue.definite _) fun _ =>
      Agree.pure _)

theorem definite_decodeAltName : Definite fun _ => decodeAltName := by
  refine Agree.bind definite_datatype fun t => ?_
  split
  · exact Agree.bind definite_str fun _ => Agree.pure _
  · exact definite_decodeGeneralNames

theorem AuthorityKeyIdentifier.definite : Definite fun _ => AuthorityKeyIdentifier.decode := by
  refine Agree.bind definite_datatype fun t => ?_
  split
  · exact Agree.bind definite_bytes fun _ => Agree.pure _
  · exact Agree.bind (definite_expectArrayLen 3) fun _ => Agree.bind definite_bytes fun _ =>
      Agree.bind definite_decodeGeneralNames fun _ => Agree.bind definite_readBiguint fun _ =>
        Agree.pure _

theorem NameConstraints.definite : Definite fun _ => NameConstraints.decode := by
  have hsubtree : Definite fun _ => NameConstraints.decodeOptGeneralSubtree := by
    refine Agree.bind definite_datatype fun t => ?_
    split
    · exact Agree.bind definite_null fun _ => Agree.pure _
    · exact Agree.bind definite_decodeGeneralNames fun _ => Agree.pure _
  exact Agree.bind (definite_expectArrayLen 2) fun _ => Agree.bind hsubtree fun _ =>
    Agree.bind hsubtree fun _ => Agree.pure _

/-! ### The smaller values -/

omit [OidCrate] in
theorem BasicConstraints.definite : Definite fun _ => BasicConstraints.decode := by
  refine Agree.bind definite_i32 fun v => ?_
  by_cases hnot : v = -2
  · simp only [if_pos hnot]
    exact Agree.pure _
  by_cases hca : v = -1
  · simp only [if_neg hnot, if_pos hca]
    exact Agree.pure _
  by_cases hlen : 0 ≤ v
  · simp only [if_neg hnot, if_neg hca, if_pos hlen]
    exact Agree.pure _
  · simp only [if_neg hnot, if_neg hca, if_neg hlen]
    exact Agree.fail _ _

theorem AccessDescription.definite : Definite fun _ => AccessDescription.decode :=
  definite_decodeGroups (definite_withCapacity .accessDescriptions)
    (Agree.bind IntOrOid.definite fun _ => Agree.bind definite_str fun _ => Agree.pure _)

theorem DistributionPointName.definite : Definite fun _ => DistributionPointName.decode := by
  have hfull : Definite fun _ => DistributionPointName.decodeFullName := by
    refine Agree.bind definite_datatype fun t => ?_
    split
    · exact Agree.bind definite_str fun _ => Agree.pure _
    · exact definite_decodeArray (definite_withCapacity .fullName) definite_str
  have hone : Definite fun _ => DistributionPointName.decodeOne :=
    Agree.bind (definite_expectArrayLen 3) fun _ => Agree.bind hfull fun _ =>
      Agree.bind definite_decodeOptUint fun _ => Agree.bind Name.definite_optional fun _ =>
        Agree.pure _
  refine Agree.bind definite_datatype fun t => ?_
  split
  · exact Agree.bind definite_str fun _ => Agree.pure _
  · exact definite_decodeArray (definite_withCapacity .distributionPoints) hone

theorem CertificatePolicies.definite : Definite fun _ => CertificatePolicies.decode := by
  have hqualifiers : Definite fun _ => CertificatePolicies.decodePolicyQualifiers :=
    definite_decodeGroups (definite_withCapacity .policyQualifiers)
      (Agree.bind IntOrOid.definite fun _ => Agree.bind definite_str fun _ => Agree.pure _)
  have hone : Definite fun _ => CertificatePolicies.decodeOne :=
    Agree.bind IntOrOid.definite fun _ => Agree.bind hqualifiers fun _ => Agree.pure _
  exact Agree.bind (definite_decodeGroups (definite_withCapacity .certificatePolicies) hone)
    fun _ => Agree.pure _

omit [OidCrate] in
theorem PolicyConstraints.definite : Definite fun _ => PolicyConstraints.decode :=
  Agree.bind (definite_expectArrayLen 2) fun _ => Agree.bind definite_decodeOptUint fun _ =>
    Agree.bind definite_decodeOptUint fun _ => Agree.pure _

theorem PolicyMappings.definite : Definite fun _ => PolicyMappings.decode := by
  have hone : Definite fun _ => PolicyMappings.decodeOne :=
    Agree.bind IntOrOid.definite fun _ => Agree.bind IntOrOid.definite fun _ => Agree.pure _
  exact Agree.bind (definite_decodeGroups (definite_withCapacity .policyMappings) hone)
    fun _ => Agree.pure _

theorem SubjectDirectoryAttributes.definite :
    Definite fun _ => SubjectDirectoryAttributes.decode := by
  have htexts : Definite fun _ => (RdnValue.decode : Dec (List SpecialText)) :=
    definite_decodeArray (definite_withBoundedCapacity .rdnValues) SpecialText.definite
  have hbytes : Definite fun _ => (RdnValue.decode : Dec (List Bytes)) :=
    definite_decodeArray (definite_withBoundedCapacity .rdnValues) definite_bytes
  have hattr : Definite fun _ => (RdnAttr.decode : Dec RdnAttributes) :=
    RdnAttr.definite (fun _ => inferInstance) (fun _ => inferInstance) htexts hbytes
  exact Agree.bind (definite_decodeGroups (definite_withCapacity .directoryAttributes) hattr)
    fun _ => Agree.pure _

end

/-! ### Address blocks and AS identifiers -/

section

variable [M : Minicbor] {α : Type}

theorem definite_decodeSingleOrRange {msg : String} {single range : (N : Minicbor) → @Dec N α}
    (hsingle : Definite single) (hrange : Definite range) :
    Definite fun N => @decodeSingleOrRange N α msg (single N) (range N) := by
  have harray : Definite fun N => (do
      let n ← definiteArrayLen
      ensure (n = 2) msg
      range N : @Dec N α) :=
    Agree.bind definite_definiteArrayLen fun _ => Agree.bind (Agree.ensure _ _ _) fun _ => hrange
  refine Agree.bind definite_datatype fun t => ?_
  split
  · exact harray
  · exact harray
  · exact hsingle

theorem definite_decodeEntry (afi : UInt16) (isIntForm : Bool) (c : Chain) :
    Definite fun _ => decodeEntry afi isIntForm c := by
  have hbound : ∀ fill, Definite fun _ => decodeBound afi fill := fun fill =>
    Agree.bind definite_bytes fun _ => Agree.bind (definite_result _) fun _ =>
      Agree.bind (Agree.ensure _ _ _) fun _ => definite_result _
  cases isIntForm with
  | true =>
      exact definite_decodeSingleOrRange
        (Agree.bind definite_int fun _ => Agree.bind (definite_result _) fun _ =>
          Agree.bind (definite_result _) fun _ => Agree.pure _)
        (Agree.bind definite_int fun _ => Agree.bind definite_int fun _ =>
          Agree.bind (definite_result _) fun _ => Agree.bind (definite_result _) fun _ =>
            Agree.bind (definite_result _) fun _ => Agree.bind (definite_result _) fun _ =>
              Agree.pure _)
  | false =>
      exact definite_decodeSingleOrRange
        (Agree.bind definite_bytes fun _ => Agree.bind (definite_result _) fun _ =>
          Agree.bind (definite_result _) fun _ => Agree.pure _)
        (Agree.bind (hbound 0x00) fun _ => Agree.bind (hbound 0xFF) fun _ => Agree.pure _)

theorem definite_peekForm : Definite fun _ => peekForm := by
  have hrange : Definite fun _ => peekRangeForm :=
    Agree.bind definite_definiteArrayLen fun _ => Agree.bind definite_datatype fun _ =>
      Agree.pure _
  refine Agree.bind definite_datatype fun t => ?_
  split
  · exact hrange
  · exact hrange
  · exact Agree.pure _

theorem definite_decodeEntries (afi : UInt16) : Definite fun _ => decodeEntries afi := by
  refine Agree.bind definite_definiteArrayLen fun len => ?_
  split
  · exact Agree.pure _
  · exact Agree.bind definite_peekForm.probe fun isIntForm =>
      Agree.bind (definite_withBoundedCapacity .ipEntries len.toNat) fun _ =>
        Agree.bind (Agree.iterate (definite_decodeEntry afi isIntForm) len.toNat Chain.start)
          fun _ => Agree.pure _

theorem definite_decodeIpAddressFamilies : Definite fun _ => decodeIpAddressFamilies := by
  have hsafi : Definite fun _ => decodeSafi := by
    refine Agree.bind definite_datatype fun t => ?_
    split
    · exact Agree.bind definite_null fun _ => Agree.pure _
    · exact Agree.bind definite_u16 fun _ => Agree.pure _
  have hchoice : ∀ afi, Definite fun _ => decodeIpAddressChoice afi := by
    intro afi
    refine Agree.bind definite_datatype fun t => ?_
    split
    · exact Agree.bind definite_null fun _ => Agree.pure _
    · exact definite_decodeEntries afi
  exact definite_decodeGroups (definite_withBoundedCapacity .ipFamilies)
    (Agree.bind definite_u16 fun afi => Agree.bind hsafi fun _ =>
      Agree.bind (hchoice afi) fun _ => Agree.pure _)

theorem definite_decodeAsIdentifiers : Definite fun _ => decodeAsIdentifiers := by
  have hentry : ∀ c, Definite fun _ => decodeAsEntry c := fun c =>
    definite_decodeSingleOrRange
      (Agree.bind definite_int fun _ => Agree.bind (Agree.get _ _ _) fun _ => Agree.pure _)
      (Agree.bind definite_int fun _ => Agree.bind definite_int fun _ =>
        Agree.bind (Agree.get _ _ _) fun _ => Agree.bind (Agree.get _ _ _) fun _ => Agree.pure _)
  refine Agree.bind definite_datatype fun t => ?_
  split
  · exact Agree.bind definite_null fun _ => Agree.pure _
  · exact Agree.bind definite_definiteArrayLen fun len =>
      Agree.bind (definite_withBoundedCapacity .asIdentifiers len.toNat) fun _ =>
        Agree.bind (Agree.iterate hentry len.toNat Chain.start) fun _ => Agree.pure _

end

/-! ### What is refused

The exceptions are stated on the wire: a value, an extension, a list of extensions and a
certificate in which `minicbor`'s own vector stands as an indefinite-length array.
-/

/-- The input goes on with an indefinite-length array. -/
def IndefiniteArray (b : Bytes) : Prop := b.head? = some indefiniteByte

/-- An extKeyUsage or a TLS feature list, critical or not, whose value is an
indefinite-length array. -/
def Extension.Indefinite (b : Bytes) : Prop :=
  ∃ (id : Int) (h s : Bytes), IntHead id h ∧ (id.natAbs = 8 ∨ id.natAbs = 38) ∧
    IndefiniteArray s ∧ b = h ++ s

/-- An array that has such an extension among its pairs, past the first `i` of them. -/
def Extensions.Indefinite [Minicbor] [OidCrate] : Bytes → Prop :=
  InArray fun n b => ∃ i, i < n / 2 ∧ Past (Parser.times i Extension.decode) Extension.Indefinite b

namespace C509Certificate

variable [Minicbor] [OidCrate]

/-- Such extensions as the tenth field. -/
def IndefiniteFields : Bytes → Prop := After 9 Extensions.Indefinite

/-- Such fields under the header of the array form. -/
def IndefiniteItem : Bytes → Prop := InArray fun n b => n = 11 ∧ IndefiniteFields b

end C509Certificate

section

variable {ε ε' α : Type} {f : Bytes → Except ε (α × Bytes)} {g : Bytes → Except ε' (α × Bytes)}
  {l : List α} {b r : Bytes}

theorem eachRead_mono (h : ∀ b x r, f b = .ok (x, r) → g b = .ok (x, r))
    (hl : EachRead f l b r) : EachRead g l b r := by
  induction hl with
  | nil => exact EachRead.nil
  | cons hx _ ih => exact EachRead.cons (h _ _ _ hx) ih

theorem eachUntilBreak_mono (h : ∀ b x r, f b = .ok (x, r) → g b = .ok (x, r))
    (hl : EachUntilBreak f l b r) : EachUntilBreak g l b r := by
  induction hl with
  | nil => exact EachUntilBreak.nil
  | cons hb hx _ ih => exact EachUntilBreak.cons hb (h _ _ _ hx) ih

end

section

variable [M : Minicbor] [LawfulMinicbor] {α β : Type}

theorem readVec_mono {f g : Bytes → Except Minicbor.Err (α × Bytes)} {P : α → Prop}
    (hf : Reads NoPieces 1 (Decoder.lift f) P) (hfg : ∀ b x r, f b = .ok (x, r) ↔ g b = .ok (x, r))
    {b r : Bytes} {l : List α} :
    Minicbor.readVec f b = .ok (l, r) ↔ Minicbor.readVec g b = .ok (l, r) := by
  have hg : ∀ b x r, g b = .ok (x, r) → r.length < b.length := fun b x r h =>
    shrinks hf b x r ((hfg b x r).mpr h)
  rw [LawfulMinicbor.readVec_ok (shrinks hf), LawfulMinicbor.readVec_ok hg]
  constructor
  · rintro (⟨h, r', hh, hb, hl⟩ | ⟨hlen, r', hb, hl⟩)
    · exact Or.inl ⟨h, r', hh, hb, eachRead_mono (fun b x r => (hfg b x r).mp) hl⟩
    · exact Or.inr ⟨hlen, r', hb, eachUntilBreak_mono (fun b x r => (hfg b x r).mp) hl⟩
  · rintro (⟨h, r', hh, hb, hl⟩ | ⟨hlen, r', hb, hl⟩)
    · exact Or.inl ⟨h, r', hh, hb, eachRead_mono (fun b x r => (hfg b x r).mpr) hl⟩
    · exact Or.inr ⟨hlen, r', hb, eachUntilBreak_mono (fun b x r => (hfg b x r).mpr) hl⟩

/-- The vectors of `minicbor` are the one place that reads indefinite-length arrays. -/
theorem definiteOff_vec {f : (N : Minicbor) → Bytes → Except N.Err (α × Bytes)} {P : α → Prop}
    (hf : ∀ b x r, f M b = .ok (x, r) ↔ f M.definite b = .ok (x, r))
    (hreads : Reads NoPieces 1 (Decoder.lift (f M)) P) :
    DefiniteOff IndefiniteArray fun N => @Decoder.vec N α (f N) := by
  intro b l r
  have hrun : M.definite.readVec (f M.definite) b = .ok (l, r) ↔
      M.readVec (f M) b = .ok (l, r) ∧ ¬ IndefiniteArray b := by
    simp only [Minicbor.readVec, IndefiniteArray]
    by_cases hb : b.head? = some indefiniteByte
    · rw [if_pos hb]
      simp [hb]
    · rw [if_neg hb, ← readVec_mono hreads hf]
      simp [hb]
  exact (@Decoder.lift_run_ok M.definite ..).trans
    (hrun.trans (and_congr_left' (@Decoder.lift_run_ok M ..).symm))

/-- The array header, with what is refused after it. -/
theorem definiteOff_arrayLen {W : Nat → Bytes → Prop} {e' : @DecodeError M.definite}
    {e : @DecodeError M} {f' : UInt64 → @Dec M.definite β} {f : UInt64 → @Dec M β}
    (hf : ∀ n, AgreeOff (W n.toNat) (f' n) (f n)) :
    AgreeOff (InArray W) (@Decoder.array M.definite >>= (fun o => Parser.get o e') >>= f')
      (@Decoder.array M >>= (fun o => Parser.get o e) >>= f) := by
  have hrun : ∀ {b r n}, (Decoder.array >>= fun o => Parser.get o e).run b = .ok (n, r) ↔
      ∃ h, Head 4 n.toNat h ∧ b = h ++ r := fun {b r n} =>
    (Agree.bind (Agree.refl _) (fun o => Agree.get o _ _) b n r).trans definiteArrayLen_run_ok
  refine (AgreeOff.bind (definite_arrayLen e' e) hf).congr fun b y r _ => ?_
  constructor
  · intro h
    obtain ⟨n, s, hn, hW⟩ := h
    obtain ⟨h, hh, rfl⟩ := hrun.mp hn
    exact ⟨n.toNat, h, s, hh, hW, rfl⟩
  · intro h
    obtain ⟨n, h, s, hh, hW, rfl⟩ := h
    have hn : (UInt64.ofNat n).toNat = n := UInt64.toNat_ofNat_of_lt' hh.lt
    refine ⟨UInt64.ofNat n, s, hrun.mpr ⟨h, by rwa [hn], rfl⟩, by rwa [hn]⟩

theorem definiteOff_array {W : Nat → Bytes → Prop} {e' : @DecodeError M.definite}
    {e : @DecodeError M} {f' : UInt64 → @Dec M.definite β} {f : UInt64 → @Dec M β}
    (hf : ∀ n, AgreeOff (W n.toNat) (f' n) (f n)) :
    AgreeOff (InArray W) (@Decoder.array M.definite >>= fun o => Parser.get o e' >>= f')
      (@Decoder.array M >>= fun o => Parser.get o e >>= f) := by
  rw [← Parser.bind_assoc, ← Parser.bind_assoc]
  exact definiteOff_arrayLen hf

/-- A look at the type of the next item, with what is refused of each type. -/
theorem definiteOff_peek {W : Bytes → Prop} {f' : DataType → @Dec M.definite α}
    {f : DataType → @Dec M α}
    (hf : ∀ t b a r, typeOf b = some t →
      ((f' t).run b = .ok (a, r) ↔ (f t).run b = .ok (a, r) ∧ ¬ W b)) :
    AgreeOff W (@Decoder.datatype M.definite >>= f') (@Decoder.datatype M >>= f) := by
  intro b a r
  rw [Parser.run_bind_ok_iff, Parser.run_bind_ok_iff]
  constructor
  · rintro ⟨t, b', hpeek, hrun⟩
    have hpeek' := (definite_datatype b t b').mp hpeek
    obtain ⟨ht, rfl⟩ := datatype_run_ok.mp hpeek'
    obtain ⟨hrun', hW⟩ := (hf t b' a r ht).mp hrun
    exact ⟨⟨t, b', hpeek', hrun'⟩, hW⟩
  · rintro ⟨⟨t, b', hpeek, hrun⟩, hW⟩
    have hpeek' := (definite_datatype b t b').mpr hpeek
    obtain ⟨ht, rfl⟩ := datatype_run_ok.mp hpeek
    exact ⟨t, b', hpeek', (hf t b' a r ht).mpr ⟨hrun, hW⟩⟩

omit M [LawfulMinicbor] in
theorem typeOf_indefiniteArray {b : Bytes} (hb : IndefiniteArray b) :
    typeOf b = some .arrayIndef := by
  cases b with
  | nil => cases hb
  | cons x b =>
      obtain rfl : x = indefiniteByte := Option.some.inj hb
      rfl

omit M [LawfulMinicbor] in
theorem not_indefiniteArray {b : Bytes} {t : DataType} (h : typeOf b = some t)
    (ht : t ≠ .arrayIndef) : ¬ IndefiniteArray b := by
  intro hb
  rw [typeOf_indefiniteArray hb] at h
  exact ht (Option.some.inj h).symm

/-- A magnitude and a sign are an int. -/
theorem criticalMagnitude_run_ok {b r : Bytes} {x : UInt32 × Bool} :
    decodeCriticalMagnitude.run b = .ok (x, r) ↔
      ∃ (n : Int32) (h : Bytes), IntHead n.toInt h ∧ b = h ++ r ∧
        x = (unsignedAbs n, decide (n < 0)) := by
  constructor
  · intro hrun
    obtain ⟨n, b', hn, hpure⟩ := Parser.run_bind_ok_iff.mp hrun
    obtain ⟨h, hh, rfl⟩ := LawfulMinicbor.readI32_ok.mp (Decoder.lift_run_ok.mp hn)
    cases hpure
    exact ⟨n, h, hh, rfl, rfl⟩
  · rintro ⟨n, h, hh, rfl, rfl⟩
    exact Parser.run_bind_of_ok (Decoder.lift_run_ok.mpr (LawfulMinicbor.readI32_ok.mpr
      ⟨h, hh, rfl⟩))

omit [LawfulMinicbor] in
theorem definite_criticalMagnitude : Definite fun _ => decodeCriticalMagnitude :=
  Agree.bind definite_i32 fun _ => Agree.pure _

/-! ### Where it is refused -/

variable [OidCrate] [LawfulOid]

theorem ExtKeyUsage.definiteOff : DefiniteOff IndefiniteArray fun _ => ExtKeyUsage.decode := by
  have hpurpose : ∀ b p r, @IntOrOid.minicborDecode M _ b = .ok (p, r) ↔
      @IntOrOid.minicborDecode M.definite _ b = .ok (p, r) := by
    intro b p r
    rw [← @Decoder.lift_run_ok M, @ExtKeyUsage.minicborDecode_run_ok M,
      ← IntOrOid.definite b p r, ← @ExtKeyUsage.minicborDecode_run_ok M.definite,
      @Decoder.lift_run_ok M.definite]
  have harray : DefiniteOff IndefiniteArray fun N => (do
      return ⟨← @Decoder.vec N _ IntOrOid.minicborDecode⟩ : @Dec N ExtKeyUsage) :=
    AgreeOff.bind_agree (definiteOff_vec (f := fun N => @IntOrOid.minicborDecode N _) hpurpose
      ExtKeyUsage.reads_minicborDecode) fun _ => Agree.pure _
  refine definiteOff_peek fun t b v r ht => ?_
  split
  · exact harray b v r
  · exact harray b v r
  · rename_i hne
    have hb : ¬ IndefiniteArray b := not_indefiniteArray ht hne
    have hsingle : Definite fun _ => (do return ⟨[← IntOrOid.decode]⟩ : Dec ExtKeyUsage) :=
      Agree.bind IntOrOid.definite fun _ => Agree.pure _
    rw [hsingle b v r]
    exact (and_iff_left hb).symm

theorem ExtensionValue.definiteOff (id : UInt32) :
    DefiniteOff (fun b => (id = 8 ∨ id = 38) ∧ IndefiniteArray b)
      fun _ => ExtensionValue.decode id := by
  -- The two ids are met by the vectors, all others by `definite_array_len` or no array at all.
  have hvec : ∀ {α : Type} {n : UInt32} {m' : @Dec M.definite α} {m : @Dec M α}
      {f : α → ExtensionValue}, n = 8 ∨ n = 38 → AgreeOff IndefiniteArray m' m →
      AgreeOff (fun b => (n = 8 ∨ n = 38) ∧ IndefiniteArray b) (do return f (← m'))
        (do return f (← m)) := fun hn hm =>
    (hm.bind_agree fun _ => Agree.pure _).congr fun _ _ _ _ => (and_iff_right hn).symm
  have hother : ∀ {α : Type} {n : UInt32} {m' : @Dec M.definite α} {m : @Dec M α}
      {f : α → ExtensionValue}, ¬ (n = 8 ∨ n = 38) → Agree m' m →
      AgreeOff (fun b => (n = 8 ∨ n = 38) ∧ IndefiniteArray b) (do return f (← m'))
        (do return f (← m)) := fun hn hm =>
    AgreeOff.of_agree (hm.bind fun _ => Agree.pure _) fun _ _ _ _ h => hn h.1
  unfold ExtensionValue.decode
  split
  · exact hother (by decide) definite_bytes
  · exact hother (by decide) definite_u32
  · exact hother (by decide) definite_decodeAltName
  · exact hother (by decide) BasicConstraints.definite
  · exact hother (by decide) DistributionPointName.definite
  · exact hother (by decide) CertificatePolicies.definite
  · exact hother (by decide) AuthorityKeyIdentifier.definite
  · exact hvec (by decide) ExtKeyUsage.definiteOff
  · exact hother (by decide) AccessDescription.definite
  · exact hother (by decide) SubjectDirectoryAttributes.definite
  · exact hother (by decide) definite_decodeAltName
  · exact hother (by decide) NameConstraints.definite
  · exact hother (by decide) PolicyMappings.definite
  · exact hother (by decide) PolicyConstraints.definite
  · exact hother (by decide) DistributionPointName.definite
  · exact hother (by decide) definite_u32
  · exact hother (by decide) AccessDescription.definite
  · exact hother (by decide) definite_decodeIpAddressFamilies
  · exact hother (by decide) definite_decodeAsIdentifiers
  · exact hother (by decide) definite_decodeIpAddressFamilies
  · exact hother (by decide) definite_decodeAsIdentifiers
  · exact hother (by decide) definite_null
  · exact hvec (by decide) (definiteOff_vec (f := fun N => N.readU32) (fun _ _ _ => Iff.rfl)
      reads_u32)
  · rename_i h8 _ _ _ _ _ _ _ _ _ _ _ _ _ _ h38
    exact hother (fun h => h.elim h8 h38) definite_rawItem

/-- An id and the value under it. -/
theorem Extension.definiteOff : DefiniteOff Extension.Indefinite fun _ => Extension.decode := by
  have hcritical : Definite fun _ => Extension.decodeCriticalBytes :=
    Agree.bind (definite_expectArrayLen 1) fun _ => Agree.bind definite_bytes fun _ =>
      Agree.pure _
  have hvalue : Definite fun _ => Extension.decodeOidValue := by
    refine Agree.bind definite_datatype fun t => ?_
    split
    · exact hcritical
    · exact hcritical
    · exact Agree.bind definite_bytes fun _ => Agree.pure _
  have hoid : Definite fun _ => (do
      let oid ← decodeOid
      let x ← decodeOidValue
      return { id := .oid oid, critical := x.1, value := .raw x.2 } : Dec Extension) :=
    Agree.bind definite_decodeOid fun _ => Agree.bind hvalue fun _ => Agree.pure _
  have hint : DefiniteOff Extension.Indefinite fun _ => (do
      let x ← decodeCriticalMagnitude
      let value ← ExtensionValue.decode x.1
      return { id := .int x.1.toInt32, critical := x.2, value } : Dec Extension) := by
    refine (AgreeOff.bind definite_criticalMagnitude fun x =>
      (ExtensionValue.definiteOff x.1).bind_agree fun _ => Agree.pure _).congr fun b _ _ _ => ?_
    have habs : ∀ (n : Int32) (k : UInt32), unsignedAbs n = k ↔ n.toInt.natAbs = k.toNat := by
      intro n k
      rw [← UInt32.toNat_inj, unsignedAbs_toNat]
    constructor
    · intro h
      obtain ⟨x, r, hx, hid, hr⟩ := h
      obtain ⟨n, h, hh, rfl, rfl⟩ := criticalMagnitude_run_ok.mp hx
      exact ⟨n.toInt, h, r, hh, hid.imp (habs n 8).mp (habs n 38).mp, hr, rfl⟩
    · intro h
      obtain ⟨id, h, s, hh, hid, hs, rfl⟩ := h
      have hn : (Int32.ofInt id).toInt = id := Int32.toInt_ofInt_of_le (by omega) (by omega)
      rw [← hn] at hid hh
      exact ⟨_, s, criticalMagnitude_run_ok.mpr ⟨_, h, hh, rfl, rfl⟩,
        hid.imp (habs _ 8).mpr (habs _ 38).mpr, hs⟩
  refine definiteOff_peek fun t b e r ht => ?_
  split
  · have hb : ¬ Extension.Indefinite b := by
      intro h
      obtain ⟨id, h, s, hh, -, -, rfl⟩ := h
      obtain ⟨t', ht', htype⟩ := typeOf_intHead hh
      rw [htype] at ht
      cases ht
      cases ht'
    rw [hoid b e r]
    exact (and_iff_left hb).symm
  · exact hint b e r

theorem Extensions.definiteOff : DefiniteOff Extensions.Indefinite fun _ => Extensions.decode := by
  have hlist : DefiniteOff Extensions.Indefinite fun _ => Extensions.decodeList := by
    refine AgreeOff.bind_agree (definiteOff_arrayLen fun n => ?_) fun _ => Agree.pure _
    refine AgreeOff.ensure fun _ => ?_
    have hloop := AgreeOff.times Extension.definiteOff (n / 2).toNat
    rw [UInt64.toNat_div] at hloop
    have hreserve := AgreeOff.after (definite_withCapacity .extensions (n / 2).toNat)
      (reads_withCapacity _ _) fun _ => hloop
    rwa [After.zero] at hreserve
  have hbare : Definite fun _ => Extensions.decodeKeyUsage :=
    Agree.bind definite_criticalMagnitude fun _ => Agree.pure _
  refine definiteOff_peek fun t b v r ht => ?_
  split
  · exact hlist b v r
  · exact hlist b v r
  · rename_i hne _
    have hb : ¬ Extensions.Indefinite b := by
      intro h
      obtain ⟨n, h, s, hh, -, rfl⟩ := h
      rw [typeOf_head (by omega) (by omega) hh] at ht
      exact hne (Option.some.inj ht).symm
    rw [hbare b v r]
    exact (and_iff_left hb).symm

namespace C509Certificate

theorem definiteOff_decodeFields : DefiniteOff IndefiniteFields fun _ => decodeFields := by
  have hafter : Definite fun _ => decodeNotAfter := by
    refine Agree.bind definite_datatype fun t => ?_
    split
    · exact Agree.bind definite_null fun _ => Agree.pure _
    · exact Agree.bind definite_readTime fun _ => Agree.pure _
  have hfields : DefiniteOff (After 1 <| After 1 <| After 1 <| After 1 <| After 1 <| After 1 <|
      After 1 <| After 1 <| After 1 Extensions.Indefinite) fun _ => decodeFields :=
    AgreeOff.after definite_i32 reads_i32 fun _ =>
    AgreeOff.after definite_readBiguint reads_readBiguint fun _ =>
    AgreeOff.after AlgorithmIdentifier.definite AlgorithmIdentifier.reads fun _ =>
    AgreeOff.after Name.definite_optional Name.reads_optional fun _ =>
    AgreeOff.after definite_readTime reads_readTime fun _ =>
    AgreeOff.after hafter reads_decodeNotAfter fun _ =>
    AgreeOff.after Name.definite Name.reads fun _ =>
    AgreeOff.after AlgorithmIdentifier.definite AlgorithmIdentifier.reads fun _ =>
    AgreeOff.after definite_bytes reads_bytes fun _ =>
    Extensions.definiteOff.bind_agree fun _ => Agree.bind definite_bytes fun _ => Agree.pure _
  simp only [After.after] at hfields
  exact hfields

theorem definiteOff_decodeItem : DefiniteOff IndefiniteItem fun _ => decodeItem := by
  refine definiteOff_array fun n => AgreeOff.ensure fun hn => ?_
  obtain rfl : n = 11 := hn
  exact (definiteOff_decodeFields.mapError _ _).congr fun _ _ _ _ => (and_iff_right rfl).symm

/--
No array header that `dec` reads from `b` is of indefinite length: what it returns, it returns
where such a header is an error.
-/
def ReadsDefinite (dec : (N : Minicbor) → Bytes → Except (@Error N) C509Certificate)
    (b : Bytes) : Prop :=
  ∀ c, dec M b = .ok c → dec M.definite b = .ok c

omit [LawfulMinicbor] [OidCrate] [LawfulOid] in
theorem readsDefinite_iff {W : Bytes → Prop} {m : (N : Minicbor) → @Dec N C509Certificate}
    (hm : DefiniteOff W m) {b : Bytes} {c : C509Certificate} (h : decodeFront (m M) b = .ok c) :
    ReadsDefinite (fun N => @decodeFront N (m N)) b ↔ ¬ W b := by
  obtain ⟨r, hrun⟩ := decodeFront_ok.mp h
  constructor
  · intro hreads
    obtain ⟨r', hrun'⟩ := (@decodeFront_ok M.definite ..).mp (hreads c h)
    exact ((hm b c r').mp hrun').2
  · intro hW c' h'
    obtain rfl : c = c' := Except.ok.inj (h.symm.trans h')
    exact (@decodeFront_ok M.definite ..).mpr ⟨r, (hm b c r).mpr ⟨hrun, hW⟩⟩

/--
**A certificate is read from definite-length arrays exactly where no extKeyUsage and no TLS
feature list is an indefinite-length array.**  Every other array header, at any depth, is of
definite length in whatever is accepted.
-/
theorem definiteArrays_iff {b : Bytes} {c : C509Certificate} :
    (decodeSequence b = .ok c →
      (ReadsDefinite (fun _ => decodeSequence) b ↔ ¬ IndefiniteFields b)) ∧
    (decode b = .ok c → (ReadsDefinite (fun _ => decode) b ↔ ¬ IndefiniteItem b)) :=
  ⟨readsDefinite_iff definiteOff_decodeFields, readsDefinite_iff definiteOff_decodeItem⟩

end C509Certificate

end

namespace C509Certificate

open scoped Reference in
/-- The sample, in both forms. -/
theorem definiteArrays_iff_sample :
    (ReadsDefinite (fun _ => decodeSequence) sampleBytes ↔ ¬ IndefiniteFields sampleBytes) ∧
      (ReadsDefinite (fun _ => decode) (0x8b :: sampleBytes) ↔
        ¬ IndefiniteItem (0x8b :: sampleBytes)) :=
  ⟨definiteArrays_iff.1 sample_decodes, (definiteArrays_iff (c := sample)).2 rfl⟩

/-- The sample with one extension, an extKeyUsage of two purposes. -/
def purposesSample : C509Certificate :=
  { sample with
    tbs := { sample.tbs with
      extensions := ⟨[
        { id := .int 8, critical := false, value := .extKeyUsage ⟨[.int 1, .int 2]⟩ }]⟩ } }

/-- It on the wire, with the purposes as given. -/
def purposesBytes (purposes : Bytes) : Bytes :=
  [0x03, 0x43, 0x01, 0xf5, 0x0d, 0x00, 0x62, 0x43, 0x41, 0x1a, 0x63, 0xb0, 0xcd, 0x00, 0xf6,
    0x84, 0x23, 0x62, 0x53, 0x45, 0x43, 0x55, 0x04, 0x03, 0x41, 0xfe, 0x43, 0x2a, 0x86, 0x48,
    0x41, 0xfe, 0x82, 0x08] ++ purposes ++ [0x41, 0x99]

open scoped Reference in
/-- The two purposes are read alike from `[1, 2]` and from `[_ 1, 2]`. -/
theorem indefiniteArray_accepted :
    decodeSequence (purposesBytes [0x82, 0x01, 0x02]) = .ok purposesSample ∧
      decodeSequence (purposesBytes [0x9f, 0x01, 0x02, 0xff]) = .ok purposesSample ∧
      ¬ ReadsDefinite (fun _ => decodeSequence) (purposesBytes [0x9f, 0x01, 0x02, 0xff]) := by
  refine ⟨rfl, rfl, fun h => ?_⟩
  cases h purposesSample rfl

end C509Certificate

end C509
