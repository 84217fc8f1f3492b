/-
Certificates that are cut short.

A certificate is read from a file or from a stream, and a caller that has only the beginning
of one has to tell `Error::Cbor` at the end of the input, which more bytes may repair, from
every other error, which they cannot.  What is proved is that it can: every beginning of an
accepted certificate is accepted as the whole is, or is refused at the end of the input, and
never as malformed; and an input that is refused for any other reason stays refused, whatever
is appended to it.

The one place that is not plain is the probe of the address families: it looks at an entry
that is read again afterwards, and what it sees of a part has to be what it sees of the whole.
-/
import C509Cert.Codec.Streams
import C509Cert.Minicbor.EndOfInput
import C509Cert.Main

namespace C509

open Cbor Codec Minicbor EndOfInput

section

variable [Minicbor] [EndOfInput]

/-- `Error::Cbor` at the end of the input. -/
def DecodeError.Truncated : DecodeError → Prop
  | .cbor e => isEndOfInput e
  | .malformed _ => False

/-- `Error::Cbor` at the end of the input. -/
def Error.Truncated : Error → Prop
  | .decode e => e.Truncated
  | .x509 _ | .json _ => False

/-- A decoder reports where its input ends. -/
abbrev Feeds {α : Type} (m : Dec α) : Prop := Streams DecodeError.Truncated m

/-! ### The beginnings of an accepted input -/

/--
From some length on, the beginnings of an accepted input are accepted as the same certificate,
and below it they are refused at the end of the input.
-/
def AnswersPrefixes (d : Bytes → Except Error C509Certificate) : Prop :=
  ∀ b c, d b = .ok c → ∃ n, n ≤ b.length ∧ ∀ p, p <+: b →
    (n ≤ p.length → d p = .ok c) ∧ (p.length < n → ∃ e, d p = .error e ∧ e.Truncated)

/-- A failure that is not at the end of the input stays one, whatever is appended. -/
theorem AnswersPrefixes.final {d : Bytes → Except Error C509Certificate} (hd : AnswersPrefixes d)
    {b : Bytes} {e : Error} (h : d b = .error e) (he : ¬ e.Truncated) (s : Bytes)
    (c : C509Certificate) : d (b ++ s) ≠ .ok c := by
  intro hok
  obtain ⟨n, -, hpart⟩ := hd _ c hok
  obtain ⟨hsame, hcut⟩ := hpart b ⟨s, rfl⟩
  by_cases hn : n ≤ b.length
  · rw [hsame hn] at h
    cases h
  · obtain ⟨e', he', hend⟩ := hcut (Nat.not_le.mp hn)
    rw [h] at he'
    cases he'
    exact he hend

theorem answersPrefixes_decodeFront {m : Dec C509Certificate} {k : Nat}
    {P : C509Certificate → Prop} (hm : Feeds m) (hreads : Reads Skipped k m P) :
    AnswersPrefixes (C509Certificate.decodeFront m) := by
  intro b c h
  obtain ⟨r, hrun⟩ := C509Certificate.decodeFront_ok.mp h
  obtain ⟨n, hn, hpart⟩ := hm.decided hreads hrun
  refine ⟨n, hn, fun p hp => ⟨fun hle => ?_, fun hlt => ?_⟩⟩
  · obtain ⟨t, ht⟩ := (hpart p hp).1 hle
    exact C509Certificate.decodeFront_ok.mpr ⟨t, ht⟩
  · obtain ⟨e, he, hS⟩ := (hpart p hp).2 hlt
    exact ⟨.decode e, by rw [C509Certificate.decodeFront, he], hS⟩

/-! ### `minicbor::Decoder` -/

section Reads

variable {α : Type} {f : Bytes → Except Minicbor.Err (α × Bytes)} {X : Bytes → Prop}

/-- A read that is decided by what it takes, and reports its end. -/
theorem feeds_lift
    (hf : ∀ b a r, f b = .ok (a, r) → ∃ c, b = c ++ r ∧ ∀ r', f (c ++ r') = .ok (a, r'))
    (hend : ReportsEnd isEndOfInput f) : Feeds (Decoder.lift f) := by
  intro p s a r hrun
  have hread : f (p ++ s) = .ok (a, r) := Decoder.lift_run_ok.mp hrun
  obtain ⟨c, hc, hy⟩ := hf _ a r hread
  by_cases hcut : r.length < s.length
  · obtain ⟨e, he, hS⟩ := hend p s a r hread hcut
    exact Or.inr ⟨.cbor e, by simp only [Decoder.lift, he], hS⟩
  · obtain ⟨t, rfl, ht⟩ := append_split hc (Nat.not_lt.mp hcut)
    exact Or.inl ⟨t, ht, Decoder.lift_run_ok.mpr (hy t)⟩

theorem feeds_of_reads {k : Nat} {P : α → Prop} (hf : Reads X k (Decoder.lift f) P)
    (hend : ReportsEnd isEndOfInput f) : Feeds (Decoder.lift f) := by
  refine feeds_lift (fun b a r hread => ?_) hend
  obtain ⟨c, hc, -, -, hy⟩ := hf b a r (Decoder.lift_run_ok.mpr hread)
  exact ⟨c, hc, fun r' => Decoder.lift_run_ok.mp (hy r')⟩

theorem feeds_result (x : Except String α) : Feeds (result x) := by
  cases x with
  | ok a => exact Streams.pure a
  | error msg => exact Streams.fail _

omit [EndOfInput] in
theorem whole_of_reads {P : α → Prop} (hf : Reads X 1 (Decoder.lift f) P) : Whole f := by
  intro b a r hread
  obtain ⟨c, hc, hitem, -, hy⟩ := hf b a r (Decoder.lift_run_ok.mpr hread)
  have hpos : 0 < c.length := hitem.le_length
  exact ⟨c, List.length_pos_iff.mp hpos, hc, fun r' => Decoder.lift_run_ok.mp (hy r')⟩

variable [LawfulMinicbor] [LawfulEndOfInput]

theorem feeds_datatype : Feeds Decoder.datatype := by
  intro p s t r hrun
  obtain ⟨htype, rfl⟩ := datatype_run_ok.mp hrun
  rcases LawfulEndOfInput.datatype (LawfulMinicbor.datatype_ok.mpr htype) with h | ⟨e, he, hS⟩
  · exact Or.inl ⟨p, rfl, datatype_run_ok.mpr ⟨LawfulMinicbor.datatype_ok.mp h, rfl⟩⟩
  · exact Or.inr ⟨.cbor e, by simp only [Decoder.datatype, Decoder.lift, he], hS⟩

theorem feeds_u16 : Feeds Decoder.u16 :=
  feeds_of_reads (X := Skipped) reads_u16 LawfulEndOfInput.readU16

theorem feeds_u32 : Feeds Decoder.u32 :=
  feeds_of_reads (X := Skipped) reads_u32 LawfulEndOfInput.readU32

theorem feeds_u64 : Feeds Decoder.u64 :=
  feeds_of_reads (X := Skipped) reads_u64 LawfulEndOfInput.readU64

theorem feeds_i32 : Feeds Decoder.i32 :=
  feeds_of_reads (X := Skipped) reads_i32 LawfulEndOfInput.readI32

theorem feeds_int : Feeds Decoder.int :=
  feeds_of_reads (X := Skipped) reads_int LawfulEndOfInput.readInt

theorem feeds_bytes : Feeds Decoder.bytes :=
  feeds_of_reads (X := Skipped) reads_bytes LawfulEndOfInput.readBytes

theorem feeds_str : Feeds Decoder.str :=
  feeds_of_reads (X := Skipped) reads_str LawfulEndOfInput.readStr

theorem feeds_null : Feeds Decoder.null :=
  feeds_of_reads (X := Skipped) reads_null LawfulEndOfInput.readNull

theorem feeds_tag : Feeds Decoder.tag := by
  refine feeds_lift (fun b t r hread => ?_) LawfulEndOfInput.readTag
  obtain ⟨h, hh, hb⟩ := LawfulMinicbor.readTag_ok.mp hread
  exact ⟨h, hb, fun r' => LawfulMinicbor.readTag_ok.mpr ⟨h, hh, rfl⟩⟩

theorem feeds_array : Feeds Decoder.array := by
  refine feeds_lift (fun b o r hread => ?_) LawfulEndOfInput.readArray
  cases o with
  | none =>
      have hb := LawfulMinicbor.readArray_none.mp hread
      exact ⟨[initial 4 31], hb, fun r' => LawfulMinicbor.readArray_none.mpr rfl⟩
  | some n =>
      obtain ⟨h, hh, hb⟩ := LawfulMinicbor.readArray_some.mp hread
      exact ⟨h, hb, fun r' => LawfulMinicbor.readArray_some.mpr ⟨h, hh, rfl⟩⟩

theorem feeds_skip : Feeds Decoder.skip := by
  refine feeds_lift (fun b u r hread => ?_) LawfulEndOfInput.skip
  obtain ⟨c, hb, hc⟩ := LawfulMinicbor.skip_skipped hread
  exact ⟨c, hb, hc⟩

/-- A vector reports its end where its elements do. -/
theorem feeds_vec {P : α → Prop} (hf : Reads NoPieces 1 (Decoder.lift f) P)
    (hend : ReportsEnd isEndOfInput f) : Feeds (Decoder.vec f) :=
  feeds_of_reads (X := NoPieces) (reads_vec hf) (LawfulEndOfInput.readVec (whole_of_reads hf) hend)

/-- A look at the type of the next item comes before one of several forms. -/
theorem feeds_peek {β : Type} {g : DataType → Dec β} (hg : ∀ t, Feeds (g t)) :
    Feeds (Decoder.datatype >>= g) := feeds_datatype.bind hg

end Reads

variable [LawfulMinicbor] [LawfulEndOfInput]

/-! ### Arrays and the shared parts -/

theorem feeds_definiteArrayLen : Feeds definiteArrayLen :=
  feeds_array.bind fun _ => Streams.get _ _

theorem feeds_expectArrayLen (want : UInt64) : Feeds (expectArrayLen want) :=
  feeds_definiteArrayLen.bind fun _ => Streams.ensure _ _

section Arrays

variable {α : Type} {reserve : Nat → Dec Unit} {m : Dec α}

theorem feeds_decodeArray (hreserve : ∀ n, Feeds (reserve n)) (hm : Feeds m) :
    Feeds (decodeArray reserve m) :=
  feeds_definiteArrayLen.bind fun _ => (hreserve _).bind fun _ => hm.times _

theorem feeds_decodeGroups {k : UInt64} {msg : String} (hreserve : ∀ n, Feeds (reserve n))
    (hm : Feeds m) : Feeds (decodeGroups reserve k msg m) :=
  feeds_definiteArrayLen.bind fun _ => (Streams.ensure _ _).bind fun _ =>
    (hreserve _).bind fun _ => hm.times _

/-- An item that may be `null` instead. -/
theorem feeds_nullable {β : Type} {g : α → β} {b : β} (hm : Feeds m) :
    Feeds (do
      if (← Decoder.datatype) = .null then
        Decoder.null
        return b
      else return g (← m)) := by
  refine feeds_peek fun t => ?_
  split
  · exact feeds_null.map
  · exact hm.map

end Arrays

omit [LawfulMinicbor] [LawfulEndOfInput] in
theorem feeds_withCapacity (site : Site) (n : Nat) : Feeds (withCapacity site n) :=
  Streams.emit _

omit [LawfulMinicbor] [LawfulEndOfInput] in
theorem feeds_withBoundedCapacity (site : Site) (n : Nat) : Feeds (withBoundedCapacity site n) :=
  Streams.emit _

theorem feeds_decodeOptUint : Feeds decodeOptUint := feeds_nullable feeds_u32

theorem feeds_readBiguint : Feeds readBiguint := feeds_bytes.map

theorem feeds_readTime : Feeds readTime :=
  feeds_u64.bind fun _ => (Streams.get _ _).bind fun _ => Streams.get _ _

/-- What is captured of a raw item does not depend on where the input ends. -/
theorem feeds_rawItem : Feeds rawItem := by
  intro p s raw r hrun
  obtain ⟨hc, hraw⟩ := rawItem_run_ok.mp hrun
  have hskip : Decoder.skip.run (p ++ s) = .ok ((), r) := by
    rw [hc]
    exact Decoder.lift_run_ok.mpr (hraw r)
  rcases feeds_skip p s () r hskip with ⟨t, rfl, -⟩ | ⟨e, he, hS⟩
  · obtain rfl : p = raw ++ t := List.append_cancel_right (by rw [hc, List.append_assoc])
    exact Or.inl ⟨t, rfl, rawItem_run hraw t⟩
  · exact Or.inr ⟨e, by simp only [rawItem, he], hS⟩

theorem feeds_macBytes : Feeds macBytes := feeds_bytes.bind fun _ => Streams.get _ _

variable [OidCrate]

theorem feeds_decodeOid : Feeds decodeOid := feeds_bytes.bind fun _ => Streams.get _ _

theorem IntOrOid.feeds : Feeds IntOrOid.decode := by
  refine feeds_peek fun t => ?_
  split
  · exact feeds_decodeOid.map
  · exact feeds_i32.map

/-- The error of an element is turned into one of `minicbor`, and still says where it ends. -/
theorem IntOrOid.minicborDecode_reportsEnd [LawfulOid] :
    ReportsEnd isEndOfInput IntOrOid.minicborDecode := by
  intro p s v r hread hlt
  have hrun : IntOrOid.decode.run (p ++ s) = .ok (v, r) :=
    ExtKeyUsage.minicborDecode_run_ok.mp (Decoder.lift_run_ok.mpr hread)
  rcases IntOrOid.feeds p s v r hrun with ⟨t, rfl, -⟩ | ⟨e, he, hS⟩
  · rw [List.length_append] at hlt
    omega
  · cases e with
    | cbor e =>
        refine ⟨e, ?_, hS⟩
        simp only [IntOrOid.minicborDecode, he, DecodeError.intoMinicbor]
    | malformed msg => exact hS.elim

theorem AlgorithmIdentifier.feeds : Feeds AlgorithmIdentifier.decode := by
  have hparameters : Feeds AlgorithmIdentifier.decodeWithParameters :=
    feeds_definiteArrayLen.bind fun _ => (Streams.ensure _ _).bind fun _ =>
      feeds_decodeOid.bind fun _ => feeds_bytes.map
  refine feeds_peek fun t => ?_
  split
  · exact hparameters
  · exact hparameters
  · exact feeds_decodeOid.map
  · exact feeds_i32.map

/-! ### Names -/

omit [OidCrate] in
theorem SpecialText.feeds : Feeds SpecialText.decode := by
  refine feeds_peek fun t => ?_
  split
  · exact feeds_str.map
  · exact feeds_bytes.map
  · exact feeds_tag.bind fun _ => (Streams.ensure _ _).bind fun _ => feeds_macBytes.map
  · exact Streams.fail _

theorem RdnAttr.feeds {S B : Type} [RdnValue S] [RdnValue B]
    (hS : Feeds (RdnValue.decode : Dec S)) (hB : Feeds (RdnValue.decode : Dec B)) :
    Feeds (RdnAttr.decode : Dec (RdnAttr S B)) := by
  refine feeds_peek fun t => ?_
  split
  · exact feeds_decodeOid.bind fun _ => hB.map
  · exact feeds_i32.bind fun _ => (Streams.get _ _).bind fun _ => hS.map

theorem Name.feeds : Feeds Name.decode := by
  have hattributes : Feeds Name.decodeAttributes :=
    (feeds_decodeGroups (feeds_withCapacity _) (RdnAttr.feeds SpecialText.feeds feeds_bytes)).map
  refine feeds_peek fun t => ?_
  split
  · exact hattributes
  · exact hattributes
  · exact SpecialText.feeds.map

theorem Name.feeds_optional : Feeds Name.decodeOptional := feeds_nullable Name.feeds

/-! ### Extension values -/

theorem GeneralNameValue.feeds (k : Option GeneralNameKind) :
    Feeds (GeneralNameValue.decode k) := by
  have htyped : ∀ make, Feeds (GeneralNameValue.decodeTyped make) := fun _ =>
    (feeds_expectArrayLen 2).bind fun _ => feeds_decodeOid.bind fun _ => feeds_bytes.map
  unfold GeneralNameValue.decode
  split
  · exact feeds_macBytes.map
  · exact feeds_str.map
  · exact htyped _
  · exact htyped _
  · exact feeds_str.map
  · exact feeds_str.map
  · exact Name.feeds.map
  · exact feeds_str.map
  · exact feeds_bytes.map
  · exact feeds_decodeOid.map
  · exact feeds_rawItem.map
  · exact feeds_rawItem.map

theorem feeds_generalNames : Feeds decodeGeneralNames :=
  feeds_decodeGroups (feeds_withCapacity _)
    (feeds_i32.bind fun _ => (GeneralNameValue.feeds _).map)

theorem feeds_altName : Feeds decodeAltName := by
  refine feeds_peek fun t => ?_
  split
  · exact feeds_str.map
  · exact feeds_generalNames

theorem AuthorityKeyIdentifier.feeds : Feeds AuthorityKeyIdentifier.decode := by
  refine feeds_peek fun t => ?_
  split
  · exact feeds_bytes.map
  · exact (feeds_expectArrayLen 3).bind fun _ => feeds_bytes.bind fun _ =>
      feeds_generalNames.bind fun _ => feeds_readBiguint.map

theorem NameConstraints.feeds : Feeds NameConstraints.decode := by
  have hsubtree : Feeds NameConstraints.decodeOptGeneralSubtree :=
    feeds_nullable feeds_generalNames
  exact (feeds_expectArrayLen 2).bind fun _ => hsubtree.bind fun _ => hsubtree.map

omit [OidCrate] in
theorem BasicConstraints.feeds : Feeds BasicConstraints.decode := by
  refine feeds_i32.bind fun v => ?_
  split_ifs
  · exact Streams.pure _
  · exact Streams.pure _
  · exact Streams.pure _
  · exact Streams.fail _

theorem ExtKeyUsage.feeds [LawfulOid] : Feeds ExtKeyUsage.decode := by
  have hvec : Feeds (Decoder.vec IntOrOid.minicborDecode) :=
    feeds_vec ExtKeyUsage.reads_minicborDecode IntOrOid.minicborDecode_reportsEnd
  refine feeds_peek fun t => ?_
  split
  · exact hvec.map
  · exact hvec.map
  · exact IntOrOid.feeds.map

theorem AccessDescription.feeds : Feeds AccessDescription.decode :=
  feeds_decodeGroups (feeds_withCapacity _) (IntOrOid.feeds.bind fun _ => feeds_str.map)

theorem DistributionPointName.feeds : Feeds DistributionPointName.decode := by
  have hfull : Feeds DistributionPointName.decodeFullName := by
    refine feeds_peek fun t => ?_
    split
    · exact feeds_str.map
    · exact feeds_decodeArray (feeds_withCapacity _) feeds_str
  have hone : Feeds DistributionPointName.decodeOne :=
    (feeds_expectArrayLen 3).bind fun _ => hfull.bind fun _ => feeds_decodeOptUint.bind fun _ =>
      Name.feeds_optional.map
  refine feeds_peek fun t => ?_
  split
  · exact feeds_str.map
  · exact feeds_decodeArray (feeds_withCapacity _) hone

theorem CertificatePolicies.feeds : Feeds CertificatePolicies.decode := by
  have hqualifiers : Feeds CertificatePolicies.decodePolicyQualifiers :=
    feeds_decodeGroups (feeds_withCapacity _) (IntOrOid.feeds.bind fun _ => feeds_str.map)
  exact (feeds_decodeGroups (feeds_withCapacity _)
    (IntOrOid.feeds.bind fun _ => hqualifiers.map)).map

omit [OidCrate] in
theorem PolicyConstraints.feeds : Feeds PolicyConstraints.decode :=
  (feeds_expectArrayLen 2).bind fun _ => feeds_decodeOptUint.bind fun _ => feeds_decodeOptUint.map

theorem PolicyMappings.feeds : Feeds PolicyMappings.decode :=
  (feeds_decodeGroups (feeds_withCapacity _) (IntOrOid.feeds.bind fun _ => IntOrOid.feeds.map)).map

theorem SubjectDirectoryAttributes.feeds : Feeds SubjectDirectoryAttributes.decode := by
  have hlist : ∀ {α : Type} {m : Dec α}, Feeds m →
      Feeds (decodeArray (withBoundedCapacity .rdnValues) m) :=
    fun hm => feeds_decodeArray (feeds_withBoundedCapacity _) hm
  exact (feeds_decodeGroups (feeds_withCapacity _)
    (RdnAttr.feeds (hlist SpecialText.feeds) (hlist feeds_bytes))).map

/-! ### Address families and AS identifiers -/

section Addresses

omit [OidCrate]

theorem feeds_singleOrRange {α : Type} {msg : String} {single range : Dec α}
    (hsingle : Feeds single) (hrange : Feeds range) :
    Feeds (decodeSingleOrRange msg single range) := by
  have harray : Feeds (do
      let n ← definiteArrayLen
      ensure (n = 2) msg
      range) :=
    feeds_definiteArrayLen.bind fun _ => (Streams.ensure _ _).bind fun _ => hrange
  refine feeds_peek fun t => ?_
  split
  · exact harray
  · exact harray
  · exact hsingle

theorem feeds_decodeEntry (afi : UInt16) (isIntForm : Bool) (c : Chain) :
    Feeds (decodeEntry afi isIntForm c) := by
  have hbound : ∀ fill, Feeds (decodeBound afi fill) := fun _ =>
    feeds_bytes.bind fun _ => (feeds_result _).bind fun _ => (Streams.ensure _ _).bind fun _ =>
      feeds_result _
  unfold decodeEntry
  split
  · refine feeds_singleOrRange ?_ ?_
    · exact feeds_int.bind fun _ => (feeds_result _).bind fun _ => (feeds_result _).map
    · exact feeds_int.bind fun _ => feeds_int.bind fun _ => (feeds_result _).bind fun _ =>
        (feeds_result _).bind fun _ => (feeds_result _).bind fun _ => (feeds_result _).map
  · refine feeds_singleOrRange ?_ ?_
    · exact feeds_bytes.bind fun _ => (feeds_result _).bind fun _ => (feeds_result _).map
    · exact (hbound 0x00).bind fun _ => (hbound 0xFF).map

/-- The probe sees of the first entry what it would see of the whole, or where it ends. -/
theorem feeds_peekForm : Feeds peekForm := by
  have hrange : Feeds peekRangeForm := feeds_definiteArrayLen.bind fun _ => feeds_datatype.map
  refine feeds_peek fun t => ?_
  split
  · exact hrange
  · exact hrange
  · exact Streams.pure _

theorem feeds_decodeEntries (afi : UInt16) : Feeds (decodeEntries afi) := by
  refine feeds_definiteArrayLen.bind fun n => ?_
  split
  · exact Streams.pure _
  · exact feeds_peekForm.probe.bind fun form => (feeds_withBoundedCapacity _ _).bind fun _ =>
      (Streams.iterate (feeds_decodeEntry afi form) _ _).map

theorem feeds_decodeFamily : Feeds decodeFamily := by
  have hchoice : ∀ afi, Feeds (decodeIpAddressChoice afi) := by
    intro afi
    refine feeds_peek fun t => ?_
    split
    · exact feeds_null.map
    · exact feeds_decodeEntries afi
  have hsafi : Feeds decodeSafi := feeds_nullable feeds_u16
  exact feeds_u16.bind fun afi => hsafi.bind fun _ => (hchoice afi).map

theorem feeds_ipAddressFamilies : Feeds decodeIpAddressFamilies :=
  feeds_decodeGroups (feeds_withBoundedCapacity _) feeds_decodeFamily

theorem feeds_asIdentifiers : Feeds decodeAsIdentifiers := by
  have hentry : ∀ c, Feeds (decodeAsEntry c) := by
    intro c
    refine feeds_singleOrRange ?_ ?_
    · exact feeds_int.bind fun _ => (Streams.get _ _).map
    · exact feeds_int.bind fun _ => feeds_int.bind fun _ => (Streams.get _ _).bind fun _ =>
        (Streams.get _ _).map
  refine feeds_peek fun t => ?_
  split
  · exact feeds_null.map
  · exact feeds_definiteArrayLen.bind fun _ => (feeds_withBoundedCapacity _ _).bind fun _ =>
      (Streams.iterate hentry _ _).map

end Addresses

/-! ### Extensions -/

theorem ExtensionValue.feeds [LawfulOid] (id : UInt32) : Feeds (ExtensionValue.decode id) := by
  unfold ExtensionValue.decode
  split
  · exact feeds_bytes.map
  · exact feeds_u32.map
  · exact feeds_altName.map
  · exact BasicConstraints.feeds.map
  · exact DistributionPointName.feeds.map
  · exact CertificatePolicies.feeds.map
  · exact AuthorityKeyIdentifier.feeds.map
  · exact ExtKeyUsage.feeds.map
  · exact AccessDescription.feeds.map
  · exact SubjectDirectoryAttributes.feeds.map
  · exact feeds_altName.map
  · exact NameConstraints.feeds.map
  · exact PolicyMappings.feeds.map
  · exact PolicyConstraints.feeds.map
  · exact DistributionPointName.feeds.map
  · exact feeds_u32.map
  · exact AccessDescription.feeds.map
  · exact feeds_ipAddressFamilies.map
  · exact feeds_asIdentifiers.map
  · exact feeds_ipAddressFamilies.map
  · exact feeds_asIdentifiers.map
  · exact feeds_null.map
  · exact (feeds_vec reads_u32 LawfulEndOfInput.readU32).map
  · exact feeds_rawItem.map

omit [OidCrate] in
theorem feeds_criticalMagnitude : Feeds decodeCriticalMagnitude := feeds_i32.map

theorem Extension.feeds [LawfulOid] : Feeds Extension.decode := by
  have hbytes : Feeds Extension.decodeCriticalBytes :=
    (feeds_expectArrayLen 1).bind fun _ => feeds_bytes.map
  have hvalue : Feeds Extension.decodeOidValue := by
    refine feeds_peek fun t => ?_
    split
    · exact hbytes
    · exact hbytes
    · exact feeds_bytes.map
  refine feeds_peek fun t => ?_
  split
  · exact feeds_decodeOid.bind fun _ => hvalue.map
  · exact feeds_criticalMagnitude.bind fun _ => (ExtensionValue.feeds _).map

theorem Extensions.feeds [LawfulOid] : Feeds Extensions.decode := by
  have hlist : Feeds Extensions.decodeList :=
    (feeds_decodeGroups (feeds_withCapacity _) Extension.feeds).map
  refine feeds_peek fun t => ?_
  split
  · exact hlist
  · exact hlist
  · exact feeds_criticalMagnitude.map

/-! ### Certificates -/

namespace C509Certificate

theorem feeds_decodeFields [LawfulOid] : Feeds decodeFields :=
  feeds_i32.bind fun _ =>
  feeds_readBiguint.bind fun _ =>
  AlgorithmIdentifier.feeds.bind fun _ =>
  Name.feeds_optional.bind fun _ =>
  feeds_readTime.bind fun _ =>
  (feeds_nullable feeds_readTime : Feeds decodeNotAfter).bind fun _ =>
  Name.feeds.bind fun _ =>
  AlgorithmIdentifier.feeds.bind fun _ =>
  feeds_bytes.bind fun _ =>
  Extensions.feeds.bind fun _ =>
  feeds_bytes.map

/-- The array form turns every error into one of `minicbor`, and keeps those of the end. -/
theorem feeds_decodeItem [LawfulOid] : Feeds decodeItem := by
  refine feeds_array.bind fun _ => (Streams.get _ _).bind fun _ =>
    (Streams.ensure _ _).bind fun _ => feeds_decodeFields.mapError fun e he => ?_
  cases e with
  | cbor e => exact he
  | malformed msg => exact he.elim

theorem decode_answersPrefixes [LawfulOid] : AnswersPrefixes decode :=
  answersPrefixes_decodeFront feeds_decodeItem reads_decodeItem

theorem decodeSequence_answersPrefixes [LawfulOid] : AnswersPrefixes decodeSequence :=
  answersPrefixes_decodeFront feeds_decodeFields reads_decodeFields

end C509Certificate

/-! ### The command line -/

omit [EndOfInput] [LawfulEndOfInput] in
/-- Of an accepted array form, the first byte shows that it is one. -/
theorem startsArray_of_part {b p : Bytes} {c : C509Certificate}
    (h : C509Certificate.decode b = .ok c) (hp : p <+: b) (hne : p ≠ []) :
    C509Certificate.StartsArray p := by
  obtain ⟨head, r, hh, rfl, -⟩ := C509Certificate.decode_ok_iff.mp h
  obtain ⟨x, t, rfl, hdiv, hmod⟩ := hh.exists_cons (by decide)
  obtain ⟨y, q, rfl⟩ := List.exists_cons_of_ne_nil hne
  obtain ⟨s, hs⟩ := hp
  obtain ⟨rfl, -⟩ := List.cons.inj hs
  refine Or.inl (LawfulMinicbor.datatype_ok.mpr ?_)
  simp only [typeOf, hdiv, sizedType, if_pos hmod]

omit [EndOfInput] [LawfulEndOfInput] in
/-- Of an accepted bare form, no beginning shows an array. -/
theorem not_startsArray_of_part {b p : Bytes} {c : C509Certificate}
    (h : C509Certificate.decodeSequence b = .ok c) (hp : p <+: b) :
    ¬ C509Certificate.StartsArray p := by
  obtain ⟨s, rfl⟩ := hp
  intro hstarts
  refine C509Certificate.not_startsArray_of_decodeSequence h ?_
  have hseen : ∀ {t}, Minicbor.datatype p = .ok t → Minicbor.datatype (p ++ s) = .ok t :=
    fun ht => LawfulMinicbor.datatype_ok.mpr
      (Reference.typeOf_of_cut s (LawfulMinicbor.datatype_ok.mp ht))
  exact hstarts.imp hseen hseen

/-- No bytes at all are the bare form, cut short. -/
theorem decodeCertificate_nil : ∃ e, decodeCertificate [] = .error e ∧ e.Truncated := by
  have hnone : ∀ t, Minicbor.datatype [] ≠ .ok t := by
    intro t ht
    cases LawfulMinicbor.datatype_ok.mp ht
  have hbare : decodeCertificate [] = C509Certificate.decodeSequence [] :=
    decodeCertificate_of_not_startsArray (not_or.mpr ⟨hnone _, hnone _⟩)
  have hone : Decoder.i32.run ([] ++ [0x00]) = .ok (0, []) :=
    Decoder.lift_run_ok.mpr (LawfulMinicbor.readI32_ok.mpr
      ⟨[0x00], Or.inl ⟨by decide, Head.short (by decide)⟩, rfl⟩)
  rcases feeds_i32 _ _ _ _ hone with ⟨t, ht, -⟩ | ⟨e, he, hS⟩
  · exact absurd (congrArg List.length ht) (by simp)
  · have hfields : C509Certificate.decodeFields.run [] = .error e := by
      rw [C509Certificate.decodeFields, Parser.run_bind, he]
    exact ⟨.decode e, by rw [hbare, C509Certificate.decodeSequence, C509Certificate.decodeFront,
      hfields], hS⟩

/-- The first item is seen early enough to decide the form of a part as that of the whole. -/
theorem decodeCertificate_answersPrefixes [LawfulOid] : AnswersPrefixes decodeCertificate := by
  intro b c h
  rcases ((decodeCertificate_ok_iff b).1 c).mp h with harray | hbare
  · obtain ⟨n, hn, hpart⟩ := C509Certificate.decode_answersPrefixes b c harray
    refine ⟨n, hn, fun p hp => ?_⟩
    obtain ⟨hsame, hcut⟩ := hpart p hp
    refine ⟨fun hle => ((decodeCertificate_ok_iff p).1 c).mpr (Or.inl (hsame hle)), fun hlt => ?_⟩
    by_cases hne : p = []
    · subst hne
      exact decodeCertificate_nil
    · rw [decodeCertificate_of_startsArray (startsArray_of_part harray hp hne)]
      exact hcut hlt
  · obtain ⟨n, hn, hpart⟩ := C509Certificate.decodeSequence_answersPrefixes b c hbare
    refine ⟨n, hn, fun p hp => ?_⟩
    rw [decodeCertificate_of_not_startsArray (not_startsArray_of_part hbare hp)]
    exact hpart p hp

/--
**Truncation is told from malformation**, by both decoders and by the program that picks one.
The beginnings of an accepted input are accepted as the same certificate or refused at the end
of the input, and an input that is refused for another reason is refused with anything after it.
-/
theorem truncation_reported [LawfulOid] {d : Bytes → Except Error C509Certificate}
    (hd : d = C509Certificate.decode ∨ d = C509Certificate.decodeSequence ∨ d = decodeCertificate) :
    AnswersPrefixes d ∧ ∀ b e, d b = .error e → ¬ e.Truncated → ∀ s c, d (b ++ s) ≠ .ok c := by
  have hprefixes : AnswersPrefixes d := by
    rcases hd with rfl | rfl | rfl
    · exact C509Certificate.decode_answersPrefixes
    · exact C509Certificate.decodeSequence_answersPrefixes
    · exact decodeCertificate_answersPrefixes
  exact ⟨hprefixes, fun b e h he => hprefixes.final h he⟩

end

/-! ### The reference instance -/

namespace Reporting

scoped instance minicbor : Minicbor := Minicbor.reportingReference

scoped instance lawfulMinicbor : LawfulMinicbor := Minicbor.reportingReference_lawful

scoped instance endOfInput : EndOfInput := Minicbor.reportingEnd

scoped instance lawfulEndOfInput : LawfulEndOfInput := Minicbor.reportingEnd_lawful

scoped instance oidCrate : OidCrate := OidCrate.reference

scoped instance lawfulOid : LawfulOid := OidCrate.reference_lawful

end Reporting

open scoped Reporting in
open C509Certificate in
/-- The sample cut anywhere, and an input whose second item is a text. -/
theorem truncation_reported_sample :
    (∃ n, n ≤ sampleBytes.length ∧ ∀ p, p <+: sampleBytes →
      (n ≤ p.length → decodeCertificate p = .ok sample) ∧
        (p.length < n → ∃ e, decodeCertificate p = .error e ∧ e.Truncated)) ∧
      ∀ s c, decodeCertificate ([0x02, 0x61] ++ s) ≠ .ok c :=
  ⟨(truncation_reported (Or.inr (Or.inr rfl))).1 sampleBytes sample rfl,
    (truncation_reported (Or.inr (Or.inr rfl))).2 [0x02, 0x61]
      (.decode (.cbor "unexpected type")) rfl
      fun h => absurd (show "unexpected type" = "end of input" from h) (by decide)⟩

end C509
