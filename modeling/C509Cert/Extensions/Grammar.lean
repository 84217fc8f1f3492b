/-
The grammar of five extension values (`ext_key_usage.rs`, `distribution_point.rs`,
`policy/certificate_policies.rs`, `policy/policy_mappings.rs`,
`subject_directory_attributes.rs`).

The grammars are those at the head of the source files.  They leave two things to their
reader: how large an `int`, a `uint` or an attribute type may be, and whether the least
number of elements that `+` and `2*` ask for is checked.  A `Reading` settles both.  The
crate reads its integers into fixed widths and checks no least number anywhere, so it takes
`[]` where the grammar asks for one element and `[x]` where it asks for two.
-/
import C509Cert.Codec.Cddl
import C509Cert.Extensions.WireForms
import C509Cert.DefiniteArrays

namespace C509

open Cbor Codec

/-! ### The grammars -/

/-- How a grammar is read. -/
structure Reading where
  /-- the least number of elements that is checked, for the one the grammar asks for -/
  least : Nat → Nat
  int : Int → Prop
  uint : Nat → Prop
  attributeType : Int → Prop
  oid : Bytes → Prop

namespace Reading

/-- To the letter. -/
def literal : Reading where
  least n := n
  int _ := True
  uint _ := True
  attributeType _ := True
  oid _ := True

/-- As the crate does: `i32`, `u32`, a sign and a `u16`, the OIDs of the `oid` crate, and any
number of elements. -/
def crate [OidCrate] : Reading where
  least _ := 0
  int v := -2 ^ 31 ≤ v ∧ v < 2 ^ 31
  uint n := n < 2 ^ 32
  attributeType v := v.natAbs < 2 ^ 16
  oid s := (OidCrate.tryFrom s).isSome

variable (R : Reading)

/-- `int / ~oid` -/
def intOrOid : Language UInt8 := Cddl.int R.int + Cddl.bytes R.oid

/-- `[ 2* KeyPurposeId ] / KeyPurposeId` -/
def extKeyUsage : Language UInt8 := Cddl.arrayOf (R.least 2) 1 R.intOrOid + R.intOrOid

/-- `text / bytes / #6.48(bytes)` -/
def specialText : Language UInt8 :=
  Cddl.text + Cddl.bytes (fun _ => True) +
    Cddl.tagged MAC_ADDRESS_TAG.toNat (Cddl.bytes fun s => s.length = 6 ∨ s.length = 8)

/-- `( attributeType: int, attributeValue: S ) // ( attributeType: ~oid, attributeValue: B )` -/
def rdnAttr (S B : Language UInt8) : Language UInt8 :=
  Cddl.int R.attributeType * S + Cddl.bytes R.oid * B

/-- `[ * RDNAttribute ] / SpecialText` -/
def name : Language UInt8 :=
  Cddl.arrayOf 0 2 (R.rdnAttr specialText (Cddl.bytes fun _ => True)) + specialText

/-- `[ 2* text ] / text` -/
def fullName : Language UInt8 := Cddl.arrayOf (R.least 2) 1 Cddl.text + Cddl.text

/-- `[ fullName, reasons: uint / null, cRLIssuer: Name / null ]` -/
def distributionPointName : Language UInt8 :=
  Cddl.array 3 (R.fullName * ((Cddl.uint R.uint + Cddl.null) * (R.name + Cddl.null)))

/-- Distribution points, or the text of one. -/
def distributionPoints : Language UInt8 :=
  Cddl.arrayOf 0 1 R.distributionPointName + Cddl.text

/-- `[ + ( PolicyIdentifier, [ * PolicyQualifierInfo ] ) ]` -/
def certificatePolicies : Language UInt8 :=
  Cddl.arrayOf (R.least 1) 2 (R.intOrOid * Cddl.arrayOf 0 2 (R.intOrOid * Cddl.text))

/-- `[ + ( issuerDomainPolicy: int / ~oid, subjectDomainPolicy: int / ~oid ) ]` -/
def policyMappings : Language UInt8 := Cddl.arrayOf (R.least 1) 2 (R.intOrOid * R.intOrOid)

/-- `[ + RDNAttributes ]`, whose values are `[ + SpecialText ]` and `[ + bytes ]`. -/
def subjectDirectoryAttributes : Language UInt8 :=
  Cddl.arrayOf (R.least 1) 2 (R.rdnAttr (Cddl.arrayOf (R.least 1) 1 specialText)
    (Cddl.arrayOf (R.least 1) 1 (Cddl.bytes fun _ => True)))

end Reading

/-! ### What the reads accept -/

section

variable [Minicbor] [LawfulMinicbor] {α β : Type}

theorem accepts_str : Accepts Decoder.str Cddl.text :=
  .of_denotes (denotes_lift (W := fun s c => ∃ h, Head 3 (utf8 s).length h ∧ c = h ++ utf8 s)
    readStr_iff) fun _ => Cddl.mem_text.symm

theorem accepts_bytes : Accepts Decoder.bytes (Cddl.bytes fun _ => True) :=
  .of_denotes denotes_bytes fun _ => by simp [Cddl.mem_bytes, BytesWire]

theorem accepts_null : Accepts Decoder.null Cddl.null :=
  .of_denotes denotes_null fun _ => by
    constructor
    · rintro ⟨_, rfl⟩
      rfl
    · rintro rfl
      exact ⟨(), rfl⟩

theorem denotes_i32 : Denotes Decoder.i32 fun c n => IntHead n.toInt c :=
  denotes_lift LawfulMinicbor.readI32_ok

theorem accepts_i32 : Accepts Decoder.i32 (Cddl.int fun v => -2 ^ 31 ≤ v ∧ v < 2 ^ 31) :=
  .of_denotes denotes_i32 fun c => by
    rw [Cddl.mem_int]
    constructor
    · rintro ⟨n, hn⟩
      exact ⟨n.toInt, ⟨n.le_toInt, n.toInt_lt⟩, hn⟩
    · rintro ⟨v, ⟨hlo, hhi⟩, hv⟩
      have hn : (Int32.ofInt v).toInt = v := Int32.toInt_ofInt_of_le (by omega) (by omega)
      exact ⟨Int32.ofInt v, by rwa [hn]⟩

theorem accepts_u32 : Accepts Decoder.u32 (Cddl.uint fun n => n < 2 ^ 32) :=
  .of_denotes (denotes_lift LawfulMinicbor.readU32_ok) fun c => by
    rw [Cddl.mem_uint]
    constructor
    · rintro ⟨n, hn⟩
      exact ⟨n.toNat, n.toNat_lt, hn⟩
    · rintro ⟨n, hlt, hn⟩
      have hof : (UInt32.ofNat n).toNat = n := UInt32.toNat_ofNat_of_lt' hlt
      exact ⟨UInt32.ofNat n, by rwa [hof]⟩

theorem denotes_tag : Denotes Decoder.tag fun c n => Head 6 n.toNat c :=
  denotes_lift LawfulMinicbor.readTag_ok

/-- A byte string, of a content that has a value. -/
theorem accepts_bytesValue {g : Bytes → Option α} {e : DecodeError} {P : Bytes → Prop}
    (hP : ∀ s, (g s).isSome ↔ P s) :
    Accepts (do Parser.get (g (← Decoder.bytes)) e : Dec α) (Cddl.bytes P) :=
  .of_denotes (denotes_bytes.compute fun s => Computes.get (g s) e) fun c => by
    rw [Cddl.mem_bytes]
    constructor
    · rintro ⟨a, s, ⟨h, hh, rfl⟩, hs⟩
      exact ⟨s, h, (hP s).mp (Option.isSome_iff_exists.mpr ⟨a, hs⟩), hh, rfl⟩
    · rintro ⟨s, h, hs, hh, rfl⟩
      obtain ⟨a, ha⟩ := Option.isSome_iff_exists.mp ((hP s).mpr hs)
      exact ⟨a, s, ⟨h, hh, rfl⟩, ha⟩

theorem accepts_macBytes : Accepts macBytes (Cddl.bytes fun s => s.length = 6 ∨ s.length = 8) :=
  accepts_bytesValue fun s => by
    unfold MacAddr.ofBytes
    split <;> simp [*]

/-- A look at the type of the next item, which the words of the grammar settle. -/
theorem accepts_peek {f : DataType → Dec β} {L : DataType → Language UInt8}
    {K : Language UInt8} (hf : ∀ t, Accepts (f t) (L t)) (hout : ∀ t, L t ≤ K)
    (hin : ∀ c ∈ K, ∃ t, c ∈ L t ∧ ∀ r, typeOf (c ++ r) = some t) :
    Accepts (Decoder.datatype >>= f) K := by
  intro b r
  constructor
  · rintro ⟨y, hrun⟩
    obtain ⟨t, b', hpeek, hft⟩ := Parser.run_bind_ok_iff.mp hrun
    obtain ⟨-, rfl⟩ := datatype_run_ok.mp hpeek
    obtain ⟨c, hc, rfl⟩ := (hf t b' r).mp ⟨y, hft⟩
    exact ⟨c, hout t hc, rfl⟩
  · rintro ⟨c, hc, rfl⟩
    obtain ⟨t, hct, htype⟩ := hin c hc
    obtain ⟨y, hft⟩ := (hf t (c ++ r) r).mpr ⟨c, hct, rfl⟩
    exact ⟨y, Parser.run_bind_ok_iff.mpr ⟨t, _, datatype_run_ok.mpr ⟨htype r, rfl⟩, hft⟩⟩

/-- A choice of two, where the types in `T` are those of the second. -/
theorem accepts_choice {T : DataType → Prop} {f : DataType → Dec β} {L M : Language UInt8}
    (hf : ∀ t, ¬ T t → Accepts (f t) L) (hg : ∀ t, T t → Accepts (f t) M)
    (hL : Cddl.Typed (fun t => ¬ T t) L) (hM : Cddl.Typed T M) :
    Accepts (Decoder.datatype >>= f) (L + M) := by
  classical
  refine accepts_peek (L := fun t => if T t then M else L) (fun t => ?_) (fun t => ?_)
    fun c hc => ?_
  · by_cases ht : T t
    · rw [if_pos ht]
      exact hg t ht
    · rw [if_neg ht]
      exact hf t ht
  · by_cases ht : T t
    · rw [if_pos ht]
      exact fun c hc => Or.inr hc
    · rw [if_neg ht]
      exact fun c hc => Or.inl hc
  · rcases (Language.mem_add ..).mp hc with hc | hc
    · obtain ⟨t, ht, htype⟩ := hL c hc
      exact ⟨t, by rwa [if_neg ht], htype⟩
    · obtain ⟨t, ht, htype⟩ := hM c hc
      exact ⟨t, by rwa [if_pos ht], htype⟩

/-! ### Arrays -/

section

variable {reserve : Nat → Dec Unit} {m : Dec α} {L : Language UInt8}

/-- `[ * L ]`, of groups of `k` items. -/
theorem accepts_decodeGroups {k : UInt64} {msg : String} (hk : 0 < k.toNat)
    (hreserve : ∀ n, Computes (reserve n) (some ())) (hm : Accepts m L) :
    Accepts (decodeGroups reserve k msg m) (Cddl.arrayOf 0 k.toNat L) := by
  refine .bind_of_denotes denotes_definiteArrayLen (fun n => .ensure fun _ =>
    .step (hreserve _) (hm.times _)) fun c => ?_
  have hgroups := exists_groups_iff hk
    (Q := fun n m => ∃ h d, Head 4 n h ∧ d ∈ L ^ m ∧ c = h ++ d)
  rw [Cddl.mem_arrayOf]
  constructor
  · rintro ⟨n, h, d, hh, ⟨hmod, hd⟩, rfl⟩
    obtain ⟨m, -, h', d', hh', hd', heq⟩ := hgroups.mp ⟨n, hmod, h, d, hh, hd, rfl⟩
    exact ⟨m, h', d', Nat.zero_le m, hh', hd', heq⟩
  · rintro ⟨m, h, d, -, hh, hd, rfl⟩
    obtain ⟨n, hmod, h', d', hh', hd', heq⟩ := hgroups.mpr ⟨m, hh.lt, h, d, hh, hd, rfl⟩
    exact ⟨n, h', d', hh', ⟨hmod, hd'⟩, heq⟩

/-- `[ * L ]`, of single items. -/
theorem accepts_decodeArray (hreserve : ∀ n, Computes (reserve n) (some ()))
    (hm : Accepts m L) : Accepts (decodeArray reserve m) (Cddl.arrayOf 0 1 L) := by
  refine .bind_of_denotes denotes_definiteArrayLen (fun n => .step (hreserve _) (hm.times _))
    fun c => ?_
  have hitems := exists_uint64_iff (Q := fun n => ∃ h d, Head 4 n h ∧ d ∈ L ^ n ∧ c = h ++ d)
  rw [Cddl.mem_arrayOf]
  simp only [Nat.mul_one, Nat.zero_le, true_and]
  exact hitems.trans (exists_congr fun n => and_iff_right_of_imp fun h => by
    obtain ⟨h, d, hh, -, -⟩ := h
    exact hh.lt)

/-- An array of exactly `k` items. -/
theorem accepts_expectArray {k : UInt64} {f : Unit → Dec β} {K : Language UInt8}
    (hf : Accepts (f ()) K) : Accepts (expectArrayLen k >>= f) (Cddl.array k.toNat K) := by
  have hlen : Accepts (expectArrayLen k) (Cddl.head 4 k.toNat) :=
    .of_denotes (denotes_definiteArrayLen.compute fun n => Computes.ensure (n = k) _) fun c => by
      constructor
      · rintro ⟨_, n, hh, hn⟩
        split at hn
        · subst k
          exact hh
        · cases hn
      · exact fun hh => ⟨(), k, hh, if_pos rfl⟩
  exact hlen.bind fun _ => hf

/-- `[ * L ] / text` -/
theorem accepts_arrayOrText {f : DataType → Dec β}
    (harray : ∀ t, t ≠ .string → Accepts (f t) (Cddl.arrayOf 0 1 L))
    (htext : Accepts (f .string) Cddl.text) :
    Accepts (Decoder.datatype >>= f) (Cddl.arrayOf 0 1 L + Cddl.text) := by
  refine accepts_choice (T := fun t => t = .string) harray (fun t ht => ?_)
    ((Cddl.Typed.arrayOf 0 1).weaken ?_) Cddl.Typed.text
  · subst ht
    exact htext
  · rintro _ rfl h
    cases h

end

/-! ### What the decoders accept -/

omit [LawfulMinicbor] in
/-- Reading each element is a loop of as many rounds. -/
theorem eachRead_iff_times {f : Bytes → Except Minicbor.Err (α × Bytes)} {l : List α} :
    ∀ {b r : Bytes}, EachRead f l b r ↔
      (Parser.times l.length (Decoder.lift f)).run b = .ok (l, r) := by
  induction l with
  | nil =>
      intro b r
      constructor
      · rintro ⟨⟩
        rfl
      · rintro ⟨⟩
        exact .nil
  | cons x l ih =>
      intro b r
      constructor
      · rintro ⟨⟩
        rename_i b' hx hl
        refine Parser.run_bind_ok_iff.mpr ⟨x, b', Decoder.lift_run_ok.mpr hx, ?_⟩
        exact Parser.run_bind_of_ok (ih.mp hl)
      · intro hrun
        obtain ⟨x', b', hx, hrest⟩ := Parser.run_bind_ok_iff.mp hrun
        obtain ⟨l', b'', hl, hpure⟩ := Parser.run_bind_ok_iff.mp hrest
        cases hpure
        exact .cons (Decoder.lift_run_ok.mp hx) (ih.mpr hl)

omit [LawfulMinicbor] in
/-- The same up to a break, which no element starts with. -/
theorem eachUntilBreak_iff_times {f : Bytes → Except Minicbor.Err (α × Bytes)} {P : α → Prop}
    (hf : Reads NoPieces 1 (Decoder.lift f) P) {l : List α} :
    ∀ {b r : Bytes}, EachUntilBreak f l b r ↔
      (Parser.times l.length (Decoder.lift f)).run b = .ok (l, breakByte :: r) := by
  induction l with
  | nil =>
      intro b r
      constructor
      · rintro ⟨⟩
        rfl
      · rintro ⟨⟩
        exact .nil
  | cons x l ih =>
      intro b r
      constructor
      · rintro ⟨⟩
        rename_i b' _ hx hl
        refine Parser.run_bind_ok_iff.mpr ⟨x, b', Decoder.lift_run_ok.mpr hx, ?_⟩
        exact Parser.run_bind_of_ok (ih.mp hl)
      · intro hrun
        obtain ⟨x', b', hx, hrest⟩ := Parser.run_bind_ok_iff.mp hrun
        obtain ⟨l', b'', hl, hpure⟩ := Parser.run_bind_ok_iff.mp hrest
        cases hpure
        obtain ⟨c, rfl, hc, -, -⟩ := hf _ _ _ hx
        obtain ⟨y, t, rfl, hne⟩ := (hc.items fun _ => False.elim).cons_ne_break
        refine .cons (fun t' heq => ?_) (Decoder.lift_run_ok.mp hx) (ih.mpr hl)
        exact hne (List.cons.inj heq).1

/-- `minicbor`'s own vector takes an array of either kind of length. -/
theorem accepts_vec {f : Bytes → Except Minicbor.Err (α × Bytes)} {P : α → Prop}
    {L : Language UInt8} (hreads : Reads NoPieces 1 (Decoder.lift f) P)
    (hf : Accepts (Decoder.lift f) L) :
    Accepts (Decoder.vec f) (Cddl.arrayOf 0 1 L + Cddl.indefiniteOf L) := by
  intro b r
  have hvec : ∀ {l}, (Decoder.vec f).run b = .ok (l, r) ↔ _ := fun {l} =>
    Decoder.lift_run_ok.trans (LawfulMinicbor.readVec_ok (shrinks hreads))
  have hloop := hf.times
  have hlength {n : Nat} {l : List α} {d s : Bytes}
      (hl : (Parser.times n (Decoder.lift f)).run d = .ok (l, s)) : l.length = n := by
    obtain ⟨-, -, -, ⟨hlen, -⟩, -⟩ := Reads.times hreads n d l s hl
    exact hlen
  constructor
  · rintro ⟨l, hrun⟩
    rcases hvec.mp hrun with ⟨h, b', hh, rfl, hl⟩ | ⟨hlen, b', rfl, hl⟩
    · obtain ⟨d, hd, rfl⟩ := (hloop l.length b' r).mp ⟨l, eachRead_iff_times.mp hl⟩
      have hword : h ++ d ∈ Cddl.arrayOf 0 1 L :=
        Cddl.mem_arrayOf.mpr ⟨l.length, h, d, Nat.zero_le _, by rwa [Nat.mul_one], hd, rfl⟩
      exact ⟨h ++ d, Or.inl hword, (List.append_assoc ..).symm⟩
    · obtain ⟨d, hd, rfl⟩ := (hloop l.length b' (breakByte :: r)).mp
        ⟨l, (eachUntilBreak_iff_times hreads).mp hl⟩
      exact ⟨_, Or.inr ⟨l.length, d, hlen, hd, rfl⟩, by simp⟩
  · rintro ⟨c, hc, rfl⟩
    rcases (Language.mem_add ..).mp hc with hc | hc
    · obtain ⟨n, h, d, -, hh, hd, rfl⟩ := Cddl.mem_arrayOf.mp hc
      obtain ⟨l, hl⟩ := (hloop n (d ++ r) r).mpr ⟨d, hd, rfl⟩
      obtain rfl := hlength hl
      rw [Nat.mul_one] at hh
      exact ⟨l, hvec.mpr (Or.inl ⟨h, d ++ r, hh, List.append_assoc .., eachRead_iff_times.mpr hl⟩)⟩
    · obtain ⟨n, d, hn, hd, rfl⟩ := hc
      obtain ⟨l, hl⟩ := (hloop n (d ++ breakByte :: r) (breakByte :: r)).mpr ⟨d, hd, rfl⟩
      obtain rfl := hlength hl
      exact ⟨l, hvec.mpr (Or.inr ⟨hn, d ++ breakByte :: r, by simp,
        (eachUntilBreak_iff_times hreads).mpr hl⟩)⟩

omit [LawfulMinicbor] in
theorem computes_withCapacity (site : Site) (n : Nat) :
    Computes (withCapacity site n) (some ()) := Computes.emit _

theorem accepts_taggedMac : Accepts SpecialText.decodeTagged
    (Cddl.tagged MAC_ADDRESS_TAG.toNat (Cddl.bytes fun s => s.length = 6 ∨ s.length = 8)) := by
  refine .bind_of_denotes denotes_tag (fun tag => .ensure fun _ => accepts_macBytes.map)
    fun c => ?_
  rw [Cddl.tagged, Cddl.mem_head_mul]
  constructor
  · rintro ⟨tag, h, d, hh, ⟨rfl, hd⟩, rfl⟩
    exact ⟨h, d, hh, hd, rfl⟩
  · rintro ⟨h, d, hh, hd, rfl⟩
    exact ⟨MAC_ADDRESS_TAG, h, d, hh, ⟨rfl, hd⟩, rfl⟩

theorem accepts_specialText : Accepts SpecialText.decode Reading.specialText := by
  refine accepts_peek (L := fun t =>
    if t = .string then Cddl.text
    else if t = .bytes then Cddl.bytes fun _ => True
    else if t = .tag then
      Cddl.tagged MAC_ADDRESS_TAG.toNat (Cddl.bytes fun s => s.length = 6 ∨ s.length = 8)
    else 0) (fun t => ?_) (fun t c hc => ?_) fun c hc => ?_
  · cases t with
    | string => exact accepts_str.map
    | bytes => exact accepts_bytes.map
    | tag => exact accepts_taggedMac
    | _ => exact .fail _
  · cases t with
    | string => exact Or.inl (Or.inl hc)
    | bytes => exact Or.inl (Or.inr hc)
    | tag => exact Or.inr hc
    | _ => exact absurd hc (Language.notMem_zero c)
  · rcases (Language.mem_add ..).mp hc with hc | hc
    · rcases (Language.mem_add ..).mp hc with hc | hc
      · obtain ⟨t, rfl, htype⟩ := Cddl.Typed.text c hc
        exact ⟨.string, hc, htype⟩
      · obtain ⟨t, rfl, htype⟩ := Cddl.Typed.bytes _ c hc
        exact ⟨.bytes, hc, htype⟩
    · obtain ⟨t, rfl, htype⟩ := Cddl.Typed.tagged _ c hc
      exact ⟨.tag, hc, htype⟩

omit [Minicbor] [LawfulMinicbor] in
theorem typed_specialText : Cddl.Typed SpecialText.IsType Reading.specialText :=
  ((Cddl.Typed.text.weaken fun _ => Or.inl).add
    ((Cddl.Typed.bytes _).weaken fun _ h => Or.inr (Or.inl h))).add
    ((Cddl.Typed.tagged _).weaken fun _ h => Or.inr (Or.inr h))

/-- `uint / null` -/
theorem accepts_decodeOptUint :
    Accepts decodeOptUint (Cddl.uint (fun n => n < 2 ^ 32) + Cddl.null) := by
  refine accepts_choice (T := fun t => t = .null) (fun t ht => ?_) (fun t ht => ?_)
    ((Cddl.Typed.uint _).weaken ?_) Cddl.Typed.null
  · rw [if_neg ht]
    exact accepts_u32.map
  · rw [if_pos ht]
    exact accepts_null.map
  · rintro _ ht rfl
    cases ht

section

variable [OidCrate]

theorem accepts_decodeOid : Accepts decodeOid (Cddl.bytes Reading.crate.oid) :=
  accepts_bytesValue fun _ => Iff.rfl

omit [Minicbor] [LawfulMinicbor] [OidCrate] in
theorem typed_intOrOid (R : Reading) :
    Cddl.Typed (fun t => t ≠ .array ∧ t ≠ .arrayIndef) R.intOrOid := by
  refine Cddl.Typed.add ((Cddl.Typed.int _).weaken ?_) ((Cddl.Typed.bytes _).weaken ?_)
  · rintro t ht
    constructor
    · rintro rfl
      cases ht
    · rintro rfl
      cases ht
  · rintro _ rfl
    decide

theorem accepts_intOrOid : Accepts IntOrOid.decode Reading.crate.intOrOid := by
  refine accepts_choice (T := fun t => t = .bytes) (fun t ht => ?_) (fun t ht => ?_)
    ((Cddl.Typed.int _).weaken ?_) (Cddl.Typed.bytes _)
  · split
    · exact absurd rfl ht
    · exact accepts_i32.map
  · subst ht
    exact accepts_decodeOid.map
  · rintro _ ht rfl
    cases ht

/-- A sign and a `u16` are what an attribute type comes to. -/
theorem accepts_attributeType {f : Int32 → UInt16 → Dec β} {msg : String} {L : Language UInt8}
    (hf : ∀ raw id, Accepts (f raw id) L) :
    Accepts (do
      let raw ← Decoder.i32
      let id ← okOr (u16TryFrom (unsignedAbs raw)) msg
      f raw id) (Cddl.int Reading.crate.attributeType * L) := by
  refine .bind_of_denotes denotes_i32 (fun raw => .get fun id => hf raw id) fun c => ?_
  have hsome : ∀ raw, (u16TryFrom (unsignedAbs raw)).isSome ↔ raw.toInt.natAbs < 2 ^ 16 := by
    intro raw
    rw [u16TryFrom, unsignedAbs_toNat]
    by_cases h : raw.toInt.natAbs < 2 ^ 16
    · rw [if_pos h]
      exact iff_of_true rfl h
    · rw [if_neg h]
      exact iff_of_false Bool.false_ne_true h
  rw [Language.mem_mul]
  constructor
  · rintro ⟨raw, h, d, hh, ⟨hid, hd⟩, rfl⟩
    exact ⟨h, ⟨raw.toInt, (hsome raw).mp hid, hh⟩, d, hd, rfl⟩
  · rintro ⟨h, ⟨v, hv, hh⟩, d, hd, rfl⟩
    have hlt : v.natAbs < 2 ^ 16 := hv
    have hn : (Int32.ofInt v).toInt = v := Int32.toInt_ofInt_of_le (by omega) (by omega)
    exact ⟨Int32.ofInt v, h, d, by rwa [hn], ⟨(hsome _).mpr (by rwa [hn]), hd⟩, rfl⟩

theorem accepts_rdnAttr {S B : Type} [RdnValue S] [RdnValue B] {s b : Language UInt8}
    (hS : Accepts (RdnValue.decode : Dec S) s) (hB : Accepts (RdnValue.decode : Dec B) b) :
    Accepts (RdnAttr.decode : Dec (RdnAttr S B)) (Reading.crate.rdnAttr s b) := by
  refine accepts_choice (T := fun t => t = .bytes) (fun t ht => ?_) (fun t ht => ?_)
    (Cddl.Typed.mul ((Cddl.Typed.int _).weaken ?_)) (Cddl.Typed.bytes _).mul
  · split
    · exact absurd rfl ht
    · exact accepts_attributeType fun _ _ => hS.map
  · subst ht
    exact accepts_decodeOid.bind fun _ => hB.map
  · rintro _ ht rfl
    cases ht

theorem accepts_name : Accepts Name.decode Reading.crate.name := by
  have hattributes : Accepts Name.decodeAttributes (Cddl.arrayOf 0 2
      (Reading.crate.rdnAttr Reading.specialText (Cddl.bytes fun _ => True))) :=
    (accepts_decodeGroups (k := 2) (by decide) (computes_withCapacity .name)
      (accepts_rdnAttr accepts_specialText accepts_bytes)).map
  refine accepts_choice (T := fun t => t ≠ .array ∧ t ≠ .arrayIndef) (fun t ht => ?_)
    (fun t ht => ?_) ((Cddl.Typed.arrayOf 0 2).weaken ?_) (typed_specialText.weaken ?_)
  · split
    · exact hattributes
    · exact hattributes
    · exact absurd ⟨‹_›, ‹_›⟩ ht
  · split
    · exact absurd rfl ht.1
    · exact absurd rfl ht.2
    · exact accepts_specialText.map
  · rintro _ rfl ⟨h, -⟩
    exact h rfl
  · rintro _ (rfl | rfl | rfl) <;> decide

omit [Minicbor] [LawfulMinicbor] [OidCrate] in
theorem typed_name (R : Reading) : Cddl.Typed Name.IsType R.name :=
  ((Cddl.Typed.arrayOf 0 2).weaken fun _ => Or.inl).add (typed_specialText.weaken fun _ => Or.inr)

/-- `Name / null` -/
theorem accepts_decodeOptional :
    Accepts Name.decodeOptional (Reading.crate.name + Cddl.null) := by
  refine accepts_choice (T := fun t => t = .null) (fun t ht => ?_) (fun t ht => ?_)
    ((typed_name _).weaken ?_) Cddl.Typed.null
  · rw [if_neg ht]
    exact accepts_name.map
  · rw [if_pos ht]
    exact accepts_null.map
  · rintro _ (h | h | h | h) rfl <;> cases h

/-! ### The five values -/

namespace ExtKeyUsage

theorem accepts_minicborDecode :
    Accepts (Decoder.lift IntOrOid.minicborDecode) Reading.crate.intOrOid := by
  intro b r
  simp only [minicborDecode_run_ok]
  exact accepts_intOrOid b r

variable [LawfulOid]

/-- **Purposes are `[ * KeyPurposeId ] / KeyPurposeId`, or an array of indefinite length.** -/
theorem accepts : Accepts decode
    (Reading.crate.extKeyUsage + Cddl.indefiniteOf Reading.crate.intOrOid) := by
  have hvec : Accepts (do return ⟨← Decoder.vec IntOrOid.minicborDecode⟩ : Dec ExtKeyUsage)
      (Cddl.arrayOf 0 1 Reading.crate.intOrOid + Cddl.indefiniteOf Reading.crate.intOrOid) :=
    (accepts_vec reads_minicborDecode accepts_minicborDecode).map
  have hsingle : Accepts (do return ⟨[← IntOrOid.decode]⟩ : Dec ExtKeyUsage)
      Reading.crate.intOrOid := accepts_intOrOid.map
  have hchoice : Accepts decode (Cddl.arrayOf 0 1 Reading.crate.intOrOid +
      Cddl.indefiniteOf Reading.crate.intOrOid + Reading.crate.intOrOid) := by
    refine accepts_choice (T := fun t => t ≠ .array ∧ t ≠ .arrayIndef) (fun t ht => ?_)
      (fun t ht => ?_) (((Cddl.Typed.arrayOf 0 1).weaken ?_).add
        (Cddl.Typed.indefiniteOf.weaken ?_)) (typed_intOrOid _)
    · split
      · exact hvec
      · exact hvec
      · exact absurd ⟨‹_›, ‹_›⟩ ht
    · split
      · exact absurd rfl ht.1
      · exact absurd rfl ht.2
      · exact hsingle
    · rintro _ rfl ⟨h, -⟩
      exact h rfl
    · rintro _ rfl ⟨-, h⟩
      exact h rfl
  exact hchoice.congr fun c => by rw [Reading.extKeyUsage, add_right_comm]; rfl

omit [Minicbor] [LawfulMinicbor] [OidCrate] [LawfulOid] in
theorem typed_extKeyUsage (R : Reading) :
    Cddl.Typed (fun t => t ≠ .arrayIndef) R.extKeyUsage := by
  refine ((Cddl.Typed.arrayOf _ 1).weaken ?_).add ((typed_intOrOid R).weaken fun _ h => h.2)
  rintro _ rfl
  decide

/-- **Purposes are `[ * KeyPurposeId ] / KeyPurposeId`**, where no indefinite-length array
stands in their place. -/
theorem decode_run_ok_iff {b r : Bytes} :
    ((∃ v, decode.run b = .ok (v, r)) ∧ ¬ IndefiniteArray b) ↔
      ∃ c ∈ Reading.crate.extKeyUsage, b = c ++ r := by
  rw [accepts b r]
  constructor
  · rintro ⟨⟨c, hc, rfl⟩, hb⟩
    rcases (Language.mem_add ..).mp hc with hc | hc
    · exact ⟨c, hc, rfl⟩
    · obtain ⟨n, d, -, -, rfl⟩ := hc
      exact absurd rfl hb
  · rintro ⟨c, hc, rfl⟩
    obtain ⟨t, ht, htype⟩ := typed_extKeyUsage _ c hc
    exact ⟨⟨c, Or.inl hc, rfl⟩, not_indefiniteArray (htype r) ht⟩

end ExtKeyUsage

namespace DistributionPointName

omit [OidCrate] in
theorem accepts_fullName :
    Accepts decodeFullName (Cddl.arrayOf 0 1 Cddl.text + Cddl.text) := by
  refine accepts_arrayOrText (fun t ht => ?_) accepts_str.map
  split
  · exact absurd rfl ht
  · exact accepts_decodeArray (computes_withCapacity .fullName) accepts_str

theorem accepts_one : Accepts decodeOne Reading.crate.distributionPointName :=
  accepts_expectArray (accepts_fullName.bind fun _ => accepts_decodeOptUint.bind fun _ =>
    accepts_decodeOptional.map)

theorem accepts : Accepts decode Reading.crate.distributionPoints := by
  refine accepts_arrayOrText (fun t ht => ?_) accepts_str.map
  split
  · exact absurd rfl ht
  · exact accepts_decodeArray (computes_withCapacity .distributionPoints) accepts_one

end DistributionPointName

theorem CertificatePolicies.accepts : Accepts decode Reading.crate.certificatePolicies := by
  have hqualifiers : Accepts decodePolicyQualifiers
      (Cddl.arrayOf 0 2 (Reading.crate.intOrOid * Cddl.text)) :=
    accepts_decodeGroups (k := 2) (by decide) (computes_withCapacity .policyQualifiers)
      (accepts_intOrOid.bind fun _ => accepts_str.map)
  exact (accepts_decodeGroups (k := 2) (by decide) (computes_withCapacity .certificatePolicies)
    (accepts_intOrOid.bind fun _ => hqualifiers.map)).map

theorem PolicyMappings.accepts : Accepts decode Reading.crate.policyMappings :=
  (accepts_decodeGroups (k := 2) (by decide) (computes_withCapacity .policyMappings)
    (accepts_intOrOid.bind fun _ => accepts_intOrOid.map)).map

theorem SubjectDirectoryAttributes.accepts :
    Accepts decode Reading.crate.subjectDirectoryAttributes := by
  have hreserve : ∀ n, Computes (withBoundedCapacity .rdnValues n) (some ()) :=
    computes_withBoundedCapacity .rdnValues
  exact (accepts_decodeGroups (k := 2) (by decide) (computes_withCapacity .directoryAttributes)
    (accepts_rdnAttr (accepts_decodeArray hreserve accepts_specialText)
      (accepts_decodeArray hreserve accepts_bytes))).map

end

end

end C509
