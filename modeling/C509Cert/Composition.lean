/-
Certificates, put together from their parts.

The extensions of an accepted certificate can be taken out of it, one by one, and others put
in: whatever decodes as an extension on its own decodes as that extension in the list, in any
place and beside any others, and the rest of the certificate stays what it was.  An extension
the crate does not know is one of these, as long as its value is one item.

So a list can be cut down, put in another order or added to without a look at its members, and
what a newer issuer adds costs an older reader nothing.
-/
import C509Cert.Forms
import C509Cert.Framing

namespace C509

open Cbor Codec

section

variable [Minicbor] [OidCrate] [LawfulMinicbor]

/-! ### Lists of extensions -/

namespace Extensions

omit [OidCrate] in
/-- The head of a list of groups. -/
theorem yields_decodeGroups {α : Type} {m : Dec α} {msg : String} {site : Site}
    {parts : List (Bytes × α)} (hparts : ∀ x ∈ parts, Yields m x.1 x.2) {head : Bytes}
    (hh : Head 4 (parts.length * 2) head) :
    Yields (decodeGroups (withCapacity site) 2 msg m) (head ++ parts.flatMap Prod.fst)
      (parts.map Prod.snd) := by
  have hn : (UInt64.ofNat (parts.length * 2)).toNat = parts.length * 2 :=
    UInt64.toNat_ofNat_of_lt' hh.lt
  have hlen : Yields definiteArrayLen head (UInt64.ofNat (parts.length * 2)) := fun r =>
    definiteArrayLen_run_ok.mpr ⟨head, by rwa [hn], rfl⟩
  have hmod : UInt64.ofNat (parts.length * 2) % 2 = 0 := by
    apply UInt64.toNat_inj.mp
    rw [UInt64.toNat_mod, hn]
    exact Nat.mul_mod_left _ _
  have hdiv : (UInt64.ofNat (parts.length * 2) / 2).toNat = parts.length := by
    rw [UInt64.toNat_div, hn]
    exact Nat.mul_div_cancel _ (by decide)
  refine hlen.bind ?_
  intro r
  rw [Parser.run_bind_of_ok (Parser.run_ensure hmod _ _), hdiv]
  exact (yields_withCapacity site parts.length).bind (Yields.times hparts) r

theorem yields_parts {parts : List (Bytes × Extension)}
    (hparts : ∀ x ∈ parts, Yields Extension.decode x.1 x.2) {head : Bytes}
    (hh : Head 4 (parts.length * 2) head) :
    Yields decode (head ++ parts.flatMap Prod.fst) ⟨parts.map Prod.snd⟩ := by
  intro r
  have hpeek : Decoder.datatype.run (head ++ parts.flatMap Prod.fst ++ r) =
      .ok (.array, head ++ parts.flatMap Prod.fst ++ r) := by
    rw [datatype_run_ok, List.append_assoc]
    exact ⟨typeOf_head (by decide) (by decide) hh _, rfl⟩
  rw [decode, Parser.run_bind_of_ok hpeek]
  exact Parser.run_bind_of_ok (yields_decodeGroups hparts hh r)

/-- The array form falls into its head and one part for each extension. -/
theorem decodeList_parts [LawfulOid] {b r : Bytes} {v : Extensions}
    (h : decodeList.run b = .ok (v, r)) :
    ∃ (head : Bytes) (parts : List (Bytes × Extension)), Head 4 (parts.length * 2) head ∧
      b = head ++ parts.flatMap Prod.fst ++ r ∧ parts.map Prod.snd = v.exts ∧
        ∀ x ∈ parts, Yields Extension.decode x.1 x.2 := by
  obtain ⟨l, r', hgroups, hpure⟩ := Parser.run_bind_ok_iff.mp h
  cases hpure
  obtain ⟨n, b₁, hlen, h₁⟩ := Parser.run_bind_ok_iff.mp hgroups
  obtain ⟨head, hh, rfl⟩ := definiteArrayLen_run_ok.mp hlen
  obtain ⟨_, b₂, hensure, h₂⟩ := Parser.run_bind_ok_iff.mp h₁
  obtain ⟨hmod, rfl⟩ := Parser.run_ensure_ok_iff.mp hensure
  obtain ⟨_, b₃, hreserve, hloop⟩ := Parser.run_bind_ok_iff.mp h₂
  cases hreserve
  obtain ⟨parts, hcount, rfl, rfl, hy⟩ := Extension.reads.times_parts hloop
  have heven : n.toNat % 2 = 0 := by
    have := congrArg UInt64.toNat hmod
    rwa [UInt64.toNat_mod] at this
  have hhalf : parts.length = n.toNat / 2 := by rw [hcount, UInt64.toNat_div]; rfl
  have hn : parts.length * 2 = n.toNat := by omega
  exact ⟨head, parts, by rwa [hn], by rw [List.append_assoc], rfl, hy⟩

/-- A list that is no keyUsage alone stands in an array. -/
theorem decode_parts [LawfulOid] {b r : Bytes} {v : Extensions} (h : decode.run b = .ok (v, r))
    (hlist : v.bareKeyUsage = none) :
    ∃ (head : Bytes) (parts : List (Bytes × Extension)), Head 4 (parts.length * 2) head ∧
      b = head ++ parts.flatMap Prod.fst ++ r ∧ parts.map Prod.snd = v.exts ∧
        ∀ x ∈ parts, Yields Extension.decode x.1 x.2 := by
  unfold decode at h
  obtain ⟨t, b', hpeek, hrun⟩ := Parser.run_bind_ok_iff.mp h
  obtain ⟨-, rfl⟩ := datatype_run_ok.mp hpeek
  split at hrun
  · exact decodeList_parts hrun
  · exact decodeList_parts hrun
  · obtain ⟨x, r', -, hpure⟩ := Parser.run_bind_ok_iff.mp hrun
    cases hpure
    rw [bareKeyUsage_eq_some.mpr rfl] at hlist
    cases hlist

end Extensions

/-- An unknown id in front of any item. -/
theorem Extension.yields_unknown [LawfulOid] {n : Int32} {h item : Bytes} (hh : IntHead n.toInt h)
    (hid : unsignedAbs n ∉ ExtensionValue.registeredIds) (hitem : Item item) :
    Yields Extension.decode (h ++ item)
      { id := .int (unsignedAbs n).toInt32, critical := decide (n < 0), value := .raw item } := by
  intro r
  rw [List.append_assoc, Extension.decode_intHead hh, ExtensionValue.decode_of_unregistered hid]
  exact Parser.run_bind_of_ok
    (Parser.run_bind_of_ok (rawItem_run (LawfulMinicbor.skip_item hitem) r))

/-! ### Certificates -/

namespace C509Certificate

/-- The certificate with other extensions. -/
def withExtensions (c : C509Certificate) (v : Extensions) : C509Certificate :=
  { c with tbs := { c.tbs with extensions := v } }

/-- The extensions of a certificate stand on their own. -/
theorem decodeFields_split [LawfulOid] {b r : Bytes} {c : C509Certificate}
    (h : decodeFields.run b = .ok (c, r)) :
    ∃ p d s, b = p ++ (d ++ s) ++ r ∧ (∃ t, Extensions.decode.run (d ++ t) =
      .ok (c.tbs.extensions, t)) ∧
      ∀ d' v, Yields Extensions.decode d' v →
        Yields decodeFields (p ++ (d' ++ s)) (c.withExtensions v) := by
  obtain ⟨certType, c₁, b₁, rfl, hy₁, h₁⟩ := Reads.split (X := Skipped) reads_i32 h
  obtain ⟨serial, c₂, b₂, rfl, hy₂, h₂⟩ := Reads.split (X := Skipped) reads_readBiguint h₁
  obtain ⟨sig, c₃, b₃, rfl, hy₃, h₃⟩ := Reads.split (X := Skipped) AlgorithmIdentifier.reads h₂
  obtain ⟨issuer, c₄, b₄, rfl, hy₄, h₄⟩ := Reads.split (X := Skipped) Name.reads_optional h₃
  obtain ⟨before, c₅, b₅, rfl, hy₅, h₅⟩ := Reads.split (X := Skipped) reads_readTime h₄
  obtain ⟨after, c₆, b₆, rfl, hy₆, h₆⟩ := Reads.split (X := Skipped) reads_decodeNotAfter h₅
  obtain ⟨subject, c₇, b₇, rfl, hy₇, h₇⟩ := Reads.split (X := Skipped) Name.reads h₆
  obtain ⟨pk, c₈, b₈, rfl, hy₈, h₈⟩ := Reads.split (X := Skipped) AlgorithmIdentifier.reads h₇
  obtain ⟨key, c₉, b₉, rfl, hy₉, h₉⟩ := Reads.split (X := Skipped) reads_bytes h₈
  obtain ⟨exts, d, b₁₀, rfl, hy, h₁₀⟩ := Reads.split (X := Skipped) Extensions.reads h₉
  obtain ⟨value, s, b₁₁, rfl, hy₁₁, hpure⟩ := Reads.split (X := Skipped) reads_bytes h₁₀
  cases hpure
  refine ⟨c₁ ++ (c₂ ++ (c₃ ++ (c₄ ++ (c₅ ++ (c₆ ++ (c₇ ++ (c₈ ++ c₉))))))), d, s,
    by simp only [List.append_assoc], ⟨_, hy (s ++ r)⟩, fun d' v hv => ?_⟩
  have hwhole : Yields decodeFields
      (c₁ ++ (c₂ ++ (c₃ ++ (c₄ ++ (c₅ ++ (c₆ ++ (c₇ ++ (c₈ ++ (c₉ ++ (d' ++ (s ++ [])))))))))))
      _ :=
    hy₁.bind <| hy₂.bind <| hy₃.bind <| hy₄.bind <| hy₅.bind <| hy₆.bind <| hy₇.bind <|
      hy₈.bind <| hy₉.bind <| hv.bind <| hy₁₁.bind <| Yields.pure _
  simp only [List.append_nil, List.append_assoc] at hwhole ⊢
  exact hwhole

/-- Where the extensions stand in an input that `dec` accepts, and what may stand there. -/
structure Composition (dec : Bytes → Except Error C509Certificate) (b : Bytes)
    (c : C509Certificate) where
  /-- everything before the list -/
  front : Bytes
  head : Bytes
  /-- the extensions, each with its bytes -/
  parts : List (Bytes × Extension)
  /-- everything after it -/
  back : Bytes
  input : b = front ++ (head ++ (parts.flatMap Prod.fst ++ back))
  counted : Head 4 (parts.length * 2) head
  values : parts.map Prod.snd = c.tbs.extensions.exts
  read : ∀ x ∈ parts, Yields Extension.decode x.1 x.2
  /-- any other list of parts, behind a head that counts them, makes the certificate with
  those extensions -/
  replace : ∀ (parts' : List (Bytes × Extension)) (head' : Bytes),
    (∀ x ∈ parts', Yields Extension.decode x.1 x.2) → Head 4 (parts'.length * 2) head' →
      dec (front ++ (head' ++ (parts'.flatMap Prod.fst ++ back))) =
        .ok (c.withExtensions ⟨parts'.map Prod.snd⟩)

theorem composition_decodeSequence [LawfulOid] {b : Bytes} {c : C509Certificate}
    (h : decodeSequence b = .ok c) (hlist : c.tbs.extensions.bareKeyUsage = none) :
    Nonempty (Composition decodeSequence b c) := by
  obtain ⟨r, hrun⟩ := decodeFront_ok.mp h
  obtain ⟨p, d, s, rfl, ⟨t, hexts⟩, hreplace⟩ := decodeFields_split hrun
  obtain ⟨head, parts, hh, hd, hvalues, hparts⟩ := Extensions.decode_parts hexts hlist
  obtain rfl := List.append_cancel_right hd
  refine ⟨⟨p, head, parts, s ++ r, by simp only [List.append_assoc], hh, hvalues, hparts, ?_⟩⟩
  intro parts' head' hparts' hh'
  have hy := hreplace _ _ (Extensions.yields_parts hparts' hh')
  have hfront := decodeFront_of_yields hy r
  simp only [List.append_assoc] at hfront
  exact hfront

/--
**A certificate is put together from its extensions.**  In both forms, the bytes of an accepted
certificate whose list is no keyUsage alone fall into one part for each extension, and with any
other parts in their place, fewer, more, or in another order, they are accepted as the
certificate with the extensions of those parts.
-/
theorem decoded_composition [LawfulOid] {b : Bytes} {c : C509Certificate}
    (hlist : c.tbs.extensions.bareKeyUsage = none) :
    (decodeSequence b = .ok c → Nonempty (Composition decodeSequence b c)) ∧
      (decode b = .ok c → Nonempty (Composition decode b c)) := by
  refine ⟨fun h => composition_decodeSequence h hlist, fun h => ?_⟩
  obtain ⟨wrapper, b', hwrapper, rfl, hdec⟩ := decode_ok_iff.mp h
  obtain ⟨comp⟩ := composition_decodeSequence hdec hlist
  refine ⟨⟨wrapper ++ comp.front, comp.head, comp.parts, comp.back, ?_, comp.counted,
    comp.values, comp.read, ?_⟩⟩
  · conv_lhs => rw [comp.input]
    rw [List.append_assoc]
  · intro parts' head' hparts' hh'
    rw [List.append_assoc]
    exact decode_ok_iff.mpr ⟨wrapper, _, hwrapper, rfl, comp.replace parts' head' hparts' hh'⟩

/-- The extension that an unknown id makes of an item. -/
def unknownExtension (n : Int32) (item : Bytes) : Extension :=
  { id := .int (unsignedAbs n).toInt32, critical := decide (n < 0), value := .raw item }

omit [LawfulMinicbor] in
/-- One more part, at any place in the list. -/
theorem Composition.insert {dec : Bytes → Except Error C509Certificate} {b : Bytes}
    {c : C509Certificate} (comp : Composition dec b c) {l₁ l₂ : List Extension}
    (hsplit : c.tbs.extensions.exts = l₁ ++ l₂) :
    ∃ before after : Bytes, b = comp.front ++ (comp.head ++ (before ++ (after ++ comp.back))) ∧
      ∀ (d head' : Bytes) (e : Extension), Yields Extension.decode d e →
        Head 4 ((l₁ ++ e :: l₂).length * 2) head' →
          dec (comp.front ++ (head' ++ (before ++ (d ++ (after ++ comp.back))))) =
            .ok (c.withExtensions ⟨l₁ ++ e :: l₂⟩) := by
  obtain ⟨p₁, p₂, hparts, rfl, rfl⟩ := List.map_eq_append_iff.mp (comp.values.trans hsplit)
  refine ⟨p₁.flatMap Prod.fst, p₂.flatMap Prod.fst, ?_, fun d head' e hd hh' => ?_⟩
  · conv_lhs => rw [comp.input, hparts, List.flatMap_append, List.append_assoc]
  · have hread : ∀ x ∈ p₁ ++ (d, e) :: p₂, Yields Extension.decode x.1 x.2 := by
      intro x hx
      rcases List.mem_append.mp hx with hx | hx
      · exact comp.read x (hparts ▸ List.mem_append_left _ hx)
      · rcases List.mem_cons.mp hx with rfl | hx
        · exact hd
        · exact comp.read x (hparts ▸ List.mem_append_right _ hx)
    have hrun := comp.replace (p₁ ++ (d, e) :: p₂) head' hread (by simpa using hh')
    simpa [List.flatMap_append] using hrun

/--
**An extension the crate does not know costs an accepted certificate nothing.**  Put in at any
place of a list that is no keyUsage alone, behind a head that counts it, it is kept raw, and
everything else is decoded as before; in both forms.
-/
theorem decode_with_unknown [LawfulOid] {b : Bytes} {c : C509Certificate}
    {l₁ l₂ : List Extension} (hsplit : c.tbs.extensions.exts = l₁ ++ l₂)
    (hlist : c.tbs.extensions.bareKeyUsage = none) {dec : Bytes → Except Error C509Certificate}
    (hdec : dec = decode ∨ dec = decodeSequence) (h : dec b = .ok c) :
    ∃ front head before after back : Bytes,
      b = front ++ (head ++ (before ++ (after ++ back))) ∧
      ∀ (n : Int32) (idHead item head' : Bytes), IntHead n.toInt idHead →
        unsignedAbs n ∉ ExtensionValue.registeredIds → Item item →
        Head 4 ((l₁ ++ unknownExtension n item :: l₂).length * 2) head' →
          dec (front ++ (head' ++ (before ++ (idHead ++ item ++ (after ++ back))))) =
            .ok (c.withExtensions ⟨l₁ ++ unknownExtension n item :: l₂⟩) := by
  obtain ⟨comp⟩ : Nonempty (Composition dec b c) := by
    rcases hdec with rfl | rfl
    · exact (decoded_composition hlist).2 h
    · exact (decoded_composition hlist).1 h
  obtain ⟨before, after, hb, hinsert⟩ := comp.insert hsplit
  exact ⟨comp.front, comp.head, before, after, comp.back, hb,
    fun n idHead item head' hid hunknown hitem hh' =>
      hinsert _ head' _ (Extension.yields_unknown hid hunknown hitem) hh'⟩

end C509Certificate

end

open scoped Reference in
/-- The sample, whose four extensions are in an array. -/
theorem C509Certificate.decoded_composition_sample :
    Nonempty (Composition decodeSequence sampleBytes sample) :=
  (decoded_composition rfl).1 sample_decodes

open scoped Reference in
/-- A critical extension of id 37 behind the first extension of the sample. -/
theorem C509Certificate.decode_with_unknown_sample :
    ∃ front head before after back : Bytes,
      sampleBytes = front ++ (head ++ (before ++ (after ++ back))) ∧
      decodeSequence (front ++ ([0x8a] ++
        (before ++ ([0x38, 0x24] ++ [0xf6] ++ (after ++ back))))) =
          .ok (sample.withExtensions ⟨sample.tbs.extensions.exts.take 1 ++
            unknownExtension (-37) [0xf6] :: sample.tbs.extensions.exts.drop 1⟩) := by
  obtain ⟨front, head, before, after, back, hb, hinsert⟩ :=
    decode_with_unknown (List.take_append_drop 1 _).symm rfl (Or.inr rfl) sample_decodes
  refine ⟨front, head, before, after, back, hb,
    hinsert (-37) [0x38, 0x24] [0xf6] [0x8a] ?_ ?_ ?_ ?_⟩
  · exact Or.inr ⟨by decide, Head.long 0 (by decide) (by decide)⟩
  · decide
  · exact Items.simple (h := [0xf6]) (Head.short (n := 22) (by decide)) (by decide) Items.nil
  · exact Head.short (by decide)

end C509
