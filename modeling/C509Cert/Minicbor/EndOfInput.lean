/-
Where `minicbor` reports the end of its input (`decode::Error::is_end_of_input`).

Each of its readers returns such an error where it is cut short within what it would have
taken.  The reference reader has one text for most of its errors; here it is made to tell this
one from the others, by the head it could not read.
-/
import C509Cert.Minicbor.Reference

namespace Minicbor

open Cbor

/-- Cut short within what it takes, `f` fails with an error in `S`. -/
def ReportsEnd {ε α : Type} (S : ε → Prop) (f : Bytes → Except ε (α × Bytes)) : Prop :=
  ∀ p s a r, f (p ++ s) = .ok (a, r) → r.length < s.length → ∃ e, f p = .error e ∧ S e

/-- What `f` takes is not nothing, and decides its value. -/
def Whole {ε α : Type} (f : Bytes → Except ε (α × Bytes)) : Prop :=
  ∀ b a r, f b = .ok (a, r) → ∃ c, c ≠ [] ∧ b = c ++ r ∧ ∀ r', f (c ++ r') = .ok (a, r')

/-- The errors at the end of the input. -/
class EndOfInput [Minicbor] where
  /-- `decode::Error::is_end_of_input` -/
  isEndOfInput : Minicbor.Err → Prop

open EndOfInput in
/-- The documented behaviour of the readers at the end of their input. -/
class LawfulEndOfInput [Minicbor] [EndOfInput] : Prop where
  datatype {p s : Bytes} {t : DataType} (h : Minicbor.datatype (p ++ s) = .ok t) :
    Minicbor.datatype p = .ok t ∨ ∃ e, Minicbor.datatype p = .error e ∧ isEndOfInput e
  readU16 : ReportsEnd isEndOfInput Minicbor.readU16
  readU32 : ReportsEnd isEndOfInput Minicbor.readU32
  readU64 : ReportsEnd isEndOfInput Minicbor.readU64
  readI32 : ReportsEnd isEndOfInput Minicbor.readI32
  readInt : ReportsEnd isEndOfInput Minicbor.readInt
  readBytes : ReportsEnd isEndOfInput Minicbor.readBytes
  readStr : ReportsEnd isEndOfInput Minicbor.readStr
  readArray : ReportsEnd isEndOfInput Minicbor.readArray
  readTag : ReportsEnd isEndOfInput Minicbor.readTag
  readNull : ReportsEnd isEndOfInput Minicbor.readNull
  skip : ReportsEnd isEndOfInput Minicbor.skip
  /-- as long as the elements are read by something that reports it as well -/
  readVec {α : Type} {f : Bytes → Except Minicbor.Err (α × Bytes)} (hf : Whole f)
    (hend : ReportsEnd isEndOfInput f) : ReportsEnd isEndOfInput (Minicbor.readVec f)

/-! ### What is cut -/

/-- A cut behind what was taken first. -/
theorem append_split {p s c b : Bytes} (h : p ++ s = c ++ b) (hle : s.length ≤ b.length) :
    ∃ t, p = c ++ t ∧ b = t ++ s := by
  rcases List.append_eq_append_iff.mp h with ⟨t, hc, hs⟩ | ⟨t, hp, hb⟩
  · obtain rfl : t = [] := by
      have hlen := congrArg List.length hs
      rw [List.length_append] at hlen
      exact List.length_eq_zero_iff.mp (by omega)
    exact ⟨[], by simpa using hc.symm, hs.symm⟩
  · exact ⟨t, hp, hb⟩

namespace Reference

/-- The input ends within its head. -/
def cutHead : Bytes → Bool
  | [] => true
  | x :: r => 24 ≤ x.toNat % 32 && x.toNat % 32 < 28 && r.length < 2 ^ (x.toNat % 32 - 24)

theorem cutHead_of_head {m n : Nat} {p t : Bytes} (hm : m < 8) (hh : Head m n (p ++ t))
    (ht : t ≠ []) : cutHead p = true := by
  have hlt : 0 < t.length := List.length_pos_iff.mpr ht
  cases p with
  | nil => rfl
  | cons x p =>
      rw [List.cons_append] at hh
      generalize hb : x :: (p ++ t) = b at hh
      cases hh with
      | short hn =>
          have hnil := (List.cons.inj hb).2
          exact absurd (List.append_eq_nil_iff.mp hnil).2 ht
      | long w hw hn =>
          obtain ⟨rfl, hrest⟩ := List.cons.inj hb
          have hlen := congrArg List.length hrest
          rw [List.length_append, be_length] at hlen
          have hx : (initial m (24 + w)).toNat % 32 = 24 + w := by
            rw [initial_toNat hm (by omega)]
            omega
          have hw' : 24 + w - 24 = w := by omega
          simp only [cutHead, hx, hw', Bool.and_eq_true, decide_eq_true_eq]
          omega

/-- What is left of a head that is cut does not begin with another head. -/
theorem head_of_cut {m n m' n' : Nat} {p t h r : Bytes} (hm : m < 8) (hh : Head m n (p ++ t))
    (ht : t ≠ []) (hm' : m' < 8) (hh' : Head m' n' h) : p ≠ h ++ r := by
  intro hp
  have heq : h ++ (r ++ t) = p ++ t ++ [] := by
    rw [List.append_nil, ← List.append_assoc, ← hp]
  obtain ⟨-, -, -, hrest⟩ := Head.unique hm' hm hh' hh heq
  exact ht (List.append_eq_nil_iff.mp hrest).2

/-- The error at the end of the input. -/
def atEnd (e : String) : Prop := e = "end of input"

/-- `f`, with the error at the end of the input where its head is cut. -/
def reporting {α : Type} (f : Bytes → Except String (α × Bytes)) (b : Bytes) :
    Except String (α × Bytes) :=
  match f b with
  | .ok v => .ok v
  | .error e => if cutHead b then .error "end of input" else .error e

theorem reporting_ok {α : Type} {f : Bytes → Except String (α × Bytes)} {b : Bytes}
    {v : α × Bytes} : reporting f b = .ok v ↔ f b = .ok v := by
  unfold reporting
  cases f b with
  | ok v' => exact Iff.rfl
  | error e => by_cases hcut : cutHead b = true <;> simp [hcut]

/-- An error that is the one of the end, or that of a head that is cut. -/
theorem reporting_end {α : Type} {f : Bytes → Except String (α × Bytes)} {b : Bytes} {e : String}
    (hf : f b = .error e) (h : cutHead b = true ∨ atEnd e) :
    ∃ e', reporting f b = .error e' ∧ atEnd e' := by
  unfold reporting
  rw [hf]
  by_cases hcut : cutHead b = true
  · exact ⟨_, if_pos hcut, rfl⟩
  · exact ⟨e, if_neg hcut, h.resolve_left hcut⟩

theorem reporting_error {α : Type} {f : Bytes → Except String (α × Bytes)} {b : Bytes} {e : String}
    (h : reporting f b = .error e) (hend : atEnd e) :
    ∃ e', f b = .error e' ∧ (cutHead b = true ∨ atEnd e') := by
  unfold reporting at h
  cases hf : f b with
  | ok v =>
      rw [hf] at h
      cases h
  | error e' =>
      rw [hf] at h
      by_cases hcut : cutHead b = true
      · exact ⟨e', rfl, Or.inl hcut⟩
      · simp only [hcut, Bool.false_eq_true, if_false, Except.error.injEq] at h
        exact ⟨e', rfl, Or.inr (h ▸ hend)⟩

variable {α : Type} {f : Bytes → Except String (α × Bytes)}

/-- What a reader takes is a head, or the first byte of something of indefinite length. -/
def TakesHead (f : Bytes → Except String (α × Bytes)) : Prop :=
  ∀ b a r, f b = .ok (a, r) →
    (∃ m n h, m < 8 ∧ Head m n h ∧ b = h ++ r) ∨ ∃ x, x.toNat % 32 = 31 ∧ b = x :: r

/-- A head that is cut is not read as another. -/
theorem TakesHead.error_of_cut (hf : TakesHead f) {m n : Nat} {p t : Bytes} (hm : m < 8)
    (hh : Head m n (p ++ t)) (ht : t ≠ []) : ∃ e, f p = .error e := by
  cases hcut : f p with
  | error e => exact ⟨e, rfl⟩
  | ok v =>
      rcases hf p v.1 v.2 hcut with ⟨m', n', h, hm', hh', hp⟩ | ⟨x, hx, hp⟩
      · exact absurd hp (head_of_cut hm hh ht hm' hh')
      · obtain ⟨y, l, hy, -, hlt⟩ := hh.exists_cons hm
        rw [hp, List.cons_append] at hy
        rw [← (List.cons.inj hy).1, hx] at hlt
        omega

theorem TakesHead.reportsEnd (hf : TakesHead f) : ReportsEnd atEnd (reporting f) := by
  intro p s a r hrun hlt
  rcases hf _ a r (reporting_ok.mp hrun) with ⟨m, n, h, hm, hh, hps⟩ | ⟨x, hx, hps⟩
  · rcases List.append_eq_append_iff.mp hps with ⟨t, hhead, hs⟩ | ⟨t, hp, hr⟩
    · have ht : t ≠ [] := by
        rintro rfl
        simp [hs] at hlt
      subst hhead
      obtain ⟨e, he⟩ := hf.error_of_cut hm hh ht
      exact reporting_end he (Or.inl (cutHead_of_head hm hh ht))
    · have hlen := congrArg List.length hr
      rw [List.length_append] at hlen
      omega
  · obtain rfl : p = [] := by
      by_contra hp
      have hlen := congrArg List.length hps
      have hpos := List.length_pos_iff.mpr hp
      simp only [List.length_append, List.length_cons] at hlen
      omega
    cases hnil : f [] with
    | error e => exact reporting_end hnil (Or.inl rfl)
    | ok v =>
        rcases hf [] v.1 v.2 hnil with ⟨m, n, h, -, hh, hnil'⟩ | ⟨y, -, hnil'⟩
        · exact absurd (List.append_eq_nil_iff.mp hnil'.symm).1 hh.ne_nil
        · cases hnil'

/-! ### The readers of heads -/

theorem takesHead_of_head {m : Nat} {num : α → Nat} (hm : m < 8)
    (hf : ∀ {b r a}, f b = .ok (a, r) ↔ ∃ h, Head m (num a) h ∧ b = h ++ r) : TakesHead f := by
  intro b a r hrun
  obtain ⟨h, hh, hb⟩ := hf.mp hrun
  exact Or.inl ⟨m, num a, h, hm, hh, hb⟩

theorem takesHead_of_intHead {num : α → Int}
    (hf : ∀ {b r a}, f b = .ok (a, r) ↔ ∃ h, IntHead (num a) h ∧ b = h ++ r) : TakesHead f := by
  intro b a r hrun
  obtain ⟨h, hh, hb⟩ := hf.mp hrun
  obtain ⟨m, n, hm, hh'⟩ := hh.exists_head
  exact Or.inl ⟨m, n, h, by omega, hh', hb⟩

theorem takesHead_readArray : TakesHead readArray := by
  intro b o r hrun
  cases o with
  | some n =>
      obtain ⟨h, hh, hb⟩ := readArray_some_iff.mp hrun
      exact Or.inl ⟨4, n.toNat, h, by omega, hh, hb⟩
  | none => exact Or.inr ⟨initial 4 31, by decide, readArray_none_iff.mp hrun⟩

theorem takesHead_readNull : TakesHead readNull := by
  intro b u r hrun
  exact Or.inl ⟨7, 22, [nullByte], by omega, Head.short (by omega), readNull_iff.mp hrun⟩

/-! ### Strings -/

/-- A string is cut within its head, or within its bytes. -/
theorem readString_cut {m : Nat} (hm : m < 8) {p s t r : Bytes}
    (hrun : readString m (p ++ s) = .ok (t, r)) (hlt : r.length < s.length) :
    ∃ e, readString m p = .error e ∧ (cutHead p = true ∨ atEnd e) := by
  obtain ⟨h, hh, hps⟩ := (readString_iff hm).mp hrun
  rw [List.append_assoc] at hps
  have hbytes : ∀ u, p = h ++ u → t ++ r = u ++ s →
      ∃ e, readString m p = .error e ∧ (cutHead p = true ∨ atEnd e) := by
    intro u hp hu
    have hlen := congrArg List.length hu
    simp only [List.length_append] at hlen
    have harg : argument m p = some (t.length, u) := (argument_iff hm).mpr ⟨h, hh, hp⟩
    refine ⟨"end of input", ?_, Or.inr rfl⟩
    simp only [readString, harg, if_neg (show ¬ t.length ≤ u.length by omega)]
  rcases List.append_eq_append_iff.mp hps with ⟨u, hhead, hs⟩ | ⟨u, hp, hu⟩
  · by_cases hu : u = []
    · subst hu
      rw [List.append_nil] at hhead
      exact hbytes [] (by rw [hhead, List.append_nil]) hs.symm
    · subst hhead
      have hnone : argument m p = none := by
        cases harg : argument m p with
        | none => rfl
        | some v =>
            obtain ⟨h', hh', hp⟩ := (argument_iff hm).mp harg
            exact absurd hp (head_of_cut hm hh hu hm hh')
      exact ⟨"unexpected type", by rw [readString, hnone], Or.inl (cutHead_of_head hm hh hu)⟩
  · exact hbytes u hp hu

theorem reportsEnd_readString {m : Nat} (hm : m < 8) :
    ReportsEnd atEnd (reporting (readString m)) := by
  intro p s t r hrun hlt
  obtain ⟨e, he, hend⟩ := readString_cut hm (reporting_ok.mp hrun) hlt
  exact reporting_end he hend

theorem reportsEnd_readStr : ReportsEnd atEnd (reporting readStr) := by
  intro p s t r hrun hlt
  have hbytes : readString 3 (p ++ s) = .ok (utf8 t, r) :=
    (readString_iff (by omega)).mpr (readStr_iff.mp (reporting_ok.mp hrun))
  obtain ⟨e, he, hend⟩ := readString_cut (by omega) hbytes hlt
  exact reporting_end (by rw [readStr, he]) hend

/-! ### Items and types -/

/-- `skip`, whose error is always that of the end. -/
theorem reportsEnd_skip : ReportsEnd atEnd Reference.skip := by
  intro p s u r hrun hlt
  obtain ⟨c, hps, hc⟩ := Reference.skip_again hrun
  cases hskip : Reference.skip p with
  | error e =>
      refine ⟨e, rfl, ?_⟩
      unfold Reference.skip at hskip
      split at hskip
      · cases hskip
      · split at hskip
        · split at hskip
          · cases hskip
          · cases hskip
            rfl
        · cases hskip
          rfl
  | ok v =>
      obtain ⟨⟨⟩, r'⟩ := v
      obtain ⟨c', rfl, hc'⟩ := Reference.skip_again hskip
      have hall := hc' (r' ++ s)
      rw [← List.append_assoc, hrun] at hall
      cases hall
      simp only [List.length_append] at hlt
      omega

theorem signedType_append {narrow wide t : DataType} {p : Bytes} (s : Bytes)
    (h : signedType narrow wide p = some t) : signedType narrow wide (p ++ s) = some t := by
  cases p with
  | nil => cases h
  | cons y p => exact h

/-- A type that is seen is seen of every longer input. -/
theorem typeOf_of_cut {p : Bytes} {t : DataType} (s : Bytes) (hp : typeOf p = some t) :
    typeOf (p ++ s) = some t := by
  cases p with
  | nil => cases hp
  | cons x p =>
      rw [List.cons_append]
      by_cases hm : x.toNat / 32 = 1
      · simp only [typeOf, hm] at hp ⊢
        split_ifs at hp ⊢ <;> first | exact hp | exact signedType_append s hp
      · have hx : x.toNat / 32 = 1 → x.toNat % 32 < 24 ∨ 28 ≤ x.toNat % 32 :=
          fun h => absurd h hm
        rwa [typeOf_cons hx, ← typeOf_cons hx p]

theorem datatype_end {p s : Bytes} {t : DataType} (h : reference.datatype (p ++ s) = .ok t) :
    reference.datatype p = .ok t ∨ ∃ e, reference.datatype p = .error e ∧ atEnd e := by
  rw [reference_lawful.datatype_ok] at h ⊢
  cases htype : typeOf p with
  | some t' => exact Or.inl ((typeOf_of_cut s htype).symm.trans h)
  | none =>
      refine Or.inr ⟨"end of input", ?_, rfl⟩
      unfold reference
      simp only [htype]

/-! ### Vectors -/

/-- The cut falls within an element, and that element reports it. -/
theorem readTimes_cut (hf : Whole f) (hend : ReportsEnd atEnd f) {l : List α} {b r : Bytes}
    (hl : EachRead f l b r) : ∀ {p s : Bytes}, b = p ++ s → r.length < s.length →
      ∃ e, readTimes f l.length p = .error e ∧ atEnd e := by
  induction hl with
  | nil =>
      rintro p s rfl hlt
      simp at hlt
  | @cons x l b b' r hx hl ih =>
      rintro p s rfl hlt
      by_cases hcut : b'.length < s.length
      · obtain ⟨e, he, hS⟩ := hend p s x b' hx hcut
        exact ⟨e, by simp only [List.length_cons, readTimes, he], hS⟩
      · obtain ⟨c, -, hc, hy⟩ := hf _ _ _ hx
        obtain ⟨t, rfl, ht⟩ := append_split hc (Nat.not_lt.mp hcut)
        obtain ⟨e, he, hS⟩ := ih ht hlt
        exact ⟨e, by simp only [List.length_cons, readTimes, hy t, he], hS⟩

/-- The same up to a break, which may be missing as well. -/
theorem readUntilBreak_cut (hf : Whole f) (hend : ReportsEnd atEnd f) {l : List α} {b r : Bytes}
    (hl : EachUntilBreak f l b r) : ∀ {p s : Bytes} (fuel : Nat), b = p ++ s →
      r.length < s.length → ∃ e, readUntilBreak f fuel p = .error e ∧ atEnd e := by
  induction hl with
  | @nil r =>
      intro p s fuel hb hlt
      cases fuel with
      | zero => exact ⟨_, rfl, rfl⟩
      | succ fuel =>
          cases p with
          | nil => exact ⟨_, rfl, rfl⟩
          | cons y p =>
              have hlen := congrArg List.length hb
              simp only [List.length_append, List.length_cons] at hlen
              omega
  | @cons x l b b' r hbreak hx hl ih =>
      rintro p s fuel rfl hlt
      cases fuel with
      | zero => exact ⟨_, rfl, rfl⟩
      | succ fuel =>
          cases p with
          | nil => exact ⟨_, rfl, rfl⟩
          | cons y p =>
              have hy : y ≠ breakByte := by
                rintro rfl
                exact hbreak (p ++ s) rfl
              by_cases hcut : b'.length < s.length
              · obtain ⟨e, he, hS⟩ := hend _ s x b' hx hcut
                exact ⟨e, by simp only [readUntilBreak, if_neg hy, he], hS⟩
              · obtain ⟨c, -, hc, hrun⟩ := hf _ _ _ hx
                obtain ⟨t, hp, ht⟩ := append_split hc (Nat.not_lt.mp hcut)
                obtain ⟨e, he, hS⟩ := ih fuel ht hlt
                refine ⟨e, ?_, hS⟩
                rw [readUntilBreak, if_neg hy, hp]
                simp only [hrun t, he]

theorem reportsEnd_readVec (hf : Whole f) (hend : ReportsEnd atEnd f) :
    ReportsEnd atEnd (reporting (readVec f)) := by
  have hshrinks : ∀ b x r, f b = .ok (x, r) → r.length < b.length := by
    intro b x r hrun
    obtain ⟨c, hc, rfl, -⟩ := hf b x r hrun
    have hpos := List.length_pos_iff.mpr hc
    rw [List.length_append]
    omega
  intro p s l r hrun hlt
  have hheader : ∀ {o b}, readArray (p ++ s) = .ok (o, b) → b.length < s.length →
      ∃ e, reporting (readVec f) p = .error e ∧ atEnd e := by
    intro o b harray hcut
    obtain ⟨e, he, hS⟩ := takesHead_readArray.reportsEnd p s o b (reporting_ok.mpr harray) hcut
    obtain ⟨e', he', hS'⟩ := reporting_error he hS
    exact reporting_end (by simp only [readVec, he']) hS'
  rcases (readVec_iff hshrinks).mp (reporting_ok.mp hrun) with
    ⟨h, b, hh, hb, hl⟩ | ⟨-, b, hb, hl⟩
  · have hn : (UInt64.ofNat l.length).toNat = l.length := UInt64.toNat_ofNat_of_lt' hh.lt
    have harray : ∀ q u, q = h ++ u → readArray q = .ok (some (UInt64.ofNat l.length), u) :=
      fun q u hq => readArray_some_iff.mpr ⟨h, by rwa [hn], hq⟩
    by_cases hcut : b.length < s.length
    · exact hheader (harray _ b hb) hcut
    · obtain ⟨t, hp, ht⟩ := append_split hb (Nat.not_lt.mp hcut)
      obtain ⟨e, he, hS⟩ := readTimes_cut hf hend hl ht hlt
      exact reporting_end (by simp only [readVec, harray p t hp, hn, he]) (Or.inr hS)
  · by_cases hcut : b.length < s.length
    · exact hheader (readArray_none_iff.mpr hb) hcut
    · obtain ⟨t, hp, ht⟩ := append_split (c := [initial 4 31]) hb (Nat.not_lt.mp hcut)
      obtain ⟨e, he, hS⟩ := readUntilBreak_cut hf hend hl (t.length + 1) ht hlt
      have harray : readArray p = .ok (none, t) := readArray_none_iff.mpr hp
      exact reporting_end (by simp only [readVec, harray, he]) (Or.inr hS)

end Reference

/-! ### The instance -/

open Reference

/-- The reference implementation, with the errors at the end of the input told from the others. -/
@[reducible] def reportingReference : Minicbor :=
  { reference with
    readU16 := reporting reference.readU16
    readU32 := reporting reference.readU32
    readU64 := reporting reference.readU64
    readI32 := reporting reference.readI32
    readInt := reporting reference.readInt
    readBytes := reporting reference.readBytes
    readStr := reporting reference.readStr
    readArray := reporting reference.readArray
    readTag := reporting reference.readTag
    readNull := reporting reference.readNull
    readVec := fun f => reporting (reference.readVec f) }

theorem reportingReference_lawful : @LawfulMinicbor reportingReference :=
  have h := reference_lawful
  @LawfulMinicbor.mk reportingReference h.datatype_ok
    (reporting_ok.trans h.readU16_ok) (reporting_ok.trans h.readU32_ok)
    (reporting_ok.trans h.readU64_ok) (reporting_ok.trans h.readI32_ok)
    (reporting_ok.trans h.readInt_ok) (reporting_ok.trans h.readBytes_ok)
    (reporting_ok.trans h.readStr_ok) (reporting_ok.trans h.readArray_some)
    (reporting_ok.trans h.readArray_none) (reporting_ok.trans h.readTag_ok)
    (reporting_ok.trans h.readNull_ok) h.skip_item h.skip_skipped
    (fun hf => reporting_ok.trans (h.readVec_ok hf))
    h.writeU16_eq h.writeU32_eq h.writeU64_eq h.writeI32_eq h.writeInt_eq h.writeBytes_eq
    h.writeStr_eq h.writeArray_eq h.writeTag_eq h.writeNull_eq h.writeVecU32_eq

@[reducible] def reportingEnd : @EndOfInput reportingReference :=
  @EndOfInput.mk reportingReference atEnd

theorem reportingEnd_lawful : @LawfulEndOfInput reportingReference reportingEnd :=
  have h := reference_lawful
  @LawfulEndOfInput.mk reportingReference reportingEnd datatype_end
    (takesHead_of_head (by omega) h.readU16_ok).reportsEnd
    (takesHead_of_head (by omega) h.readU32_ok).reportsEnd
    (takesHead_of_head (by omega) h.readU64_ok).reportsEnd
    (takesHead_of_intHead h.readI32_ok).reportsEnd
    (takesHead_of_intHead h.readInt_ok).reportsEnd
    (reportsEnd_readString (by omega)) reportsEnd_readStr takesHead_readArray.reportsEnd
    (takesHead_of_head (by omega) h.readTag_ok).reportsEnd takesHead_readNull.reportsEnd
    reportsEnd_skip reportsEnd_readVec

end Minicbor
