/-
The decoder and the encoder the crate works with.

A decoding function of the crate is a `Dec`: a parser over the bytes a
`minicbor::Decoder` has still to read, which fails with an `Error` and notes every
`Vec::with_capacity` it makes.  An encoding function is an `Enc`: a printer, which
fails with a message.  `Decoder.u32` and its like are the calls the crate makes of
`minicbor`, and each comes with two rules, one for what it reads and one for how what
was written is read back.
-/
import C509Cert.Codec.Parser
import C509Cert.Minicbor

namespace C509

open Cbor Codec

/-! ### Errors -/

/-- The errors a decoder can raise: `Error::Cbor` and `Error::Malformed`. -/
inductive DecodeError [Minicbor] where
  | cbor (e : Minicbor.Err)
  | malformed (msg : String)

/-- `Error` -/
inductive Error [Minicbor] where
  | decode (e : DecodeError)
  | x509 (msg : String)
  | json (msg : String)

/-- `Error::into_minicbor`, on the errors a decoder can raise. -/
def DecodeError.intoMinicbor [Minicbor] : DecodeError → Minicbor.Err
  | .cbor e => e
  | .malformed m => Minicbor.message m

/-- `minicbor::encode::Error`, for a writer that cannot fail. -/
structure EncodeError where
  message : String

/-- An encoding function. -/
abbrev Enc := Printer EncodeError Unit

/-- `Err(minicbor::encode::Error::message(msg))` -/
def refuse (msg : String) : Enc := Printer.fail ⟨msg⟩

/-- Whatever `p` writes starts with an item whose type satisfies `T`. -/
def Starts (p : Enc) (T : DataType → Prop) : Prop :=
  ∀ c, p.run = .ok ((), c) → ∃ t, T t ∧ ∀ r, typeOf (c ++ r) = some t

theorem Starts.weaken {p : Enc} {T T' : DataType → Prop} (hp : Starts p T)
    (h : ∀ t, T t → T' t) : Starts p T' := by
  intro c hc
  obtain ⟨t, ht, hr⟩ := hp c hc
  exact ⟨t, h t ht, hr⟩

theorem Starts.bind {p q : Enc} {T : DataType → Prop} (hp : Starts p T) :
    Starts (p >>= fun _ => q) T := by
  intro c hc
  obtain ⟨_, c₁, c₂, hp₁, -, rfl⟩ := Printer.run_bind_ok_iff.mp hc
  obtain ⟨t, ht, hr⟩ := hp c₁ hp₁
  exact ⟨t, ht, fun r => by rw [List.append_assoc]; exact hr (c₂ ++ r)⟩

theorem starts_put {c : Bytes} {T : DataType → Prop} {t : DataType} (ht : T t)
    (hc : ∀ r, typeOf (c ++ r) = some t) : Starts (Printer.put c) T := by
  rintro _ ⟨⟩
  exact ⟨t, ht, hc⟩

private theorem starts_uint {n : Nat} (hn : n < 2 ^ 64) :
    Starts (Printer.put (shortHead 0 n)) (fun t => t.isInt = true) := by
  obtain ⟨t, ht, heq⟩ := typeOf_intHead ((intHead_ofNat n _).mpr (head_shortHead 0 hn))
  exact starts_put ht heq

/-! ### Reserving memory -/

/-- Where the crate calls `Vec::with_capacity`. -/
inductive Site
  | rdnValues | name | extensions | generalNames | distributionPoints | fullName
  | certificatePolicies | policyQualifiers | policyMappings | accessDescriptions
  | directoryAttributes | ipFamilies | ipEntries | asIdentifiers
  deriving DecidableEq

/-- One call of `Vec::with_capacity` while decoding. -/
structure Reserve where
  site : Site
  /-- the elements the array header announced -/
  announced : Nat
  /-- the bytes of input left at the call -/
  remaining : Nat
  /-- the capacity asked for -/
  requested : Nat
  deriving DecidableEq

variable [Minicbor]

/-- A decoding function. -/
abbrev Dec (α : Type) := Parser DecodeError Reserve α

/-- `Err(Error::malformed(msg))` -/
abbrev malformed {α : Type} (msg : String) : Dec α := Parser.fail (.malformed msg)

/-- `if !c { return Err(Error::malformed(msg)) }` -/
abbrev ensure (c : Prop) [Decidable c] (msg : String) : Dec Unit := Parser.ensure c (.malformed msg)

/-- `o.ok_or(Error::malformed(msg))?` -/
abbrev okOr {α : Type} (o : Option α) (msg : String) : Dec α := Parser.get o (.malformed msg)

/-- A result whose error is the text of an `Error::Malformed`, taken with `?`. -/
def result {α : Type} : Except String α → Dec α
  | .ok a => pure a
  | .error msg => malformed msg

/-- `Vec::with_capacity(n)` for the `n` elements a header announced. -/
def withCapacity (site : Site) (n : Nat) : Dec Unit :=
  Parser.emit fun b => { site, announced := n, remaining := b.length, requested := n }

/-- `Vec::with_capacity(bounded_capacity(d, n))` -/
def withBoundedCapacity (site : Site) (n : Nat) : Dec Unit :=
  Parser.emit fun b =>
    { site, announced := n, remaining := b.length, requested := min n b.length }

/-! ### `minicbor::Decoder` -/

namespace Decoder

/-- A read of `minicbor`, with its error turned into the crate's. -/
def lift {α : Type} (f : Bytes → Except Minicbor.Err (α × Bytes)) : Dec α :=
  { run := fun b =>
      match f b with
      | .ok v => .ok v
      | .error e => .error (.cbor e)
    log := fun _ => [] }

def datatype : Dec DataType :=
  lift fun b =>
    match Minicbor.datatype b with
    | .ok t => .ok (t, b)
    | .error e => .error e

def u16 : Dec UInt16 := lift Minicbor.readU16
def u32 : Dec UInt32 := lift Minicbor.readU32
def u64 : Dec UInt64 := lift Minicbor.readU64
def i32 : Dec Int32 := lift Minicbor.readI32
def int : Dec Int := lift Minicbor.readInt
def bytes : Dec Bytes := lift Minicbor.readBytes
def str : Dec String := lift Minicbor.readStr
def array : Dec (Option UInt64) := lift Minicbor.readArray
def tag : Dec UInt64 := lift Minicbor.readTag
def null : Dec Unit := lift Minicbor.readNull
def skip : Dec Unit := lift Minicbor.skip

/-- `Decoder::decode` at `Vec<T>`, given the `Decode` of `T`. -/
def vec {α : Type} (f : Bytes → Except Minicbor.Err (α × Bytes)) : Dec (List α) :=
  lift (Minicbor.readVec f)

end Decoder

/-! ### `minicbor::Encoder` -/

namespace Encoder

def u16 (n : UInt16) : Enc := Printer.put (Minicbor.writeU16 n)
def u32 (n : UInt32) : Enc := Printer.put (Minicbor.writeU32 n)
def u64 (n : UInt64) : Enc := Printer.put (Minicbor.writeU64 n)
def i32 (n : Int32) : Enc := Printer.put (Minicbor.writeI32 n)
def int (v : Int) : Enc := Printer.put (Minicbor.writeInt v)
def bytes (s : Bytes) : Enc := Printer.put (Minicbor.writeBytes s)
def str (s : String) : Enc := Printer.put (Minicbor.writeStr s)
def array (n : UInt64) : Enc := Printer.put (Minicbor.writeArray n)
def tag (n : UInt64) : Enc := Printer.put (Minicbor.writeTag n)
def null : Enc := Printer.put Minicbor.writeNull
def vecU32 (l : List UInt32) : Enc := Printer.put (Minicbor.writeVecU32 l)

end Encoder

/-! ### What each read takes -/

section Reads

variable {X : Bytes → Prop} {α β : Type} {k : Nat} {Q : β → Prop}

theorem Decoder.lift_run_ok {f : Bytes → Except Minicbor.Err (α × Bytes)} {b r : Bytes} {a : α} :
    (Decoder.lift f).run b = .ok (a, r) ↔ f b = .ok (a, r) := by
  unfold Decoder.lift
  simp only
  cases f b with
  | ok v =>
      constructor
      · rintro ⟨⟩
        rfl
      · rintro ⟨⟩
        rfl
  | error e =>
      constructor
      · rintro ⟨⟩
      · rintro ⟨⟩

theorem reads_result (x : Except String α) : Reads X 0 (result x) fun a => x = .ok a := by
  cases x with
  | ok a => exact Reads.pure rfl
  | error msg => exact Reads.fail _

theorem logs_result {E : Reserve → Prop} (x : Except String α) : Logs (result x) E := by
  cases x with
  | ok a => exact Logs.pure a
  | error msg => exact Logs.fail _

theorem run_result {x : Except String α} {a : α} (h : x = .ok a) (b : Bytes) :
    (result x).run b = .ok (a, b) := by
  subst h
  rfl

theorem yields_result {x : Except String α} {a : α} (h : x = .ok a) : Yields (result x) [] a :=
  run_result h

/-- A read that succeeds on one item, whatever follows, takes one item. -/
theorem Decoder.reads_lift {f : Bytes → Except Minicbor.Err (α × Bytes)} {W : α → Bytes → Prop}
    {P : α → Prop} (hf : ∀ {b r a}, f b = .ok (a, r) ↔ ∃ c, W a c ∧ b = c ++ r)
    (hW : ∀ {a c}, W a c → Item c ∧ P a) : Reads X 1 (Decoder.lift f) P := by
  intro b a r hrun
  obtain ⟨c, hc, rfl⟩ := hf.mp (Decoder.lift_run_ok.mp hrun)
  exact ⟨c, rfl, Units.one (hW hc).1, (hW hc).2,
    fun r' => Decoder.lift_run_ok.mpr (hf.mpr ⟨c, hc, rfl⟩)⟩

variable [LawfulMinicbor]

theorem reads_u16 : Reads X 1 Decoder.u16 fun _ => True :=
  Decoder.reads_lift LawfulMinicbor.readU16_ok fun hh => ⟨hh.item (by omega), trivial⟩

theorem reads_u32 : Reads X 1 Decoder.u32 fun _ => True :=
  Decoder.reads_lift LawfulMinicbor.readU32_ok fun hh => ⟨hh.item (by omega), trivial⟩

theorem reads_u64 : Reads X 1 Decoder.u64 fun _ => True :=
  Decoder.reads_lift LawfulMinicbor.readU64_ok fun hh => ⟨hh.item (by omega), trivial⟩

theorem reads_i32 : Reads X 1 Decoder.i32 fun _ => True :=
  Decoder.reads_lift LawfulMinicbor.readI32_ok fun hh => ⟨IntHead.item hh, trivial⟩

theorem reads_int : Reads X 1 Decoder.int fun v => -2 ^ 64 ≤ v ∧ v < 2 ^ 64 := by
  refine Decoder.reads_lift LawfulMinicbor.readInt_ok fun hh => ⟨IntHead.item hh, ?_⟩
  rcases hh with ⟨hv, hh⟩ | ⟨hv, hh⟩ <;> have := hh.lt <;> omega

theorem readBytes_iff {b s r : Bytes} : Minicbor.readBytes b = .ok (s, r) ↔
    ∃ c, (∃ h, Head 2 s.length h ∧ c = h ++ s) ∧ b = c ++ r := by
  rw [LawfulMinicbor.readBytes_ok]
  constructor
  · rintro ⟨h, hh, rfl⟩
    exact ⟨_, ⟨h, hh, rfl⟩, rfl⟩
  · rintro ⟨_, ⟨h, hh, rfl⟩, rfl⟩
    exact ⟨h, hh, rfl⟩

theorem reads_bytes : Reads X 1 Decoder.bytes fun s => s.length < 2 ^ 64 := by
  refine Decoder.reads_lift readBytes_iff ?_
  rintro s _ ⟨h, hh, rfl⟩
  exact ⟨hh.string_item (Or.inl rfl) (stringContent_bytes s), hh.lt⟩

theorem readStr_iff {b r : Bytes} {s : String} : Minicbor.readStr b = .ok (s, r) ↔
    ∃ c, (∃ h, Head 3 (utf8 s).length h ∧ c = h ++ utf8 s) ∧ b = c ++ r := by
  rw [LawfulMinicbor.readStr_ok]
  constructor
  · rintro ⟨h, hh, rfl⟩
    exact ⟨_, ⟨h, hh, rfl⟩, rfl⟩
  · rintro ⟨_, ⟨h, hh, rfl⟩, rfl⟩
    exact ⟨h, hh, rfl⟩

theorem reads_str : Reads X 1 Decoder.str fun s => (utf8 s).length < 2 ^ 64 := by
  refine Decoder.reads_lift readStr_iff ?_
  rintro s _ ⟨h, hh, rfl⟩
  exact ⟨hh.string_item (Or.inr rfl) (stringContent_utf8 3 s), hh.lt⟩

theorem readNull_iff {b r : Bytes} {u : Unit} : Minicbor.readNull b = .ok (u, r) ↔
    ∃ c, c = [nullByte] ∧ b = c ++ r := by
  rw [LawfulMinicbor.readNull_ok]
  simp

theorem reads_null : Reads X 1 Decoder.null fun _ => True := by
  refine Decoder.reads_lift readNull_iff ?_
  rintro _ _ rfl
  exact ⟨item_null, trivial⟩

theorem datatype_run_ok {b r : Bytes} {t : DataType} :
    Decoder.datatype.run b = .ok (t, r) ↔ typeOf b = some t ∧ r = b := by
  unfold Decoder.datatype
  rw [Decoder.lift_run_ok, ← LawfulMinicbor.datatype_ok]
  split <;> rename_i heq <;> rw [heq]
  · constructor
    · rintro ⟨⟩
      exact ⟨rfl, rfl⟩
    · rintro ⟨⟨⟩, rfl⟩
      rfl
  · constructor
    · rintro ⟨⟩
    · rintro ⟨⟨⟩, -⟩

/-- A look at the type of the next item is a look at the item. -/
theorem reads_peek {f : DataType → Dec β} (hf : ∀ t, Reads X (k + 1) (f t) Q) :
    Reads X (k + 1) (Decoder.datatype >>= f) Q := by
  intro b y r hrun
  obtain ⟨t, b', hpeek, hft⟩ := Parser.run_bind_ok_iff.mp hrun
  obtain ⟨ht, rfl⟩ := datatype_run_ok.mp hpeek
  obtain ⟨c, rfl, hc, hy, hyc⟩ := hf t b' y r hft
  refine ⟨c, rfl, hc, hy, fun r' => ?_⟩
  have ht' : typeOf (c ++ r') = some t := by rw [typeOf_append hc.headed r' r, ht]
  rw [Parser.run_bind_of_ok (datatype_run_ok.mpr ⟨ht', rfl⟩)]
  exact hyc r'

/-- The header of an array of `n` elements makes one item of the `n` items after it. -/
theorem reads_array {f : Option UInt64 → Dec β} (hsome : ∀ n, Reads X n.toNat (f (some n)) Q)
    (hnone : ∀ b y, (f none).run b ≠ .ok y) : Reads X 1 (Decoder.array >>= f) Q := by
  intro b y r hrun
  obtain ⟨o, b', ho, hfo⟩ := Parser.run_bind_ok_iff.mp hrun
  cases o with
  | none => exact absurd hfo (hnone b' _)
  | some n =>
      obtain ⟨h, hh, rfl⟩ := LawfulMinicbor.readArray_some.mp (Decoder.lift_run_ok.mp ho)
      obtain ⟨c, rfl, hc, hy, hyc⟩ := hsome n b' y r hfo
      refine ⟨h ++ c, by rw [List.append_assoc], Units.array hh hc, hy, fun r' => ?_⟩
      have ho' : Decoder.array.run (h ++ (c ++ r')) = .ok (some n, c ++ r') :=
        Decoder.lift_run_ok.mpr (LawfulMinicbor.readArray_some.mpr ⟨h, hh, rfl⟩)
      rw [List.append_assoc, Parser.run_bind_of_ok ho']
      exact hyc r'

/-- A tag makes one item of the item after it. -/
theorem reads_tag {f : UInt64 → Dec β} (hf : ∀ t, Reads X (k + 1) (f t) Q) :
    Reads X (k + 1) (Decoder.tag >>= f) Q := by
  intro b y r hrun
  obtain ⟨t, b', ht, hft⟩ := Parser.run_bind_ok_iff.mp hrun
  obtain ⟨h, hh, rfl⟩ := LawfulMinicbor.readTag_ok.mp (Decoder.lift_run_ok.mp ht)
  obtain ⟨c, rfl, hc, hy, hyc⟩ := hf t b' y r hft
  refine ⟨h ++ c, by rw [List.append_assoc], Units.tag hh hc, hy, fun r' => ?_⟩
  have ht' : Decoder.tag.run (h ++ (c ++ r')) = .ok (t, c ++ r') :=
    Decoder.lift_run_ok.mpr (LawfulMinicbor.readTag_ok.mpr ⟨h, hh, rfl⟩)
  rw [List.append_assoc, Parser.run_bind_of_ok ht']
  exact hyc r'

omit [LawfulMinicbor] in
/-- Elements read one after the other are as many items. -/
theorem eachRead_items {f : Bytes → Except Minicbor.Err (α × Bytes)} {P : α → Prop}
    (hf : Reads NoPieces 1 (Decoder.lift f) P) {l : List α} {b r : Bytes} (hl : EachRead f l b r) :
    ∃ c, b = c ++ r ∧ Items l.length c ∧ (∀ x ∈ l, P x) ∧ ∀ r', EachRead f l (c ++ r') r' := by
  induction hl with
  | nil => exact ⟨[], rfl, Items.nil, by simp, fun _ => EachRead.nil⟩
  | cons hx _ ih =>
      obtain ⟨c, rfl, hc, hPx, hy⟩ := hf _ _ _ (Decoder.lift_run_ok.mpr hx)
      obtain ⟨d, rfl, hd, hP, hl⟩ := ih
      have hP := List.forall_mem_cons.mpr ⟨hPx, hP⟩
      refine ⟨c ++ d, by rw [List.append_assoc], ?_, hP, fun r' => ?_⟩
      · rw [List.length_cons, Nat.add_comm]
        exact (hc.items fun _ => False.elim).append hd
      · rw [List.append_assoc]
        exact EachRead.cons (Decoder.lift_run_ok.mp (hy _)) (hl r')

omit [LawfulMinicbor] in
/-- The same up to a break, which is not the start of an item. -/
theorem eachUntilBreak_items {f : Bytes → Except Minicbor.Err (α × Bytes)} {P : α → Prop}
    (hf : Reads NoPieces 1 (Decoder.lift f) P) {l : List α} {b r : Bytes}
    (hl : EachUntilBreak f l b r) :
    ∃ c, b = c ++ breakByte :: r ∧ Items l.length c ∧ (∀ x ∈ l, P x) ∧
      ∀ r', EachUntilBreak f l (c ++ breakByte :: r') r' := by
  induction hl with
  | nil => exact ⟨[], rfl, Items.nil, by simp, fun _ => EachUntilBreak.nil⟩
  | cons _ hx _ ih =>
      obtain ⟨c, rfl, hc, hPx, hy⟩ := hf _ _ _ (Decoder.lift_run_ok.mpr hx)
      obtain ⟨d, rfl, hd, hP, hl⟩ := ih
      have hP := List.forall_mem_cons.mpr ⟨hPx, hP⟩
      refine ⟨c ++ d, by rw [List.append_assoc], ?_, hP, fun r' => ?_⟩
      · rw [List.length_cons, Nat.add_comm]
        exact (hc.items fun _ => False.elim).append hd
      · rw [List.append_assoc]
        refine EachUntilBreak.cons ?_ (Decoder.lift_run_ok.mp (hy _)) (hl r')
        obtain ⟨x, t, rfl, hne⟩ := (hc.items fun _ => False.elim).cons_ne_break
        intro t' heq
        exact hne (List.cons.inj heq).1

omit [LawfulMinicbor] in
theorem shrinks {f : Bytes → Except Minicbor.Err (α × Bytes)} {P : α → Prop}
    (hf : Reads NoPieces 1 (Decoder.lift f) P) (b : Bytes) (x : α) (r : Bytes)
    (h : f b = .ok (x, r)) : r.length < b.length := by
  obtain ⟨c, rfl, hc, -, -⟩ := hf _ _ _ (Decoder.lift_run_ok.mpr h)
  have := hc.le_length
  rw [List.length_append]
  omega

/-- `minicbor`'s own vectors take one item, whether its length is definite or not. -/
theorem reads_vec {f : Bytes → Except Minicbor.Err (α × Bytes)} {P : α → Prop}
    (hf : Reads NoPieces 1 (Decoder.lift f) P) :
    Reads X 1 (Decoder.vec f) fun l => l.length < 2 ^ 64 ∧ ∀ x ∈ l, P x := by
  intro b l r hrun
  have hvec := LawfulMinicbor.readVec_ok (shrinks hf) (b := b) (r := r) (l := l)
  rcases hvec.mp (Decoder.lift_run_ok.mp hrun) with ⟨h, b', hh, rfl, hl⟩ | ⟨hlen, b', rfl, hl⟩
  · obtain ⟨c, rfl, hc, hP, hl'⟩ := eachRead_items hf hl
    refine ⟨h ++ c, by rw [List.append_assoc], Units.one (hh.array_item hc), ⟨hh.lt, hP⟩,
      fun r' => ?_⟩
    refine Decoder.lift_run_ok.mpr ((LawfulMinicbor.readVec_ok (shrinks hf)).mpr (Or.inl ?_))
    exact ⟨h, c ++ r', hh, by rw [List.append_assoc], hl' r'⟩
  · obtain ⟨c, rfl, hc, hP, hl'⟩ := eachUntilBreak_items hf hl
    refine ⟨initial 4 31 :: (c ++ [breakByte]), by simp, ?_, ⟨hlen, hP⟩, fun r' => ?_⟩
    · exact Units.one (Items.arrayIndef hc Items.nil)
    · refine Decoder.lift_run_ok.mpr ((LawfulMinicbor.readVec_ok (shrinks hf)).mpr (Or.inr ?_))
      exact ⟨hlen, c ++ breakByte :: r', by simp, hl' r'⟩

end Reads

/-! ### How what was written is read back -/

section Writes

variable {α β : Type}

theorem Decoder.writes_lift {f : Bytes → Except Minicbor.Err (α × Bytes)} {W : α → Bytes → Prop}
    (hf : ∀ {b r a}, f b = .ok (a, r) ↔ ∃ c, W a c ∧ b = c ++ r) {a : α} {c : Bytes} (hc : W a c) :
    Writes (Printer.put c : Enc) (Decoder.lift f) a :=
  ⟨c, rfl, fun _ => Decoder.lift_run_ok.mpr (hf.mpr ⟨c, hc, rfl⟩)⟩

variable [LawfulMinicbor]

theorem writes_u16 (n : UInt16) : Writes (Encoder.u16 n) Decoder.u16 n := by
  rw [Encoder.u16, LawfulMinicbor.writeU16_eq]
  have hn := n.toNat_lt
  exact Decoder.writes_lift LawfulMinicbor.readU16_ok (head_shortHead 0 (by omega))

theorem writes_u32 (n : UInt32) : Writes (Encoder.u32 n) Decoder.u32 n := by
  rw [Encoder.u32, LawfulMinicbor.writeU32_eq]
  have hn := n.toNat_lt
  exact Decoder.writes_lift LawfulMinicbor.readU32_ok (head_shortHead 0 (by omega))

theorem writes_u64 (n : UInt64) : Writes (Encoder.u64 n) Decoder.u64 n := by
  rw [Encoder.u64, LawfulMinicbor.writeU64_eq]
  exact Decoder.writes_lift LawfulMinicbor.readU64_ok (head_shortHead 0 n.toNat_lt)

theorem writes_i32 (n : Int32) : Writes (Encoder.i32 n) Decoder.i32 n := by
  rw [Encoder.i32, LawfulMinicbor.writeI32_eq]
  have hlo := n.le_toInt
  have hhi := n.toInt_lt
  exact Decoder.writes_lift LawfulMinicbor.readI32_ok (intHead_shortInt (by omega) (by omega))

theorem writes_int {v : Int} (hlo : -2 ^ 64 ≤ v) (hhi : v < 2 ^ 64) :
    Writes (Encoder.int v) Decoder.int v := by
  rw [Encoder.int, LawfulMinicbor.writeInt_eq hlo hhi]
  exact Decoder.writes_lift LawfulMinicbor.readInt_ok (intHead_shortInt hlo hhi)

theorem writes_bytes {s : Bytes} (hs : s.length < 2 ^ 64) :
    Writes (Encoder.bytes s) Decoder.bytes s := by
  rw [Encoder.bytes, LawfulMinicbor.writeBytes_eq hs]
  exact Decoder.writes_lift readBytes_iff ⟨_, head_shortHead 2 hs, rfl⟩

theorem writes_str {s : String} (hs : (utf8 s).length < 2 ^ 64) :
    Writes (Encoder.str s) Decoder.str s := by
  rw [Encoder.str, LawfulMinicbor.writeStr_eq hs]
  exact Decoder.writes_lift readStr_iff ⟨_, head_shortHead 3 hs, rfl⟩

theorem writes_null : Writes Encoder.null Decoder.null () := by
  rw [Encoder.null, LawfulMinicbor.writeNull_eq]
  exact Decoder.writes_lift readNull_iff rfl

theorem writes_tag (n : UInt64) : Writes (Encoder.tag n) Decoder.tag n := by
  rw [Encoder.tag, LawfulMinicbor.writeTag_eq]
  exact Decoder.writes_lift LawfulMinicbor.readTag_ok (head_shortHead 6 n.toNat_lt)

theorem writes_array (n : UInt64) : Writes (Encoder.array n) Decoder.array (some n) := by
  rw [Encoder.array, LawfulMinicbor.writeArray_eq]
  have hh := head_shortHead 4 n.toNat_lt
  exact ⟨_, rfl, fun r =>
    Decoder.lift_run_ok.mpr (LawfulMinicbor.readArray_some.mpr ⟨_, hh, rfl⟩)⟩

theorem starts_i32 (n : Int32) : Starts (Encoder.i32 n) (fun t => t.isInt = true) := by
  rw [Encoder.i32, LawfulMinicbor.writeI32_eq]
  have hlo := n.le_toInt
  have hhi := n.toInt_lt
  obtain ⟨t, ht, heq⟩ := typeOf_intHead (intHead_shortInt (v := n.toInt) (by omega) (by omega))
  exact starts_put ht heq

theorem starts_int {v : Int} (hlo : -2 ^ 64 ≤ v) (hhi : v < 2 ^ 64) :
    Starts (Encoder.int v) (fun t => t.isInt = true) := by
  rw [Encoder.int, LawfulMinicbor.writeInt_eq hlo hhi]
  obtain ⟨t, ht, heq⟩ := typeOf_intHead (intHead_shortInt hlo hhi)
  exact starts_put ht heq

theorem starts_u16 (n : UInt16) : Starts (Encoder.u16 n) (fun t => t.isInt = true) := by
  rw [Encoder.u16, LawfulMinicbor.writeU16_eq]
  have hn := n.toNat_lt
  exact starts_uint (by omega)

theorem starts_u32 (n : UInt32) : Starts (Encoder.u32 n) (fun t => t.isInt = true) := by
  rw [Encoder.u32, LawfulMinicbor.writeU32_eq]
  have hn := n.toNat_lt
  exact starts_uint (by omega)

theorem starts_u64 (n : UInt64) : Starts (Encoder.u64 n) (fun t => t.isInt = true) := by
  rw [Encoder.u64, LawfulMinicbor.writeU64_eq]
  exact starts_uint n.toNat_lt

theorem starts_bytes {s : Bytes} (hs : s.length < 2 ^ 64) :
    Starts (Encoder.bytes s) (fun t => t = .bytes) := by
  rw [Encoder.bytes, LawfulMinicbor.writeBytes_eq hs]
  refine starts_put rfl fun r => ?_
  rw [List.append_assoc]
  exact typeOf_head (by omega) (by omega) (head_shortHead 2 hs) _

theorem starts_str {s : String} (hs : (utf8 s).length < 2 ^ 64) :
    Starts (Encoder.str s) (fun t => t = .string) := by
  rw [Encoder.str, LawfulMinicbor.writeStr_eq hs]
  refine starts_put rfl fun r => ?_
  rw [List.append_assoc]
  exact typeOf_head (by omega) (by omega) (head_shortHead 3 hs) _

theorem starts_array (n : UInt64) : Starts (Encoder.array n) (fun t => t = .array) := by
  rw [Encoder.array, LawfulMinicbor.writeArray_eq]
  exact starts_put rfl (typeOf_head (by omega) (by omega) (head_shortHead 4 n.toNat_lt))

theorem starts_tag (n : UInt64) : Starts (Encoder.tag n) (fun t => t = .tag) := by
  rw [Encoder.tag, LawfulMinicbor.writeTag_eq]
  exact starts_put rfl (typeOf_head (by omega) (by omega) (head_shortHead 6 n.toNat_lt))

theorem starts_null : Starts Encoder.null (fun t => t = .null) := by
  rw [Encoder.null, LawfulMinicbor.writeNull_eq]
  exact starts_put rfl fun r => rfl

omit [LawfulMinicbor] in
/-- Elements written one after the other are read one after the other. -/
theorem eachRead_of_writes {f : Bytes → Except Minicbor.Err (α × Bytes)} {enc : α → Enc} :
    ∀ {l : List α}, (∀ x ∈ l, Writes (enc x) (Decoder.lift f) x) →
      ∃ c, (forM l enc).run = .ok ((), c) ∧ ∀ r, EachRead f l (c ++ r) r := by
  intro l
  induction l with
  | nil => intro _; exact ⟨[], rfl, fun _ => EachRead.nil⟩
  | cons x l ih =>
      intro h
      obtain ⟨c, hc, hy⟩ := h x (by simp)
      obtain ⟨d, hd, hl⟩ := ih fun y hy => h y (by simp [hy])
      refine ⟨c ++ d, ?_, fun r => ?_⟩
      · rw [List.forM_cons]
        exact Printer.run_bind_of_ok hc hd
      · rw [List.append_assoc]
        exact EachRead.cons (Decoder.lift_run_ok.mp (hy _)) (hl r)

theorem writes_vec {f : Bytes → Except Minicbor.Err (α × Bytes)} {P : α → Prop} {enc : α → Enc}
    (hf : Reads NoPieces 1 (Decoder.lift f) P) {l : List α} (hlen : l.length < 2 ^ 64)
    (hl : ∀ x ∈ l, Writes (enc x) (Decoder.lift f) x) :
    Writes (do Encoder.array (UInt64.ofNat l.length); forM l enc) (Decoder.vec f) l := by
  obtain ⟨c, hc, hread⟩ := eachRead_of_writes hl
  have hn : (UInt64.ofNat l.length).toNat = l.length := UInt64.toNat_ofNat_of_lt' hlen
  refine ⟨_, Printer.run_bind_of_ok (by rw [Encoder.array]; rfl) hc, fun r => ?_⟩
  rw [LawfulMinicbor.writeArray_eq, hn, List.append_assoc]
  refine Decoder.lift_run_ok.mpr ((LawfulMinicbor.readVec_ok (shrinks hf)).mpr (Or.inl ?_))
  exact ⟨_, _, head_shortHead 4 hlen, rfl, hread r⟩

theorem writes_vecU32 {l : List UInt32} (hlen : l.length < 2 ^ 64) :
    Writes (Encoder.vecU32 l) (Decoder.vec Minicbor.readU32) l := by
  obtain ⟨c, hc, hread⟩ := eachRead_of_writes (f := Minicbor.readU32) (l := l) fun x _ =>
    writes_u32 x
  have hflat : c = l.flatMap fun n => shortHead 0 n.toNat := by
    suffices h : (forM l Encoder.u32).run = .ok ((), l.flatMap fun n => shortHead 0 n.toNat) by
      rw [hc] at h
      cases h
      rfl
    clear hlen hc hread
    induction l with
    | nil => rfl
    | cons x l ih =>
        rw [List.forM_cons, List.flatMap_cons]
        exact Printer.run_bind_of_ok (by rw [Encoder.u32, LawfulMinicbor.writeU32_eq]; rfl) ih
  rw [Encoder.vecU32, LawfulMinicbor.writeVecU32_eq hlen, ← hflat]
  refine ⟨_, rfl, fun r => ?_⟩
  rw [List.append_assoc]
  refine Decoder.lift_run_ok.mpr ((LawfulMinicbor.readVec_ok (shrinks reads_u32)).mpr (Or.inl ?_))
  exact ⟨_, _, head_shortHead 4 hlen, rfl, hread r⟩

/-- A look at the type of what was written says what it was written as. -/
theorem writes_peek {p : Enc} {T : DataType → Prop} {f : DataType → Dec α} {a : α}
    (hp : Starts p T) {t : DataType} (ht : T t) (hf : ∀ t', T t' → Writes p (f t') a) :
    Writes p (Decoder.datatype >>= f) a := by
  obtain ⟨c, hpc, -⟩ := hf t ht
  obtain ⟨t', ht', heq⟩ := hp c hpc
  obtain ⟨c', hpc', hy⟩ := hf t' ht'
  obtain rfl : c' = c := by
    rw [hpc] at hpc'
    cases hpc'
    rfl
  refine ⟨c', hpc, fun r => ?_⟩
  rw [Parser.run_bind_of_ok (datatype_run_ok.mpr ⟨heq r, rfl⟩)]
  exact hy r

/-- The same where the type is known. -/
theorem writes_peek_eq {p : Enc} {t : DataType} {f : DataType → Dec α} {a : α}
    (hp : Starts p (fun t' => t' = t)) (hf : Writes p (f t) a) :
    Writes p (Decoder.datatype >>= f) a := by
  refine writes_peek hp rfl fun t' ht' => ?_
  subst ht'
  exact hf

end Writes

end C509
