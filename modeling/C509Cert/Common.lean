/-
The shared building blocks of the grammar (`common.rs`).

Every type comes with its `decode` and `encode`, its `Valid` values, and three facts:
a decoder reads whole items and returns valid values (`reads_…`), a valid value is
written and read back (`writes_…`), and a decoder reserves memory only in the ways the
crate knows (`logs_…`).

`Valid` holds what the wire format can express.  One of its conditions is no restriction
on the values a program can hold: lengths fit the `u64` of a header, as the length of
anything held in memory does.  What it asks of the parts other crates answer for is a
parameter, the `Demands`: a decoder returns identifiers that were read from some octets,
and items that `skip` stepped over; what is to be read back needs identifiers that the
`oid` crate reads from the very octets it writes for them.
-/
import C509Cert.Coder
import C509Cert.External

namespace C509

open Cbor Codec

theorem toOption_eq_some {ε α : Type} {x : Except ε α} {a : α} :
    x.toOption = some a ↔ x = .ok a := by
  cases x <;> simp [Except.toOption]

/-! ### Integers -/

/-- `i32::unsigned_abs` -/
def unsignedAbs (n : Int32) : UInt32 := UInt32.ofNat n.toInt.natAbs

/-- `u16::try_from(u32)` -/
def u16TryFrom (n : UInt32) : Option UInt16 :=
  if n.toNat < 2 ^ 16 then some (UInt16.ofNat n.toNat) else none

/-- `i32::try_from(u32)` -/
def i32TryFrom (n : UInt32) : Option Int32 :=
  if n.toNat < 2 ^ 31 then some (Int32.ofNat n.toNat) else none

/-- `i32::checked_neg` -/
def checkedNeg (n : Int32) : Option Int32 := if n = Int32.minValue then none else some (-n)

/-- `i64::try_from(u64)` -/
def i64TryFrom (n : UInt64) : Option Int := if n.toNat < 2 ^ 63 then some n.toNat else none

/-- `u64::try_from`, of an `i64` or an `i128` -/
def u64TryFrom (v : Int) : Option UInt64 :=
  if 0 ≤ v ∧ v < 2 ^ 64 then some (UInt64.ofNat v.toNat) else none

theorem unsignedAbs_toNat (n : Int32) : (unsignedAbs n).toNat = n.toInt.natAbs := by
  have hlo := n.le_toInt
  have hhi := n.toInt_lt
  exact UInt32.toNat_ofNat_of_lt' (show n.toInt.natAbs < 2 ^ 32 by omega)

theorem toInt32_eq (n : UInt32) : n.toInt32 = Int32.ofNat n.toNat := by
  conv_lhs => rw [← UInt32.ofNat_toNat (x := n)]
  exact UInt32.toInt32_ofNat'

theorem toInt_toInt32 {n : UInt32} (h : n.toNat < 2 ^ 31) : n.toInt32.toInt = n.toNat := by
  rw [toInt32_eq, Int32.toInt_ofNat_of_lt h]

theorem i32TryFrom_eq {n : UInt32} (hn : n.toNat < 2 ^ 31) : i32TryFrom n = some n.toInt32 := by
  rw [i32TryFrom, if_pos hn, ← toInt32_eq]

theorem toNat_toUInt32 {n : Int32} (h : 0 ≤ n.toInt) : n.toUInt32.toNat = n.toInt.toNat := by
  rw [Int32.toNat_toUInt32_of_le (Int32.le_iff_toInt_le.mpr h)]
  rfl

/-! ### Counts -/

/-- A count of items that is divided by `k` is a count of groups. -/
theorem exists_groups_iff {k : UInt64} (hk : 0 < k.toNat) {Q : Nat → Nat → Prop} :
    (∃ n : UInt64, n % k = 0 ∧ Q n.toNat (n / k).toNat) ↔
      ∃ m, m * k.toNat < 2 ^ 64 ∧ Q (m * k.toNat) m := by
  constructor
  · rintro ⟨n, hmod, hQ⟩
    have hmod' : n.toNat % k.toNat = 0 := by
      rw [← UInt64.toNat_mod, hmod]
      rfl
    have hn : (n / k).toNat * k.toNat = n.toNat := by
      rw [UInt64.toNat_div]
      exact Nat.div_mul_cancel (Nat.dvd_of_mod_eq_zero hmod')
    exact ⟨(n / k).toNat, by rw [hn]; exact n.toNat_lt, by rwa [hn]⟩
  · rintro ⟨m, hlt, hQ⟩
    have hn : (UInt64.ofNat (m * k.toNat)).toNat = m * k.toNat := UInt64.toNat_ofNat_of_lt' hlt
    refine ⟨UInt64.ofNat (m * k.toNat), ?_, ?_⟩
    · apply UInt64.toNat_inj.mp
      rw [UInt64.toNat_mod, hn, Nat.mul_mod_left]
      rfl
    · rwa [UInt64.toNat_div, hn, Nat.mul_div_cancel _ hk]

/-- A count below `2 ^ 64` is what some header holds. -/
theorem exists_uint64_iff {Q : Nat → Prop} :
    (∃ n : UInt64, Q n.toNat) ↔ ∃ n, n < 2 ^ 64 ∧ Q n := by
  constructor
  · rintro ⟨n, hQ⟩
    exact ⟨n.toNat, n.toNat_lt, hQ⟩
  · rintro ⟨n, hlt, hQ⟩
    have hn : (UInt64.ofNat n).toNat = n := UInt64.toNat_ofNat_of_lt' hlt
    exact ⟨UInt64.ofNat n, by rwa [hn]⟩

variable [Minicbor]

/-! ### Array headers -/

/-- `definite_array_len` -/
def definiteArrayLen : Dec UInt64 := do
  okOr (← Decoder.array) "indefinite-length arrays are not supported"

/-- `expect_array_len` -/
def expectArrayLen (want : UInt64) : Dec Unit := do
  let len ← definiteArrayLen
  ensure (len = want) "unexpected array length"

/-- The loop the array decoders share: one element after the other. -/
def decodeArray {α : Type} (reserve : Nat → Dec Unit) (m : Dec α) : Dec (List α) := do
  let len ← definiteArrayLen
  reserve len.toNat
  Parser.times len.toNat m

/-- The loop the flattened arrays share: `k` items make a group. -/
def decodeGroups {α : Type} (reserve : Nat → Dec Unit) (k : UInt64) (msg : String) (m : Dec α) :
    Dec (List α) := do
  let len ← definiteArrayLen
  ensure (len % k = 0) msg
  reserve (len / k).toNat
  Parser.times (len / k).toNat m

/-- The writing side of both: a header for `k` items each, then the elements. -/
def encodeGroups {α : Type} (k : UInt64) (l : List α) (enc : α → Enc) : Enc := do
  Encoder.array (UInt64.ofNat l.length * k)
  forM l enc

/-- Elements that are written alike make lists that are written alike. -/
theorem encodeGroups_map {α : Type} {k : UInt64} {enc : α → Enc} {f : α → α}
    (hf : ∀ x, enc (f x) = enc x) (l : List α) :
    encodeGroups k (l.map f) enc = encodeGroups k l enc := by
  have hloop : ∀ l : List α, forM (l.map f) enc = forM l enc := by
    intro l
    induction l with
    | nil => rfl
    | cons x l ih => rw [List.map_cons, List.forM_cons, List.forM_cons, ih, hf]
  rw [encodeGroups, encodeGroups, hloop, List.length_map]

section ArrayRules

variable [LawfulMinicbor] {X : Bytes → Prop} {α β : Type} {Q : β → Prop}

theorem definiteArrayLen_run_ok {b r : Bytes} {n : UInt64} :
    definiteArrayLen.run b = .ok (n, r) ↔ ∃ h, Head 4 n.toNat h ∧ b = h ++ r := by
  rw [← LawfulMinicbor.readArray_some, ← Decoder.lift_run_ok]
  constructor
  · intro hrun
    obtain ⟨o, b', ho, hget⟩ := Parser.run_bind_ok_iff.mp hrun
    cases o with
    | none => cases hget
    | some m =>
        cases hget
        exact ho
  · intro hrun
    exact Parser.run_bind_of_ok hrun

/-- A definite-length array of the items its header announces. -/
theorem reads_definiteArray {f : UInt64 → Dec β} (hf : ∀ n, Reads X n.toNat (f n) Q) :
    Reads X 1 (definiteArrayLen >>= f) Q := by
  unfold definiteArrayLen
  rw [Parser.bind_assoc]
  refine reads_array (fun n => ?_) (fun b y h => ?_)
  · exact Reads.step (Reads.get _ _) fun a ha => by
      obtain rfl := Option.some.inj ha
      exact hf n
  · cases h

/-- A definite-length array of exactly `want` items. -/
theorem reads_expectArray {want : UInt64} {f : Unit → Dec β}
    (hf : Reads X want.toNat (f ()) Q) : Reads X 1 (expectArrayLen want >>= f) Q := by
  unfold expectArrayLen
  rw [Parser.bind_assoc]
  refine reads_definiteArray fun n => Reads.step (Reads.ensure _) fun _ hn => ?_
  subst hn
  exact hf

theorem writes_definiteArray (n : UInt64) : Writes (Encoder.array n) definiteArrayLen n := by
  obtain ⟨c, hc, hy⟩ := writes_array n
  refine ⟨c, hc, fun r => ?_⟩
  unfold definiteArrayLen
  rw [Parser.run_bind_of_ok (hy r)]
  rfl

theorem writes_expectArray (n : UInt64) : Writes (Encoder.array n) (expectArrayLen n) () := by
  obtain ⟨c, hc, hy⟩ := writes_definiteArray n
  refine ⟨c, hc, fun r => ?_⟩
  unfold expectArrayLen
  rw [Parser.run_bind_of_ok (hy r), ensure, Parser.ensure, if_pos rfl]
  rfl

variable {reserve : Nat → Dec Unit} {m : Dec α} {P : α → Prop}

theorem reads_decodeArray (hreserve : ∀ n, Reads X 0 (reserve n) fun _ => True)
    (hm : Reads X 1 m P) :
    Reads X 1 (decodeArray reserve m) fun l => l.length < 2 ^ 64 ∧ ∀ a ∈ l, P a := by
  refine reads_definiteArray fun n => Reads.step (hreserve _) fun _ _ => ?_
  refine ((Reads.times hm _).weaken ?_).cast (Nat.mul_one _)
  rintro l ⟨hlen, hl⟩
  exact ⟨by rw [hlen]; exact n.toNat_lt, hl⟩

omit [Minicbor] [LawfulMinicbor] in
/-- A header that falls into groups of `k` announces `k` items for each. -/
theorem groups_mul {n k : UInt64} (h : n % k = 0) : (n / k).toNat * k.toNat = n.toNat := by
  have hmod : n.toNat % k.toNat = 0 := by
    rw [← UInt64.toNat_mod, h]
    rfl
  rw [UInt64.toNat_div]
  exact Nat.div_mul_cancel (Nat.dvd_of_mod_eq_zero hmod)

theorem reads_decodeGroups {k : UInt64} {msg : String}
    (hreserve : ∀ n, Reads X 0 (reserve n) fun _ => True) (hm : Reads X k.toNat m P) :
    Reads X 1 (decodeGroups reserve k msg m) fun l =>
      l.length * k.toNat < 2 ^ 64 ∧ ∀ a ∈ l, P a := by
  refine reads_definiteArray fun n => Reads.step (Reads.ensure _) fun _ hmod =>
    Reads.step (hreserve _) fun _ _ => ?_
  refine ((Reads.times hm _).weaken ?_).cast (groups_mul hmod)
  rintro l ⟨hlen, hl⟩
  exact ⟨by rw [hlen, groups_mul hmod]; exact n.toNat_lt, hl⟩

theorem writes_decodeArray {enc : α → Enc} {l : List α} (hlen : l.length < 2 ^ 64)
    (hreserve : ∀ n, Yields (reserve n) [] ()) (hm : ∀ x ∈ l, Writes (enc x) m x) :
    Writes (do Encoder.array (UInt64.ofNat l.length); forM l enc) (decodeArray reserve m) l := by
  have hn : (UInt64.ofNat l.length).toNat = l.length := UInt64.toNat_ofNat_of_lt' hlen
  have hloop : Writes (forM l enc) (Parser.times l.length m) (l.map id) := Writes.times l hm
  rw [List.map_id] at hloop
  refine Writes.bind (writes_definiteArray _) (Writes.step (hreserve _) ?_)
  rwa [hn]

variable {enc : β → Enc} {g : β → α}

omit [Minicbor] [LawfulMinicbor] in
/-- The header that is written for groups of `k` announces them. -/
theorem groups_ofNat {k : UInt64} {n : Nat} (hk : 0 < k.toNat) (hlen : n * k.toNat < 2 ^ 64) :
    UInt64.ofNat n * k % k = 0 ∧ (UInt64.ofNat n * k / k).toNat = n := by
  have hl : (UInt64.ofNat n).toNat = n := UInt64.toNat_ofNat_of_lt' (by nlinarith)
  have hn : (UInt64.ofNat n * k).toNat = n * k.toNat := by
    rw [UInt64.toNat_mul, hl, Nat.mod_eq_of_lt hlen]
  refine ⟨UInt64.toNat_inj.mp ?_, ?_⟩
  · rw [UInt64.toNat_mod, hn, Nat.mul_mod_left]
    rfl
  · rw [UInt64.toNat_div, hn, Nat.mul_div_cancel _ hk]

theorem writes_decodeGroups {k : UInt64} {msg : String} {l : List β} (hk : 0 < k.toNat)
    (hlen : l.length * k.toNat < 2 ^ 64) (hreserve : ∀ n, Yields (reserve n) [] ())
    (hm : ∀ x ∈ l, Writes (enc x) m (g x)) :
    Writes (encodeGroups k l enc) (decodeGroups reserve k msg m) (l.map g) := by
  obtain ⟨hmod, hdiv⟩ := groups_ofNat hk hlen
  refine Writes.bind (writes_definiteArray _) (Writes.step (a := ()) (fun r => ?_)
    (Writes.step (hreserve _) ?_))
  · rw [ensure, Parser.ensure, if_pos hmod]
    rfl
  · rw [hdiv]
    exact Writes.times l hm

/-- Groups that are each read back are read back. -/
theorem writes_groups {k : UInt64} {msg : String} {enc : α → Enc} {l : List α} (hk : 0 < k.toNat)
    (hlen : l.length * k.toNat < 2 ^ 64) (hreserve : ∀ n, Yields (reserve n) [] ())
    (hm : ∀ x ∈ l, Writes (enc x) m x) :
    Writes (encodeGroups k l enc) (decodeGroups reserve k msg m) l := by
  have h : Writes (encodeGroups k l enc) (decodeGroups reserve k msg m) (l.map id) :=
    writes_decodeGroups hk hlen hreserve hm
  rwa [List.map_id] at h

omit [LawfulMinicbor] in
theorem reads_withCapacity (site : Site) (n : Nat) :
    Reads X 0 (withCapacity site n) fun _ => True := Reads.emit _

omit [LawfulMinicbor] in
theorem reads_withBoundedCapacity (site : Site) (n : Nat) :
    Reads X 0 (withBoundedCapacity site n) fun _ => True := Reads.emit _

omit [LawfulMinicbor] in
theorem yields_withCapacity (site : Site) (n : Nat) : Yields (withCapacity site n) [] () :=
  fun _ => rfl

omit [LawfulMinicbor] in
theorem yields_withBoundedCapacity (site : Site) (n : Nat) :
    Yields (withBoundedCapacity site n) [] () := fun _ => rfl

end ArrayRules

/-! ### Memory

A site either trusts the header or caps it by the input that is left.
-/

/-- The sites whose capacity goes through `bounded_capacity`. -/
def Site.bounded : Site → Bool
  | .rdnValues | .ipFamilies | .ipEntries | .asIdentifiers => true
  | _ => false

/-- The capacity asked for is the one the site computes from the header. -/
def Reserve.Computed (e : Reserve) : Prop :=
  e.requested = if e.site.bounded then min e.announced e.remaining else e.announced

section LogRules

variable {α β : Type} {E : Reserve → Prop}

theorem logs_lift (f : Bytes → Except Minicbor.Err (α × Bytes)) :
    Logs (Decoder.lift f) E := by
  intro b e he
  cases he

theorem logs_withCapacity {site : Site} (hs : site.bounded = false) (n : Nat) :
    Logs (withCapacity site n) Reserve.Computed := by
  refine Logs.emit fun b => ?_
  simp [Reserve.Computed, hs]

theorem logs_withBoundedCapacity {site : Site} (hs : site.bounded = true) (n : Nat) :
    Logs (withBoundedCapacity site n) Reserve.Computed := by
  refine Logs.emit fun b => ?_
  simp [Reserve.Computed, hs]

theorem logs_definiteArrayLen : Logs definiteArrayLen E :=
  Logs.bind (logs_lift _) fun _ => Logs.get _ _

theorem logs_expectArrayLen (want : UInt64) : Logs (expectArrayLen want) E :=
  Logs.bind logs_definiteArrayLen fun _ => Logs.ensure _ _

variable {reserve : Nat → Dec Unit} {m : Dec α}

theorem logs_decodeArray (hreserve : ∀ n, Logs (reserve n) E) (hm : Logs m E) :
    Logs (decodeArray reserve m) E :=
  Logs.bind logs_definiteArrayLen fun _ => Logs.bind (hreserve _) fun _ => Logs.times hm _

theorem logs_decodeGroups {k : UInt64} {msg : String}
    (hreserve : ∀ n, Logs (reserve n) E) (hm : Logs m E) :
    Logs (decodeGroups reserve k msg m) E :=
  Logs.bind logs_definiteArrayLen fun _ => Logs.bind (Logs.ensure _ _) fun _ =>
    Logs.bind (hreserve _) fun _ => Logs.times hm _

end LogRules

/-! ### Optional integers, big numbers, times -/

/-- `decode_opt_uint` -/
def decodeOptUint : Dec (Option UInt32) := do
  if (← Decoder.datatype) = .null then
    Decoder.null
    return none
  else
    return some (← Decoder.u32)

/-- `encode_opt_uint` -/
def encodeOptUint : Option UInt32 → Enc
  | some n => Encoder.u32 n
  | none => Encoder.null

/-- `read_biguint` -/
def readBiguint : Dec BigUint := do
  return BigUint.fromBytesBe (← Decoder.bytes)

/-- `biguint_bytes` -/
def biguintBytes (n : BigUint) : Bytes := BigUint.toBytesBe n

/-- `read_time` -/
def readTime : Dec OffsetDateTime := do
  let secs ← okOr (i64TryFrom (← Decoder.u64)) "POSIX timestamp out of range"
  okOr (OffsetDateTime.fromUnixTimestamp secs) "POSIX timestamp out of range"

/-- `encode_time` -/
def encodeTime (dt : OffsetDateTime) : Enc :=
  match u64TryFrom dt.unixTimestamp with
  | some secs => Encoder.u64 secs
  | none => refuse "validity time predates the Unix epoch"

/-- The bytes of `n` fit a vector. -/
def BigUint.Valid (n : BigUint) : Prop := (biguintBytes n).length < 2 ^ 64

section

variable [LawfulMinicbor] {X : Bytes → Prop}

theorem reads_decodeOptUint : Reads X 1 decodeOptUint fun _ => True := by
  refine reads_peek fun t => ?_
  split
  · exact Reads.map reads_null fun _ _ => trivial
  · exact Reads.map reads_u32 fun _ _ => trivial

theorem writes_optUint (v : Option UInt32) : Writes (encodeOptUint v) decodeOptUint v := by
  cases v with
  | none => exact writes_peek_eq starts_null (Writes.map writes_null)
  | some n =>
      refine writes_peek (starts_u32 n) (t := .u8) rfl fun t ht => ?_
      rw [if_neg (by rintro rfl; cases ht)]
      exact Writes.map (writes_u32 n)

omit [Minicbor] [LawfulMinicbor] in
theorem BigUint.valid_fromBytesBe {s : Bytes} (hs : s.length < 2 ^ 64) :
    BigUint.Valid (BigUint.fromBytesBe s) := by
  have hle := BigUint.length_toBytesBe_fromBytesBe s
  show (BigUint.toBytesBe (BigUint.fromBytesBe s)).length < 2 ^ 64
  omega

theorem reads_readBiguint : Reads X 1 readBiguint BigUint.Valid :=
  Reads.map reads_bytes fun _ hs => BigUint.valid_fromBytesBe hs

theorem writes_biguint {n : BigUint} (hn : n.Valid) :
    Writes (Encoder.bytes (biguintBytes n)) readBiguint n := by
  have h := Writes.map (g := BigUint.fromBytesBe) (writes_bytes hn)
  rwa [biguintBytes, BigUint.fromBytesBe_toBytesBe] at h

theorem reads_readTime : Reads X 1 readTime OffsetDateTime.Valid := by
  refine Reads.bind (j := 0) reads_u64 fun n _ => Reads.step (Reads.get _ _) fun secs hsecs => ?_
  refine (Reads.get _ _).weaken fun t ht => ?_
  unfold i64TryFrom at hsecs
  unfold OffsetDateTime.fromUnixTimestamp at ht
  split at hsecs
  · split at ht
    · cases hsecs
      cases ht
      exact ⟨n.toNat, by omega, by omega, rfl⟩
    · cases ht
  · cases hsecs

theorem starts_time (t : OffsetDateTime) : Starts (encodeTime t) (fun ty => ty.isInt = true) := by
  unfold encodeTime
  split
  · exact starts_u64 _
  · rintro c ⟨⟩

theorem writes_time {t : OffsetDateTime} (ht : t.Valid) : Writes (encodeTime t) readTime t := by
  obtain ⟨secs, hlo, hhi, hnanos⟩ := ht
  have hmax : maxTimestamp = 253402300799 := rfl
  have hmin : minTimestamp = -377705116800 := rfl
  have hsecs := OffsetDateTime.unixTimestamp_eq hnanos
  have hn : (UInt64.ofNat secs.toNat).toNat = secs.toNat :=
    UInt64.toNat_ofNat_of_lt' (show secs.toNat < 2 ^ 64 by omega)
  have hu : u64TryFrom t.unixTimestamp = some (UInt64.ofNat secs.toNat) := by
    rw [hsecs]
    exact if_pos ⟨hlo, by omega⟩
  have hi : i64TryFrom (UInt64.ofNat secs.toNat) = some secs := by
    unfold i64TryFrom
    rw [hn, if_pos (by omega)]
    congr 1
    omega
  have hfrom : OffsetDateTime.fromUnixTimestamp secs = some t := by
    unfold OffsetDateTime.fromUnixTimestamp
    rw [if_pos ⟨by omega, hhi⟩, ← hnanos]
  unfold encodeTime
  rw [hu]
  obtain ⟨c, hc, hy⟩ := writes_u64 (UInt64.ofNat secs.toNat)
  refine ⟨c, hc, fun r => ?_⟩
  unfold readTime
  rw [Parser.run_bind_of_ok (hy r), hi, okOr, Parser.get]
  show (okOr (OffsetDateTime.fromUnixTimestamp secs) _).run r = _
  rw [hfrom]
  rfl

end

theorem logs_decodeOptUint {E : Reserve → Prop} : Logs decodeOptUint E := by
  refine Logs.bind (logs_lift _) fun t => ?_
  split
  · exact Logs.bind (logs_lift _) fun _ => Logs.pure _
  · exact Logs.bind (logs_lift _) fun _ => Logs.pure _

theorem logs_readBiguint {E : Reserve → Prop} : Logs readBiguint E :=
  Logs.bind (logs_lift _) fun _ => Logs.pure _

theorem logs_readTime {E : Reserve → Prop} : Logs readTime E :=
  Logs.bind (logs_lift _) fun _ => Logs.bind (Logs.get _ _) fun _ => Logs.get _ _

/-! ### Raw items -/

/-- `raw_item`: the bytes of the next item, as they stand. -/
def rawItem : Dec Bytes :=
  { run := fun b =>
      match Decoder.skip.run b with
      | .ok ((), r) => .ok (b.take (b.length - r.length), r)
      | .error e => .error e
    log := fun _ => [] }

/-- `write_raw` -/
def writeRaw (raw : Bytes) : Enc := Printer.put raw

section

variable [LawfulMinicbor]

omit [LawfulMinicbor] in
theorem rawItem_run {raw : Bytes} (hraw : Skipped raw) (r : Bytes) :
    rawItem.run (raw ++ r) = .ok (raw, r) := by
  have hskip : Decoder.skip.run (raw ++ r) = .ok ((), r) := Decoder.lift_run_ok.mpr (hraw r)
  simp [rawItem, hskip]

theorem rawItem_run_ok {b raw r : Bytes} :
    rawItem.run b = .ok (raw, r) ↔ b = raw ++ r ∧ Skipped raw := by
  constructor
  · intro hrun
    unfold rawItem at hrun
    simp only at hrun
    split at hrun
    · rename_i t hskip
      obtain ⟨c, rfl, hc⟩ := LawfulMinicbor.skip_skipped (Decoder.lift_run_ok.mp hskip)
      simp only [List.length_append, Nat.add_sub_cancel, List.take_left, Except.ok.injEq,
        Prod.mk.injEq] at hrun
      obtain ⟨rfl, rfl⟩ := hrun
      exact ⟨rfl, hc⟩
    · cases hrun
  · rintro ⟨rfl, hraw⟩
    exact rawItem_run hraw r

/-- **What is captured is exactly what `skip` steps over.** -/
theorem reads_rawItem : Reads Skipped 1 rawItem Skipped := by
  intro b raw r hrun
  obtain ⟨rfl, hraw⟩ := rawItem_run_ok.mp hrun
  refine ⟨raw, rfl, ?_, hraw, rawItem_run hraw⟩
  simpa using Units.piece hraw hraw.headed Units.nil

omit [LawfulMinicbor] in
theorem writes_raw {raw : Bytes} (hraw : Skipped raw) : Writes (writeRaw raw) rawItem raw :=
  ⟨raw, rfl, rawItem_run hraw⟩

end

theorem logs_rawItem {E : Reserve → Prop} : Logs rawItem E := by
  intro b e he
  cases he

/-! ### What other crates answer for -/

/-- What is asked of the parts of a value that other crates answer for. -/
structure Demands where
  /-- of its object identifiers -/
  oid : ObjectIdentifier → Prop
  /-- of the items it keeps raw -/
  raw : Bytes → Prop

namespace Demands

/-- What decoding ensures. -/
def decoded [OidCrate] : Demands := ⟨ObjectIdentifier.Read, Skipped⟩

/-- What reading back takes. -/
def readBack [OidCrate] : Demands := ⟨ObjectIdentifier.Valid, Skipped⟩

/-- Identifiers that are read back, and raw values that are well-formed items. -/
def wellFormed [OidCrate] : Demands := ⟨ObjectIdentifier.Valid, Item⟩

/-- What `D` asks is enough for `E`. -/
structure Meet (D E : Demands) : Prop where
  oid {o : ObjectIdentifier} : D.oid o → E.oid o
  raw {b : Bytes} : D.raw b → E.raw b

theorem decoded_meet [OidCrate] [OidReadsBack] : decoded.Meet readBack :=
  ⟨fun h => h.valid, fun h => h⟩

theorem wellFormed_meet [OidCrate] [LawfulMinicbor] : wellFormed.Meet readBack :=
  ⟨fun h => h, LawfulMinicbor.skip_item⟩

end Demands

/-! ### MAC addresses and object identifiers -/

/-- `MacAddr::from`, for the two lengths an address has. -/
def MacAddr.ofBytes (bytes : Bytes) : Option MacAddr :=
  if h : bytes.length = 6 ∨ bytes.length = 8 then some ⟨bytes, h⟩ else none

/-- `decode_mac` -/
def decodeMac (bytes : Bytes) : Dec MacAddr :=
  okOr (MacAddr.ofBytes bytes) "MAC address must be 6 or 8 bytes"

/-- A MAC address in a byte string. -/
def macBytes : Dec MacAddr := do
  decodeMac (← Decoder.bytes)

variable [OidCrate]

/-- `decode_oid` -/
def decodeOid : Dec ObjectIdentifier := do
  okOr (OidCrate.tryFrom (← Decoder.bytes)) "invalid OID"

/-- `oid_bytes` -/
def oidBytes (oid : ObjectIdentifier) : Bytes := OidCrate.toVec oid

section

variable [LawfulMinicbor] {X : Bytes → Prop}

omit [OidCrate] in
theorem reads_macBytes : Reads X 1 macBytes fun _ => True :=
  Reads.bind (j := 0) reads_bytes fun _ _ => (Reads.get _ _).weaken fun _ _ => trivial

omit [OidCrate] in
theorem writes_mac (mac : MacAddr) : Writes (Encoder.bytes mac.bytes) macBytes mac := by
  have hlen : mac.bytes.length < 2 ^ 64 := by
    rcases mac.size with h | h <;> omega
  obtain ⟨c, hc, hy⟩ := writes_bytes hlen
  refine ⟨c, hc, fun r => ?_⟩
  unfold macBytes
  rw [Parser.run_bind_of_ok (hy r), decodeMac, MacAddr.ofBytes, dif_pos mac.size]
  rfl

theorem reads_decodeOid [LawfulOid] : Reads X 1 decodeOid ObjectIdentifier.Read := by
  refine Reads.bind (j := 0) reads_bytes fun s hs => (Reads.get _ _).weaken fun o ho => ?_
  exact ⟨⟨s, ho⟩, LawfulOid.length_toVec ho hs⟩

theorem writes_oid {oid : ObjectIdentifier} (h : oid.Valid) :
    Writes (Encoder.bytes (oidBytes oid)) decodeOid oid := by
  obtain ⟨c, hc, hy⟩ := writes_bytes h.2
  refine ⟨c, hc, fun r => ?_⟩
  unfold decodeOid
  rw [Parser.run_bind_of_ok (hy r), h.1]
  rfl

theorem starts_oid {oid : ObjectIdentifier} (h : oid.Valid) :
    Starts (Encoder.bytes (oidBytes oid)) (fun t => t = .bytes) := starts_bytes h.2

end

omit [OidCrate] in
theorem logs_macBytes {E : Reserve → Prop} : Logs macBytes E :=
  Logs.bind (logs_lift _) fun _ => Logs.get _ _

theorem logs_decodeOid {E : Reserve → Prop} : Logs decodeOid E :=
  Logs.bind (logs_lift _) fun _ => Logs.get _ _

/-! ### `IntOrOid` -/

/-- An identifier that is either a registered int or an unregistered OID. -/
inductive IntOrOid
  | int (n : Int32)
  | oid (o : ObjectIdentifier)
  deriving DecidableEq

namespace IntOrOid

def decode : Dec IntOrOid := do
  match ← Decoder.datatype with
  | .bytes => return .oid (← decodeOid)
  | _ => return .int (← Decoder.i32)

def encode : IntOrOid → Enc
  | .int n => Encoder.i32 n
  | .oid o => Encoder.bytes (oidBytes o)

/-- `impl minicbor::Decode for IntOrOid` -/
def minicborDecode (b : Bytes) : Except Minicbor.Err (IntOrOid × Bytes) :=
  match decode.run b with
  | .ok v => .ok v
  | .error e => .error e.intoMinicbor

def Valid (D : Demands) : IntOrOid → Prop
  | .int _ => True
  | .oid o => D.oid o

omit [Minicbor] [OidCrate] in
theorem Valid.mono {D E : Demands} (h : D.Meet E) {v : IntOrOid} (hv : v.Valid D) :
    v.Valid E := by
  cases v with
  | int n => trivial
  | oid o => exact h.oid hv

variable [LawfulMinicbor] {X : Bytes → Prop}

theorem reads [LawfulOid] : Reads X 1 decode (Valid .decoded) := by
  refine reads_peek fun t => ?_
  split
  · exact Reads.map reads_decodeOid fun _ h => h
  · exact Reads.map reads_i32 fun _ _ => trivial

theorem writes {v : IntOrOid} (hv : v.Valid .readBack) : Writes v.encode decode v := by
  cases v with
  | int n =>
      refine writes_peek (starts_i32 n) (t := .u8) rfl fun t ht => ?_
      cases t <;> first | exact Writes.map (writes_i32 n) | cases ht
  | oid o => exact writes_peek_eq (starts_oid hv) (Writes.map (writes_oid hv))

omit [LawfulMinicbor] in
theorem logs {E : Reserve → Prop} : Logs decode E := by
  refine Logs.bind (logs_lift _) fun t => ?_
  split
  · exact Logs.bind logs_decodeOid fun _ => Logs.pure _
  · exact Logs.bind (logs_lift _) fun _ => Logs.pure _

end IntOrOid

end C509
