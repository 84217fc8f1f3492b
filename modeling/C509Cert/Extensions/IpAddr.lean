/-
Address blocks and AS identifiers (`ip_addr.rs`).

Both lists are chains of differences: the first number stands for itself, every later one
for its distance from the number before.  The chain's state runs through single entries
and both bounds of ranges alike, and the same rounds of the same loop carry it on either
side, so writing and reading stay in step.

The entries of a family are written as such integers where all of them are short enough,
and as byte strings otherwise.  The decoder finds out which by looking at the first entry
before it takes it.
-/
import C509Cert.Extensions.Address

namespace C509

open Cbor Codec

/-! ### Types -/

/-- `IpAddressOrRange` -/
inductive IpAddressOrRange
  | addressPrefix (net : IpNet)
  | range (min max : IpAddr)
  deriving DecidableEq

/-- `IpAddressChoice` -/
inductive IpAddressChoice
  | inherit
  | prefixes (entries : List IpAddressOrRange)
  deriving DecidableEq

/-- `IpAddressFamily` -/
structure IpAddressFamily where
  afi : UInt16
  safi : Option UInt16
  choice : IpAddressChoice
  deriving DecidableEq

/-- `AsIdOrRange` -/
inductive AsIdOrRange
  | id (n : UInt64)
  | range (min max : UInt64)
  deriving DecidableEq

/-! ### Chains -/

/-- The state of a chain: the number before, and whether there is none yet. -/
structure Chain where
  previous : Int
  first : Bool

namespace Chain

def start : Chain := { previous := 0, first := true }

/-- The state `next_absolute` and `next_delta` leave after the number `abs`. -/
def after (abs : Int) : Chain := { previous := abs, first := false }

/-- `next_absolute` -/
def nextAbsolute (c : Chain) (raw : Int) : Int := if c.first then raw else c.previous + raw

/-- `next_delta` -/
def nextDelta (c : Chain) (abs : Int) : Int := if c.first then abs else abs - c.previous

/-- The number before fits 64 bits. -/
def InRange (c : Chain) : Prop := 0 ≤ c.previous ∧ c.previous < 2 ^ 64

theorem nextAbsolute_nextDelta (c : Chain) (abs : Int) :
    c.nextAbsolute (c.nextDelta abs) = abs := by
  unfold nextAbsolute nextDelta
  split <;> omega

theorem inRange_start : start.InRange := ⟨by decide, by decide⟩

theorem inRange_after {abs : Int} (hlo : 0 ≤ abs) (hhi : abs < 2 ^ 64) : (after abs).InRange :=
  ⟨hlo, hhi⟩

/-- A difference of two 64-bit numbers is a CBOR integer. -/
theorem nextDelta_bounds {c : Chain} (hc : c.InRange) {abs : Int} (hlo : 0 ≤ abs)
    (hhi : abs < 2 ^ 64) : -2 ^ 64 ≤ c.nextDelta abs ∧ c.nextDelta abs < 2 ^ 64 := by
  obtain ⟨hlo', hhi'⟩ := hc
  unfold nextDelta
  split <;> omega

end Chain

variable [Minicbor]

/-- `is_numeric_type` -/
def isNumericType (ty : DataType) : Bool := ty.isInt

/-- `encode_delta` -/
def encodeDelta (delta : Int) : Enc :=
  if -2 ^ 64 ≤ delta ∧ delta < 2 ^ 64 then Encoder.int delta
  else refuse "delta out of CBOR int range"

/-- One element, or a range of two under an array header of its own. -/
def decodeSingleOrRange {α : Type} (msg : String) (single range : Dec α) : Dec α := do
  match ← Decoder.datatype with
  | .array | .arrayIndef =>
      let n ← definiteArrayLen
      ensure (n = 2) msg
      range
  | _ => single

section SingleOrRange

variable [LawfulMinicbor] {X : Bytes → Prop} {α : Type} {msg : String}
  {single range : Dec α} {P : α → Prop}

theorem reads_singleOrRange (hsingle : Reads X 1 single P) (hrange : Reads X 2 range P) :
    Reads X 1 (decodeSingleOrRange msg single range) P := by
  have harray : Reads X 1 (do
      let n ← definiteArrayLen
      ensure (n = 2) msg
      range) P := by
    refine reads_definiteArray fun n => Reads.step (Reads.ensure _) fun _ hn => ?_
    subst hn
    exact hrange
  refine reads_peek fun t => ?_
  split
  · exact harray
  · exact harray
  · exact hsingle

theorem writes_single {p : Enc} {a : α}
    (hp : Starts p fun t => t.isInt = true ∨ t = .bytes) (h : Writes p single a) :
    Writes p (decodeSingleOrRange msg single range) a := by
  refine writes_peek hp (t := .bytes) (Or.inr rfl) fun t ht => ?_
  rcases ht with ht | rfl
  · cases t <;> first | exact h | cases ht
  · exact h

theorem writes_range {p : Enc} {a : α} (h : Writes p range a) :
    Writes (do Encoder.array 2; p) (decodeSingleOrRange msg single range) a :=
  writes_peek_eq (starts_array 2).bind
    (Writes.bind (writes_definiteArray 2) (Writes.step (a := ()) (fun _ => rfl) h))

/-- An array is accepted only as a range of two. -/
theorem singleOrRange_count {n : Nat} {h b r : Bytes} {a : α} (hh : Head 4 n h)
    (hrun : (decodeSingleOrRange msg single range).run (h ++ b) = .ok (a, r)) : n = 2 := by
  obtain ⟨t, b₁, hpeek, hmatch⟩ := Parser.run_bind_ok_iff.mp hrun
  obtain ⟨htype, rfl⟩ := datatype_run_ok.mp hpeek
  rw [typeOf_head (by omega) (by omega) hh b] at htype
  cases htype
  obtain ⟨m, b₂, hm, hrest⟩ := Parser.run_bind_ok_iff.mp hmatch
  obtain ⟨_, _, hensure, _⟩ := Parser.run_bind_ok_iff.mp hrest
  obtain ⟨hm2, -⟩ := Parser.run_ensure_ok_iff.mp hensure
  obtain ⟨h', hh', heq⟩ := definiteArrayLen_run_ok.mp hm
  obtain ⟨-, hn, -, -⟩ := Head.unique (by omega) (by omega) hh hh' heq
  rw [hn, hm2]
  rfl

end SingleOrRange

theorem logs_singleOrRange {α : Type} {E : Reserve → Prop} {msg : String} {single range : Dec α}
    (hsingle : Logs single E) (hrange : Logs range E) :
    Logs (decodeSingleOrRange msg single range) E := by
  have harray : Logs (do
      let n ← definiteArrayLen
      ensure (n = 2) msg
      range) E :=
    Logs.bind logs_definiteArrayLen fun _ => Logs.bind (Logs.ensure _ _) fun _ => hrange
  refine Logs.bind (logs_lift _) fun t => ?_
  split
  · exact harray
  · exact harray
  · exact hsingle

/-! ### Address blocks, decoding -/

/-- The first byte of an address string, and the rest. -/
def splitFirst : Bytes → Except String (UInt8 × Bytes)
  | [] => .error "empty RFC 3779 address byte string"
  | x :: significant => .ok (x, significant)

def decodeIntPrefix (afi : UInt16) (c : Chain) : Dec (IpAddressOrRange × Chain) := do
  let raw ← Decoder.int
  let abs := c.nextAbsolute raw
  let framed ← result (framedFromAbsoluteInt abs)
  let net ← result (buildPrefix afi framed.1 framed.2)
  return (.addressPrefix net, Chain.after abs)

def decodeIntRange (afi : UInt16) (c : Chain) : Dec (IpAddressOrRange × Chain) := do
  let minRaw ← Decoder.int
  let minAbs := c.nextAbsolute minRaw
  let maxRaw ← Decoder.int
  let maxAbs := (Chain.after minAbs).nextAbsolute maxRaw
  let minFramed ← result (framedFromAbsoluteInt minAbs)
  let maxFramed ← result (framedFromAbsoluteInt maxAbs)
  let min ← result (buildAddr afi minFramed.1 0x00)
  let max ← result (buildAddr afi maxFramed.1 0xFF)
  return (.range min max, Chain.after maxAbs)

def decodeBytesPrefix (afi : UInt16) (c : Chain) : Dec (IpAddressOrRange × Chain) := do
  let raw ← Decoder.bytes
  let framed ← result (splitFirst raw)
  let net ← result (buildPrefix afi framed.2 framed.1)
  return (.addressPrefix net, c)

/-- A bound of a range, which has no unused bits. -/
def decodeBound (afi : UInt16) (fill : UInt8) : Dec IpAddr := do
  let raw ← Decoder.bytes
  let framed ← result (splitFirst raw)
  ensure (framed.1 = 0) "RFC 3779 address range bounds must have unusedBits = 0"
  result (buildAddr afi framed.2 fill)

def decodeBytesRange (afi : UInt16) (c : Chain) : Dec (IpAddressOrRange × Chain) := do
  let min ← decodeBound afi 0x00
  let max ← decodeBound afi 0xFF
  return (.range min max, c)

/-- One round of the loop over the entries of a family. -/
def decodeEntry (afi : UInt16) (isIntForm : Bool) (c : Chain) : Dec (IpAddressOrRange × Chain) :=
  if isIntForm then
    decodeSingleOrRange "IntAddressRange must have 2 elements" (decodeIntPrefix afi c)
      (decodeIntRange afi c)
  else
    decodeSingleOrRange "AddressRange must have 2 elements" (decodeBytesPrefix afi c)
      (decodeBytesRange afi c)

/-- The form of a range, by its first bound. -/
def peekRangeForm : Dec Bool := do
  let _ ← definiteArrayLen
  return isNumericType (← Decoder.datatype)

/-- Whether the first entry is in int form. -/
def peekForm : Dec Bool := do
  match ← Decoder.datatype with
  | .array | .arrayIndef => peekRangeForm
  | ty => return isNumericType ty

def decodeEntries (afi : UInt16) : Dec IpAddressChoice := do
  let len ← definiteArrayLen
  if len = 0 then return .prefixes []
  else
    let isIntForm ← Parser.probe peekForm
    withBoundedCapacity .ipEntries len.toNat
    let entries ← Parser.iterate (decodeEntry afi isIntForm) len.toNat Chain.start
    return .prefixes entries

/-- `decode_ip_address_choice` -/
def decodeIpAddressChoice (afi : UInt16) : Dec IpAddressChoice := do
  if (← Decoder.datatype) = .null then
    Decoder.null
    return .inherit
  else decodeEntries afi

def decodeSafi : Dec (Option UInt16) := do
  if (← Decoder.datatype) = .null then
    Decoder.null
    return none
  else return some (← Decoder.u16)

def decodeFamily : Dec IpAddressFamily := do
  let afi ← Decoder.u16
  let safi ← decodeSafi
  let choice ← decodeIpAddressChoice afi
  return { afi, safi, choice }

/-- `decode_ip_address_families` -/
def decodeIpAddressFamilies : Dec (List IpAddressFamily) :=
  decodeGroups (withBoundedCapacity .ipFamilies) 3
    "IPAddrBlocks array length must be a multiple of 3" decodeFamily

/-! ### Address blocks, encoding -/

/-- `ResolvedEntry`: an entry reduced to significant bytes and unused bits. -/
inductive ResolvedEntry
  | addressPrefix (bytes : Bytes) (unusedBits : UInt8)
  | range (minBytes maxBytes : Bytes)

def IpAddressOrRange.resolve : IpAddressOrRange → ResolvedEntry
  | .addressPrefix net => .addressPrefix (prefixToFramed net).1 (prefixToFramed net).2
  | .range min max =>
      .range (addrToFramedTrimmed min 0x00) (addrToFramedTrimmed max 0xFF)

/-- The entry fits the int form. -/
def ResolvedEntry.isShort : ResolvedEntry → Bool
  | .addressPrefix bytes _ => bytes.length < MAX_INT_FORM_BYTES
  | .range minBytes maxBytes =>
      minBytes.length < MAX_INT_FORM_BYTES && maxBytes.length < MAX_INT_FORM_BYTES

/-- `to_encode_err`, on a result taken with `?`. -/
def toEncodeErr {α : Type} : Except String α → Printer EncodeError α
  | .ok a => pure a
  | .error _ => Printer.fail ⟨"address value too large for the CBOR int delta form"⟩

def encodeIntEntry (c : Chain) : ResolvedEntry → Printer EncodeError Chain
  | .addressPrefix bytes unusedBits => do
      let abs ← toEncodeErr (absoluteIntFromFramed bytes unusedBits)
      encodeDelta (c.nextDelta abs)
      return Chain.after abs
  | .range minBytes maxBytes => do
      let minAbs ← toEncodeErr (absoluteIntFromFramed minBytes 0)
      let maxAbs ← toEncodeErr (absoluteIntFromFramed maxBytes 0)
      Encoder.array 2
      encodeDelta (c.nextDelta minAbs)
      encodeDelta ((Chain.after minAbs).nextDelta maxAbs)
      return Chain.after maxAbs

def encodeBytesEntry : ResolvedEntry → Enc
  | .addressPrefix bytes unusedBits => Encoder.bytes (unusedBits :: bytes)
  | .range minBytes maxBytes => do
      Encoder.array 2
      Encoder.bytes (0 :: minBytes)
      Encoder.bytes (0 :: maxBytes)

/-- `encode_ip_address_choice` -/
def encodeIpAddressChoice : IpAddressChoice → Enc
  | .inherit => Encoder.null
  | .prefixes entries => do
      let resolved := entries.map IpAddressOrRange.resolve
      let useIntForm := resolved.all ResolvedEntry.isShort
      Encoder.array (UInt64.ofNat entries.length)
      if useIntForm then Printer.iterate encodeIntEntry resolved Chain.start
      else forM resolved encodeBytesEntry

def encodeSafi : Option UInt16 → Enc
  | some s => Encoder.u16 s
  | none => Encoder.null

def encodeFamily (fam : IpAddressFamily) : Enc := do
  Encoder.u16 fam.afi
  encodeSafi fam.safi
  encodeIpAddressChoice fam.choice

/-- `encode_ip_address_families` -/
def encodeIpAddressFamilies (families : List IpAddressFamily) : Enc :=
  encodeGroups 3 families encodeFamily

/-! ### AS identifiers -/

def decodeAsId (c : Chain) : Dec (AsIdOrRange × Chain) := do
  let raw ← Decoder.int
  let abs := c.nextAbsolute raw
  let n ← okOr (u64TryFrom abs) "AS id out of range"
  return (.id n, Chain.after abs)

def decodeAsRange (c : Chain) : Dec (AsIdOrRange × Chain) := do
  let minRaw ← Decoder.int
  let minAbs := c.nextAbsolute minRaw
  let maxRaw ← Decoder.int
  let maxAbs := (Chain.after minAbs).nextAbsolute maxRaw
  let min ← okOr (u64TryFrom minAbs) "AS id out of range"
  let max ← okOr (u64TryFrom maxAbs) "AS id out of range"
  return (.range min max, Chain.after maxAbs)

def decodeAsEntry (c : Chain) : Dec (AsIdOrRange × Chain) :=
  decodeSingleOrRange "AS id range must have 2 elements" (decodeAsId c) (decodeAsRange c)

def decodeAsEntries : Dec (Option (List AsIdOrRange)) := do
  let len ← definiteArrayLen
  withBoundedCapacity .asIdentifiers len.toNat
  let entries ← Parser.iterate decodeAsEntry len.toNat Chain.start
  return some entries

/-- `decode_as_identifiers` -/
def decodeAsIdentifiers : Dec (Option (List AsIdOrRange)) := do
  if (← Decoder.datatype) = .null then
    Decoder.null
    return none
  else decodeAsEntries

def encodeAsEntry (c : Chain) : AsIdOrRange → Printer EncodeError Chain
  | .id n => do
      let abs : Int := n.toNat
      encodeDelta (c.nextDelta abs)
      return Chain.after abs
  | .range min max => do
      let minAbs : Int := min.toNat
      let maxAbs : Int := max.toNat
      Encoder.array 2
      encodeDelta (c.nextDelta minAbs)
      encodeDelta ((Chain.after minAbs).nextDelta maxAbs)
      return Chain.after maxAbs

/-- `encode_as_identifiers` -/
def encodeAsIdentifiers : Option (List AsIdOrRange) → Enc
  | none => Encoder.null
  | some ids => do
      Encoder.array (UInt64.ofNat ids.length)
      Printer.iterate encodeAsEntry ids Chain.start

/-! ### What the entries take -/

section

variable [LawfulMinicbor] {X : Bytes → Prop}

def IpAddressOrRange.OfFamily (afi : UInt16) : IpAddressOrRange → Prop
  | .addressPrefix net => net.addr.OfFamily afi
  | .range min max => min.OfFamily afi ∧ max.OfFamily afi

/-- Every entry belongs to the family. -/
def IpAddressChoice.Valid (afi : UInt16) : IpAddressChoice → Prop
  | .inherit => True
  | .prefixes entries => entries.length < 2 ^ 64 ∧ ∀ e ∈ entries, e.OfFamily afi

def IpAddressFamily.Valid (fam : IpAddressFamily) : Prop := fam.choice.Valid fam.afi

def FamiliesValid (families : List IpAddressFamily) : Prop :=
  families.length * 3 < 2 ^ 64 ∧ ∀ fam ∈ families, fam.Valid

theorem reads_decodeIntPrefix (afi : UInt16) (c : Chain) :
    Reads X 1 (decodeIntPrefix afi c) fun x => x.1.OfFamily afi :=
  Reads.bind (j := 0) reads_int fun _ _ => Reads.step (reads_result _) fun _ _ =>
    Reads.step (reads_result _) fun _ hnet => Reads.pure (ofFamily_of_buildPrefix hnet)

theorem reads_decodeIntRange (afi : UInt16) (c : Chain) :
    Reads X 2 (decodeIntRange afi c) fun x => x.1.OfFamily afi :=
  Reads.bind (j := 1) reads_int fun _ _ => Reads.bind (j := 0) reads_int fun _ _ =>
    Reads.step (reads_result _) fun _ _ => Reads.step (reads_result _) fun _ _ =>
      Reads.step (reads_result _) fun _ hmin => Reads.step (reads_result _) fun _ hmax =>
        Reads.pure ⟨ofFamily_of_buildAddr hmin, ofFamily_of_buildAddr hmax⟩

theorem reads_decodeBytesPrefix (afi : UInt16) (c : Chain) :
    Reads X 1 (decodeBytesPrefix afi c) fun x => x.1.OfFamily afi :=
  Reads.bind (j := 0) reads_bytes fun _ _ => Reads.step (reads_result _) fun _ _ =>
    Reads.step (reads_result _) fun _ hnet => Reads.pure (ofFamily_of_buildPrefix hnet)

theorem reads_decodeBound (afi : UInt16) (fill : UInt8) :
    Reads X 1 (decodeBound afi fill) (IpAddr.OfFamily afi) :=
  Reads.bind (j := 0) reads_bytes fun _ _ => Reads.step (reads_result _) fun _ _ =>
    Reads.step (Reads.ensure _) fun _ _ =>
      (reads_result _).weaken fun _ h => ofFamily_of_buildAddr h

theorem reads_decodeBytesRange (afi : UInt16) (c : Chain) :
    Reads X 2 (decodeBytesRange afi c) fun x => x.1.OfFamily afi :=
  Reads.bind (j := 1) (reads_decodeBound afi 0x00) fun _ hmin =>
    Reads.map (reads_decodeBound afi 0xFF) fun _ hmax => ⟨hmin, hmax⟩

theorem reads_decodeEntry (afi : UInt16) (isIntForm : Bool) (c : Chain) :
    Reads X 1 (decodeEntry afi isIntForm c) fun x => x.1.OfFamily afi := by
  unfold decodeEntry
  split
  · exact reads_singleOrRange (reads_decodeIntPrefix afi c) (reads_decodeIntRange afi c)
  · exact reads_singleOrRange (reads_decodeBytesPrefix afi c) (reads_decodeBytesRange afi c)

/-- An array among the entries is a range of two. -/
theorem decodeEntry_count {afi : UInt16} {isIntForm : Bool} {c : Chain} {n : Nat}
    {h b r : Bytes} {x : IpAddressOrRange × Chain} (hh : Head 4 n h)
    (hrun : (decodeEntry afi isIntForm c).run (h ++ b) = .ok (x, r)) : n = 2 := by
  unfold decodeEntry at hrun
  split at hrun
  · exact singleOrRange_count hh hrun
  · exact singleOrRange_count hh hrun

theorem peekForm_single {b : Bytes} {t : DataType} {form : Bool} (htype : typeOf b = some t)
    (harray : t ≠ .array) (hindef : t ≠ .arrayIndef) (hform : t.isInt = form) :
    peekForm.run b = .ok (form, b) := by
  have hpeek : Decoder.datatype.run b = .ok (t, b) := datatype_run_ok.mpr ⟨htype, rfl⟩
  unfold peekForm
  rw [Parser.run_bind_of_ok hpeek]
  split
  · exact absurd rfl harray
  · exact absurd rfl hindef
  · rw [isNumericType, hform]
    rfl

theorem peekForm_range {n : Nat} {h b : Bytes} {t : DataType} {form : Bool} (hh : Head 4 n h)
    (htype : typeOf b = some t) (hform : t.isInt = form) :
    peekForm.run (h ++ b) = .ok (form, b) := by
  have hn : (UInt64.ofNat n).toNat = n := UInt64.toNat_ofNat_of_lt' hh.lt
  have harray : Decoder.datatype.run (h ++ b) = .ok (.array, h ++ b) :=
    datatype_run_ok.mpr ⟨typeOf_head (by omega) (by omega) hh b, rfl⟩
  have hlen : definiteArrayLen.run (h ++ b) = .ok (UInt64.ofNat n, b) :=
    definiteArrayLen_run_ok.mpr ⟨h, by rwa [hn], rfl⟩
  have hpeek : Decoder.datatype.run b = .ok (t, b) := datatype_run_ok.mpr ⟨htype, rfl⟩
  unfold peekForm
  rw [Parser.run_bind_of_ok harray]
  show peekRangeForm.run _ = _
  unfold peekRangeForm
  rw [Parser.run_bind_of_ok hlen, Parser.run_bind_of_ok hpeek, isNumericType, hform]
  rfl

/-- **What the probe sees is decided by the first entry**, as long as that is not an empty
array. -/
theorem peekForm_local {d r r' t : Bytes} {form : Bool} (hd : Item d)
    (hcount : ∀ n h s, Head 4 n h → d = h ++ s → n ≠ 0)
    (hrun : peekForm.run (d ++ r) = .ok (form, t)) :
    ∃ t', peekForm.run (d ++ r') = .ok (form, t') := by
  obtain ⟨ty, b, hpeek, hmatch⟩ := Parser.run_bind_ok_iff.mp hrun
  obtain ⟨hty, rfl⟩ := datatype_run_ok.mp hpeek
  have hty' : Decoder.datatype.run (d ++ r') = .ok (ty, d ++ r') :=
    datatype_run_ok.mpr ⟨by rw [typeOf_append hd.headed r' r, hty], rfl⟩
  have harray : ∀ {u : Bytes}, peekRangeForm.run (d ++ r) = .ok (form, u) →
      ∃ t', peekRangeForm.run (d ++ r') = .ok (form, t') := by
    intro u hrun
    obtain ⟨n, b₁, hlen, hrest⟩ := Parser.run_bind_ok_iff.mp hrun
    obtain ⟨ty₂, b₂, hpeek₂, hpure⟩ := Parser.run_bind_ok_iff.mp hrest
    obtain ⟨hty₂, rfl⟩ := datatype_run_ok.mp hpeek₂
    cases hpure
    obtain ⟨h, hh, heq⟩ := definiteArrayLen_run_ok.mp hlen
    obtain ⟨s, rfl, rfl, hs⟩ := hd.array_inv hh heq
    have hn : n.toNat ≠ 0 := hcount _ h s hh rfl
    obtain ⟨k, hk⟩ : ∃ k, n.toNat + 0 = k + 1 := ⟨n.toNat - 1, by omega⟩
    rw [hk] at hs
    have hlen' : definiteArrayLen.run (h ++ s ++ r') = .ok (n, s ++ r') :=
      definiteArrayLen_run_ok.mpr ⟨h, hh, by rw [List.append_assoc]⟩
    have hty₂' : Decoder.datatype.run (s ++ r') = .ok (ty₂, s ++ r') :=
      datatype_run_ok.mpr ⟨by rw [typeOf_append hs.headed r' r, hty₂], rfl⟩
    refine ⟨s ++ r', ?_⟩
    unfold peekRangeForm
    rw [Parser.run_bind_of_ok hlen', Parser.run_bind_of_ok hty₂']
    rfl
  unfold peekForm
  rw [Parser.run_bind_of_ok hty']
  split at hmatch
  · exact harray hmatch
  · exact harray hmatch
  · cases hmatch
    exact ⟨d ++ r', rfl⟩

theorem reads_decodeEntries (afi : UInt16) :
    Reads X 1 (decodeEntries afi) (IpAddressChoice.Valid afi) := by
  refine Reads.of_items (reads_definiteArray fun n => ?_)
  split
  · rename_i hn
    subst hn
    exact Reads.pure ⟨by simp, by simp⟩
  · rename_i hn
    have hpos : n.toNat ≠ 0 := fun h => hn (UInt64.toNat_inj.mp h)
    refine Reads.probe (fun form => Reads.step (reads_withBoundedCapacity _ _) fun _ _ => ?_) ?_
    · refine (Reads.map (Reads.iterate (reads_decodeEntry afi form) _ _) ?_).cast (Nat.mul_one _)
      rintro l ⟨hlen, hl⟩
      exact ⟨by rw [hlen]; exact n.toNat_lt, hl⟩
    · intro c r form t y hc hpeek hrest r'
      -- the first round of the loop has taken the first entry
      obtain ⟨u, b, hreserve, hloop⟩ := Parser.run_bind_ok_iff.mp hrest
      cases hreserve
      obtain ⟨l, b, hloop, -⟩ := Parser.run_bind_ok_iff.mp hloop
      obtain ⟨k, hk⟩ : ∃ k, n.toNat = k + 1 := ⟨n.toNat - 1, by omega⟩
      have hitems := hc.items fun _ => False.elim
      rw [hk] at hitems hloop
      rw [Parser.iterate] at hloop
      obtain ⟨x, b₁, hentry, -⟩ := Parser.run_bind_ok_iff.mp hloop
      obtain ⟨d, hd, hunits, -, -⟩ := reads_decodeEntry afi form _ _ _ _ hentry
      have hitem : Item d := hunits.items fun _ => False.elim
      obtain ⟨c₁, c₂, rfl, hc₁, -⟩ := hitems.splits 1 k (by omega)
      rw [List.append_assoc] at hd hentry hpeek ⊢
      obtain ⟨rfl, rfl⟩ := Items.unique hc₁ hitem hd
      refine peekForm_local hitem ?_ hpeek
      rintro m h s hh rfl
      rw [List.append_assoc] at hentry
      rw [decodeEntry_count hh hentry]
      omega

theorem reads_ipAddressChoice (afi : UInt16) :
    Reads X 1 (decodeIpAddressChoice afi) (IpAddressChoice.Valid afi) := by
  refine reads_peek fun t => ?_
  split
  · exact Reads.map reads_null fun _ _ => trivial
  · exact reads_decodeEntries afi

theorem reads_decodeSafi : Reads X 1 decodeSafi fun _ => True := by
  refine reads_peek fun t => ?_
  split
  · exact Reads.map reads_null fun _ _ => trivial
  · exact Reads.map reads_u16 fun _ _ => trivial

theorem reads_decodeFamily : Reads X 3 decodeFamily IpAddressFamily.Valid :=
  Reads.bind (j := 2) reads_u16 fun afi _ => Reads.bind (j := 1) reads_decodeSafi fun _ _ =>
    Reads.map (reads_ipAddressChoice afi) fun _ h => h

theorem reads_ipAddressFamilies : Reads X 1 decodeIpAddressFamilies FamiliesValid :=
  reads_decodeGroups (reads_withBoundedCapacity _) reads_decodeFamily

def AsIdsValid (ids : Option (List AsIdOrRange)) : Prop := ∀ l ∈ ids, l.length < 2 ^ 64

theorem reads_decodeAsEntry (c : Chain) : Reads X 1 (decodeAsEntry c) fun _ => True := by
  refine reads_singleOrRange ?_ ?_
  · exact Reads.bind (j := 0) reads_int fun _ _ => Reads.step (Reads.get _ _) fun _ _ =>
      Reads.pure trivial
  · exact Reads.bind (j := 1) reads_int fun _ _ => Reads.bind (j := 0) reads_int fun _ _ =>
      Reads.step (Reads.get _ _) fun _ _ => Reads.step (Reads.get _ _) fun _ _ =>
        Reads.pure trivial

theorem reads_asIdentifiers : Reads X 1 decodeAsIdentifiers AsIdsValid := by
  refine reads_peek fun t => ?_
  split
  · exact Reads.map reads_null fun _ _ => by simp [AsIdsValid]
  · refine reads_definiteArray fun n => Reads.step (reads_withBoundedCapacity _ _) fun _ _ => ?_
    refine (Reads.map (Reads.iterate (P := fun _ => True) reads_decodeAsEntry _ _) ?_).cast
      (Nat.mul_one _)
    rintro l ⟨hlen, -⟩ l' ⟨⟩
    rw [hlen]
    exact n.toNat_lt

end

/-! ### What the entries reserve -/

theorem logs_decodeBound {E : Reserve → Prop} (afi : UInt16) (fill : UInt8) :
    Logs (decodeBound afi fill) E :=
  Logs.bind (logs_lift _) fun _ => Logs.bind (logs_result _) fun _ =>
    Logs.bind (Logs.ensure _ _) fun _ => logs_result _

theorem logs_decodeEntry {E : Reserve → Prop} (afi : UInt16) (isIntForm : Bool) (c : Chain) :
    Logs (decodeEntry afi isIntForm c) E := by
  unfold decodeEntry
  split
  · refine logs_singleOrRange ?_ ?_
    · exact Logs.bind (logs_lift _) fun _ => Logs.bind (logs_result _) fun _ =>
        Logs.bind (logs_result _) fun _ => Logs.pure _
    · exact Logs.bind (logs_lift _) fun _ => Logs.bind (logs_lift _) fun _ =>
        Logs.bind (logs_result _) fun _ => Logs.bind (logs_result _) fun _ =>
          Logs.bind (logs_result _) fun _ => Logs.bind (logs_result _) fun _ => Logs.pure _
  · refine logs_singleOrRange ?_ ?_
    · exact Logs.bind (logs_lift _) fun _ => Logs.bind (logs_result _) fun _ =>
        Logs.bind (logs_result _) fun _ => Logs.pure _
    · exact Logs.bind (logs_decodeBound afi 0x00) fun _ =>
        Logs.bind (logs_decodeBound afi 0xFF) fun _ => Logs.pure _

theorem logs_peekForm {E : Reserve → Prop} : Logs peekForm E := by
  have hrange : Logs peekRangeForm E :=
    Logs.bind logs_definiteArrayLen fun _ => Logs.bind (logs_lift _) fun _ => Logs.pure _
  refine Logs.bind (logs_lift _) fun t => ?_
  split
  · exact hrange
  · exact hrange
  · exact Logs.pure _

theorem logs_decodeEntries (afi : UInt16) : Logs (decodeEntries afi) Reserve.Computed := by
  refine Logs.bind logs_definiteArrayLen fun n => ?_
  split
  · exact Logs.pure _
  · exact Logs.bind (Logs.probe logs_peekForm) fun form =>
      Logs.bind (logs_withBoundedCapacity rfl _) fun _ =>
        Logs.bind (Logs.iterate (logs_decodeEntry afi form) _ _) fun _ => Logs.pure _

theorem logs_decodeSafi {E : Reserve → Prop} : Logs decodeSafi E := by
  refine Logs.bind (logs_lift _) fun t => ?_
  split
  · exact Logs.bind (logs_lift _) fun _ => Logs.pure _
  · exact Logs.bind (logs_lift _) fun _ => Logs.pure _

theorem logs_ipAddressFamilies : Logs decodeIpAddressFamilies Reserve.Computed := by
  have hchoice : ∀ afi, Logs (decodeIpAddressChoice afi) Reserve.Computed := by
    intro afi
    refine Logs.bind (logs_lift _) fun t => ?_
    split
    · exact Logs.bind (logs_lift _) fun _ => Logs.pure _
    · exact logs_decodeEntries afi
  have hfamily : Logs decodeFamily Reserve.Computed :=
    Logs.bind (logs_lift _) fun afi => Logs.bind logs_decodeSafi fun _ =>
      Logs.bind (hchoice afi) fun _ => Logs.pure _
  exact logs_decodeGroups (logs_withBoundedCapacity rfl) hfamily

theorem logs_decodeAsEntry {E : Reserve → Prop} (c : Chain) : Logs (decodeAsEntry c) E := by
  refine logs_singleOrRange ?_ ?_
  · exact Logs.bind (logs_lift _) fun _ => Logs.bind (Logs.get _ _) fun _ => Logs.pure _
  · exact Logs.bind (logs_lift _) fun _ => Logs.bind (logs_lift _) fun _ =>
      Logs.bind (Logs.get _ _) fun _ => Logs.bind (Logs.get _ _) fun _ => Logs.pure _

theorem logs_asIdentifiers : Logs decodeAsIdentifiers Reserve.Computed := by
  refine Logs.bind (logs_lift _) fun t => ?_
  split
  · exact Logs.bind (logs_lift _) fun _ => Logs.pure _
  · exact Logs.bind logs_definiteArrayLen fun n =>
      Logs.bind (logs_withBoundedCapacity rfl _) fun _ =>
        Logs.bind (Logs.iterate logs_decodeAsEntry _ _) fun _ => Logs.pure _

end C509
