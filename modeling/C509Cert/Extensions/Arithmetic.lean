/-
The arithmetic of address blocks and AS identifiers (`ip_addr.rs`), with its checks.

The running sums of both decoders are `i128`s, and nothing in the code bounds them.  What
keeps them in range is the input: every number added takes at least one byte, and is less
than `2 ^ 64` away from zero, so a sum stays below `2 ^ 127` as long as the bytes still to
come are counted with it.  An input of `isize::MAX` bytes just leaves room for that.

The functions below are those of the decoders and encoders again, with every operation that
can overflow or leave a slice written as one that can fault.
-/
import C509Cert.Codec.Fault
import C509Cert.Capacity
import C509Cert.Extensions.AddressStability

namespace C509

open Cbor Codec

/-! ### Bytes and addresses -/

namespace Checked

/-- The loop of `framed_from_absolute_int` over the leading zeros, of at most so many
rounds. -/
def stripZeros : Nat → Bytes → Except (Failure String) Bytes
  | 0, _ => .error .fault
  | rounds + 1, v =>
      if 1 < v.length then do
        let x ← index v 0
        if x = 0 then
          let v ← removeFirst v
          stripZeros rounds v
        else return v
      else return v

/-- `framed_from_absolute_int` -/
def framedFromAbsoluteInt (abs : Int) : Except (Failure String) (Bytes × UInt8) :=
  if abs < 0 then .error (.error "resolved IP address delta is negative")
  else do
    let v ← stripZeros 16 (be 16 abs.toNat)
    let framing ← index v 0
    -- `framing.checked_sub(1)`
    if framing = 0 then .error (.error "invalid unusedBits+1 framing byte")
    else
      let significant ← sliceFrom v 1
      return (significant, framing - 1)

/-- The address in a buffer of the family's width. -/
def addrOf (width : Nat) (buf : Bytes) : Except (Failure String) IpAddr :=
  if width = 4 then do
    let a ← index buf 0
    let b ← index buf 1
    let c ← index buf 2
    let d ← index buf 3
    return ⟨[a, b, c, d], Or.inl rfl⟩
  else
    -- `arr.copy_from_slice(&buf)`, into an array of sixteen bytes
    if h : buf.length = 16 then .ok ⟨buf, Or.inr h⟩ else .error .fault

/-- `build_addr` -/
def buildAddr (afi : UInt16) (significant : Bytes) (fill : UInt8) :
    Except (Failure String) IpAddr := do
  let width ← Failure.lift (addressWidth afi)
  if width < significant.length then
    .error (.error "address value longer than its family's width")
  else
    let buf := List.replicate width fill
    let front ← sliceTo buf significant.length
    let front ← copyFromSlice front significant
    addrOf width (front ++ buf.drop significant.length)

/-- `build_prefix`; a length that `as u8` would cut is a fault. -/
def buildPrefix (afi : UInt16) (significant : Bytes) (unusedBits : UInt8) :
    Except (Failure String) IpNet := do
  let addr ← buildAddr afi significant 0x00
  require (significant.length < 256)
  -- `checked_mul(8)` and then `checked_sub(unused_bits)`
  let bits := significant.length * 8
  if bits < 256 ∧ unusedBits.toNat ≤ bits then
    match IpNet.new addr (UInt8.ofNat (bits - unusedBits.toNat)) with
    | some net => .ok net
    | none => .error (.error "invalid RFC 3779 prefix length")
  else .error (.error "invalid RFC 3779 prefix length")

end Checked

/-- The rounds suffice where they are as many as there are bytes. -/
theorem checkedStripZeros_eq {v : Bytes} :
    ∀ {rounds : Nat}, v.length ≤ rounds → 0 < rounds →
      Checked.stripZeros rounds v = .ok (stripZeros v) := by
  induction v with
  | nil =>
      intro rounds _ hpos
      obtain ⟨k, rfl⟩ : ∃ k, rounds = k + 1 := ⟨rounds - 1, by omega⟩
      rfl
  | cons x v ih =>
      intro rounds hlen hpos
      obtain ⟨k, rfl⟩ : ∃ k, rounds = k + 1 := ⟨rounds - 1, by omega⟩
      cases v with
      | nil => rfl
      | cons y v =>
          have hlong : 1 < (x :: y :: v).length := by simp
          rw [Checked.stripZeros, stripZeros, if_pos hlong]
          show (if x = 0 then Checked.stripZeros k (y :: v) else _) = _
          split
          · exact ih (by simpa using hlen) (by simp at hlen; omega)
          · rfl

theorem stripZeros_ne_nil : ∀ {v : Bytes}, v ≠ [] → stripZeros v ≠ []
  | [], h => absurd rfl h
  | [_], _ => by simp [stripZeros]
  | x :: y :: v, _ => by
      rw [stripZeros]
      split
      · exact stripZeros_ne_nil (by simp)
      · simp

/-- **Unframing never faults.** -/
theorem checkedFramedFromAbsoluteInt_eq (abs : Int) :
    Checked.framedFromAbsoluteInt abs = Failure.lift (framedFromAbsoluteInt abs) := by
  unfold Checked.framedFromAbsoluteInt framedFromAbsoluteInt
  split
  · rfl
  · rw [checkedStripZeros_eq (by rw [be_length]) (by omega)]
    have hne : stripZeros (be 16 abs.toNat) ≠ [] := by
      refine stripZeros_ne_nil fun h => ?_
      have hlen := be_length 16 abs.toNat
      rw [h] at hlen
      cases hlen
    cases hv : stripZeros (be 16 abs.toNat) with
    | nil => exact absurd hv hne
    | cons framing significant =>
        show (if framing = 0 then _ else _) = Failure.lift (if framing = 0 then _ else _)
        split
        · rfl
        · rfl

theorem checkedAddrOf_eq {width : Nat} (buf : Bytes) (hwidth : width = 4 ∨ width = 16)
    (hbuf : buf.length = width) :
    ∃ size, Checked.addrOf width buf = .ok ⟨buf, size⟩ := by
  rcases hwidth with rfl | rfl
  · refine ⟨Or.inl hbuf, ?_⟩
    match buf, hbuf with
    | [a, b, c, d], _ => rfl
  · exact ⟨Or.inr hbuf, dif_pos hbuf⟩

/-- **Building an address never faults.** -/
theorem checkedBuildAddr_eq (afi : UInt16) (significant : Bytes) (fill : UInt8) :
    Checked.buildAddr afi significant fill = Failure.lift (buildAddr afi significant fill) := by
  unfold buildAddr
  split
  · rename_i e he
    unfold Checked.buildAddr
    rw [he]
    rfl
  · rename_i width hwidth
    split
    · rename_i hlong
      unfold Checked.buildAddr
      rw [hwidth]
      exact if_pos hlong
    · rename_i hle
      have hfront : (sliceTo (List.replicate width fill) significant.length :
          Except (Failure String) Bytes) = .ok (List.replicate significant.length fill) := by
        rw [sliceTo_ok (by rw [List.length_replicate]; omega), List.take_replicate,
          Nat.min_eq_left (by omega)]
      have hcopy : (copyFromSlice (List.replicate significant.length fill) significant :
          Except (Failure String) Bytes) = .ok significant :=
        copyFromSlice_ok (by rw [List.length_replicate])
      obtain ⟨size, haddr⟩ := checkedAddrOf_eq
        (significant ++ (List.replicate width fill).drop significant.length)
        (addressWidth_size hwidth) (by simp; omega)
      have hchecked : Checked.buildAddr afi significant fill = .ok ⟨_, size⟩ := by
        unfold Checked.buildAddr
        rw [hwidth]
        show (if width < significant.length then _ else _) = _
        rw [if_neg hle, hfront]
        show (copyFromSlice _ significant >>= _) = _
        rw [hcopy]
        exact haddr
      rw [hchecked]
      exact congrArg Except.ok
        (IpAddr.ext_octets (congrArg (significant ++ ·) List.drop_replicate))

/-- **Building a prefix never faults.** -/
theorem checkedBuildPrefix_eq (afi : UInt16) (significant : Bytes) (unusedBits : UInt8) :
    Checked.buildPrefix afi significant unusedBits =
      Failure.lift (buildPrefix afi significant unusedBits) := by
  unfold Checked.buildPrefix buildPrefix
  rw [checkedBuildAddr_eq]
  cases haddr : buildAddr afi significant 0x00 with
  | error e => rfl
  | ok addr =>
      obtain ⟨hle, hsize⟩ := buildAddr_length haddr
      have hmod : significant.length % 256 = significant.length := by omega
      show (require (significant.length < 256) >>= _) = Failure.lift (if _ then _ else _)
      rw [require_ok (by omega), hmod]
      show (if _ then _ else _) = _
      split
      · cases IpNet.new addr (UInt8.ofNat (significant.length * 8 - unusedBits.toNat)) with
        | some net => rfl
        | none => rfl
      · rfl

/-! ### Chains -/

namespace Chain

/-- `next_absolute`, on `i128`s -/
def checkedAbsolute {ε : Type} (c : Chain) (raw : Int) : Except (Failure ε) Int :=
  if c.first then .ok raw else signed 128 (c.previous + raw)

/-- `next_delta`, on `i128`s -/
def checkedDifference {ε : Type} (c : Chain) (abs : Int) : Except (Failure ε) Int :=
  if c.first then .ok abs else signed 128 (abs - c.previous)

/-- The same, with the ranges of both numbers asserted. -/
def checkedDelta {ε : Type} (c : Chain) (abs : Int) : Except (Failure ε) Int := do
  require (0 ≤ abs ∧ abs < 2 ^ 64)
  let delta ← c.checkedDifference abs
  require (-2 ^ 64 ≤ delta ∧ delta < 2 ^ 64)
  return delta

/-- Every byte that is left may still move the sum by `2 ^ 64`. -/
structure Room (c : Chain) (b : Bytes) : Prop where
  above : c.base + b.length * 2 ^ 64 < 2 ^ 127
  below : -2 ^ 127 < c.base - b.length * 2 ^ 64

theorem room_start {b : Bytes} (h : b.length < 2 ^ 63) : start.Room b := by
  constructor
  · rw [base_start]
    omega
  · rw [base_start]
    omega

theorem Room.length {c : Chain} {b : Bytes} (h : c.Room b) : b.length < 2 ^ 63 := by
  obtain ⟨habove, hbelow⟩ := h
  omega

theorem Room.mono {c : Chain} {b r : Bytes} (h : c.Room b) (hle : r.length ≤ b.length) :
    c.Room r := by
  obtain ⟨habove, hbelow⟩ := h
  exact ⟨by omega, by omega⟩

/-- **A number that took a byte does not overflow the sum**, and leaves room for the rest. -/
theorem Room.next {ε : Type} {c : Chain} {b r : Bytes} {raw : Int} (h : c.Room b)
    (hlt : r.length < b.length) (hlo : -2 ^ 64 ≤ raw) (hhi : raw < 2 ^ 64) :
    (c.checkedAbsolute raw : Except (Failure ε) Int) = .ok (c.nextAbsolute raw) ∧
      (after (c.nextAbsolute raw)).Room r := by
  obtain ⟨habove, hbelow⟩ := h
  constructor
  · unfold checkedAbsolute nextAbsolute
    unfold base at habove hbelow
    split
    · rfl
    · rename_i hfirst
      rw [if_neg hfirst] at habove hbelow
      exact signed_ok (by omega) (by omega)
  · rw [nextAbsolute_eq]
    constructor
    · rw [base_after]
      omega
    · rw [base_after]
      omega

/-- **A difference of two 64-bit numbers does not overflow**, and is a CBOR integer. -/
theorem InRange.checkedDelta_eq {ε : Type} {c : Chain} (hc : c.InRange) {abs : Int}
    (hlo : 0 ≤ abs) (hhi : abs < 2 ^ 64) :
    (c.checkedDelta abs : Except (Failure ε) Int) = .ok (c.nextDelta abs) := by
  have hbounds := nextDelta_bounds hc hlo hhi
  have hdelta : (c.checkedDifference abs : Except (Failure ε) Int) = .ok (c.nextDelta abs) := by
    obtain ⟨hlo', hhi'⟩ := hc
    unfold checkedDifference nextDelta
    split
    · rfl
    · exact signed_ok (by omega) (by omega)
  unfold checkedDelta
  rw [require_ok ⟨hlo, hhi⟩]
  show (c.checkedDifference abs >>= _) = _
  rw [hdelta]
  show (require _ >>= _) = _
  rw [require_ok hbounds]
  rfl

end Chain

/-! ### Decoding -/

section

variable [Minicbor]

/-- A decoding function that may fault. -/
abbrev CheckedDec (α : Type) := Parser (Failure DecodeError) Reserve α

namespace Checked

variable {α : Type}

/-- A checked result whose error is the text of an `Error::Malformed`, taken with `?`. -/
def result : Except (Failure String) α → CheckedDec α
  | .ok a => pure a
  | .error (.error msg) => Parser.fail (.error (.malformed msg))
  | .error .fault => Parser.fail .fault

def decodeSingleOrRange (msg : String) (single range : CheckedDec α) : CheckedDec α := do
  match ← Decoder.datatype.lift with
  | .array | .arrayIndef =>
      let n ← definiteArrayLen.lift
      (ensure (n = 2) msg).lift
      range
  | _ => single

def decodeIntPrefix (afi : UInt16) (c : Chain) : CheckedDec (IpAddressOrRange × Chain) := do
  let raw ← Decoder.int.lift
  let abs ← Parser.ofExcept (c.checkedAbsolute raw)
  let framed ← result (framedFromAbsoluteInt abs)
  let net ← result (buildPrefix afi framed.1 framed.2)
  return (.addressPrefix net, Chain.after abs)

def decodeIntRange (afi : UInt16) (c : Chain) : CheckedDec (IpAddressOrRange × Chain) := do
  let minRaw ← Decoder.int.lift
  let minAbs ← Parser.ofExcept (c.checkedAbsolute minRaw)
  let maxRaw ← Decoder.int.lift
  let maxAbs ← Parser.ofExcept ((Chain.after minAbs).checkedAbsolute maxRaw)
  let minFramed ← result (framedFromAbsoluteInt minAbs)
  let maxFramed ← result (framedFromAbsoluteInt maxAbs)
  let min ← result (buildAddr afi minFramed.1 0x00)
  let max ← result (buildAddr afi maxFramed.1 0xFF)
  return (.range min max, Chain.after maxAbs)

def decodeBytesPrefix (afi : UInt16) (c : Chain) : CheckedDec (IpAddressOrRange × Chain) := do
  let raw ← Decoder.bytes.lift
  let framed ← result (Failure.lift (splitFirst raw))
  let net ← result (buildPrefix afi framed.2 framed.1)
  return (.addressPrefix net, c)

def decodeBound (afi : UInt16) (fill : UInt8) : CheckedDec IpAddr := do
  let raw ← Decoder.bytes.lift
  let framed ← result (Failure.lift (splitFirst raw))
  (ensure (framed.1 = 0) "RFC 3779 address range bounds must have unusedBits = 0").lift
  result (buildAddr afi framed.2 fill)

def decodeBytesRange (afi : UInt16) (c : Chain) : CheckedDec (IpAddressOrRange × Chain) := do
  let min ← decodeBound afi 0x00
  let max ← decodeBound afi 0xFF
  return (.range min max, c)

def decodeEntry (afi : UInt16) (isIntForm : Bool) (c : Chain) :
    CheckedDec (IpAddressOrRange × Chain) :=
  if isIntForm then
    decodeSingleOrRange "IntAddressRange must have 2 elements" (decodeIntPrefix afi c)
      (decodeIntRange afi c)
  else
    decodeSingleOrRange "AddressRange must have 2 elements" (decodeBytesPrefix afi c)
      (decodeBytesRange afi c)

def decodeEntries (afi : UInt16) : CheckedDec IpAddressChoice := do
  let len ← definiteArrayLen.lift
  if len = 0 then return .prefixes []
  else
    let isIntForm ← (Parser.probe peekForm).lift
    (withBoundedCapacity .ipEntries len.toNat).lift
    let entries ← Parser.iterate (decodeEntry afi isIntForm) len.toNat Chain.start
    return .prefixes entries

/-- `decode_ip_address_choice` -/
def decodeIpAddressChoice (afi : UInt16) : CheckedDec IpAddressChoice := do
  if (← Decoder.datatype.lift) = .null then
    Decoder.null.lift
    return .inherit
  else decodeEntries afi

def decodeFamily : CheckedDec IpAddressFamily := do
  let afi ← Decoder.u16.lift
  let safi ← decodeSafi.lift
  let choice ← decodeIpAddressChoice afi
  return { afi, safi, choice }

/-- `decode_ip_address_families` -/
def decodeIpAddressFamilies : CheckedDec (List IpAddressFamily) := do
  let len ← definiteArrayLen.lift
  (ensure (len % 3 = 0) "IPAddrBlocks array length must be a multiple of 3").lift
  (withBoundedCapacity .ipFamilies (len / 3).toNat).lift
  Parser.times (len / 3).toNat decodeFamily

def decodeAsId (c : Chain) : CheckedDec (AsIdOrRange × Chain) := do
  let raw ← Decoder.int.lift
  let abs ← Parser.ofExcept (c.checkedAbsolute raw)
  let n ← (okOr (u64TryFrom abs) "AS id out of range").lift
  return (.id n, Chain.after abs)

def decodeAsRange (c : Chain) : CheckedDec (AsIdOrRange × Chain) := do
  let minRaw ← Decoder.int.lift
  let minAbs ← Parser.ofExcept (c.checkedAbsolute minRaw)
  let maxRaw ← Decoder.int.lift
  let maxAbs ← Parser.ofExcept ((Chain.after minAbs).checkedAbsolute maxRaw)
  let min ← (okOr (u64TryFrom minAbs) "AS id out of range").lift
  let max ← (okOr (u64TryFrom maxAbs) "AS id out of range").lift
  return (.range min max, Chain.after maxAbs)

def decodeAsEntry (c : Chain) : CheckedDec (AsIdOrRange × Chain) :=
  decodeSingleOrRange "AS id range must have 2 elements" (decodeAsId c) (decodeAsRange c)

/-- `decode_as_identifiers` -/
def decodeAsIdentifiers : CheckedDec (Option (List AsIdOrRange)) := do
  if (← Decoder.datatype.lift) = .null then
    Decoder.null.lift
    return none
  else
    let len ← definiteArrayLen.lift
    (withBoundedCapacity .asIdentifiers len.toNat).lift
    let entries ← Parser.iterate decodeAsEntry len.toNat Chain.start
    return some entries

end Checked

/-! ### The sums stay in range -/

variable {α : Type} {b : Bytes}

theorem clean_result {x' : Except (Failure String) α} {x : Except String α}
    (hx : x' = Failure.lift x) :
    Clean b (Checked.result x') (result x) fun _ r => r = b := by
  subst hx
  cases x with
  | ok a => exact Clean.pure rfl
  | error msg => exact Clean.fail _

variable [LawfulMinicbor]

theorem clean_datatype : Clean b Decoder.datatype.lift Decoder.datatype fun _ r => r = b :=
  Clean.lift fun _ _ hrun => (datatype_run_ok.mp hrun).2

theorem clean_definiteArrayLen :
    Clean b definiteArrayLen.lift definiteArrayLen fun _ r => r.length ≤ b.length := by
  refine Clean.lift fun n r hrun => ?_
  obtain ⟨h, -, rfl⟩ := definiteArrayLen_run_ok.mp hrun
  rw [List.length_append]
  omega

/-- A number takes a byte at least, and is a CBOR integer. -/
theorem clean_int : Clean b Decoder.int.lift Decoder.int fun raw r =>
    r.length < b.length ∧ -2 ^ 64 ≤ raw ∧ raw < 2 ^ 64 := by
  refine (Clean.lift_reads reads_int).weaken fun raw r h => ?_
  obtain ⟨⟨hlo, hhi⟩, hlen⟩ := h
  exact ⟨by omega, hlo, hhi⟩

/-- **The next number of a chain** is summed without an overflow. -/
theorem clean_next {c : Chain} {g' : Int → CheckedDec α} {g : Int → Dec α}
    {Q : α → Bytes → Prop} (hc : c.Room b)
    (hg : ∀ raw r, (Chain.after (c.nextAbsolute raw)).Room r →
      Clean r (g' (c.nextAbsolute raw)) (g raw) Q) :
    Clean b (Decoder.int.lift >>= fun raw => Parser.ofExcept (c.checkedAbsolute raw) >>= g')
      (Decoder.int >>= g) Q := by
  refine Clean.bind clean_int fun raw r hraw => ?_
  obtain ⟨hlen, hlo, hhi⟩ := hraw
  obtain ⟨habs, hroom⟩ := hc.next hlen hlo hhi
  exact Clean.value habs (hg raw r hroom)

theorem clean_singleOrRange {msg : String} {single' range' : CheckedDec α} {single range : Dec α}
    {Q : α → Bytes → Prop} (hsingle : Clean b single' single Q)
    (hrange : ∀ r : Bytes, r.length ≤ b.length → Clean r range' range Q) :
    Clean b (Checked.decodeSingleOrRange msg single' range')
      (decodeSingleOrRange msg single range) Q := by
  have harray : Clean b (do
      let n ← definiteArrayLen.lift
      (ensure (n = 2) msg).lift
      range') (do
      let n ← definiteArrayLen
      ensure (n = 2) msg
      range) Q := by
    refine Clean.bind clean_definiteArrayLen fun n r hr => ?_
    refine Clean.bind (Clean.lift_reads (Reads.ensure _)) fun _ r' hr' => ?_
    exact hrange r' (by omega)
  refine Clean.bind clean_datatype fun t r hr => ?_
  subst hr
  cases t with
  | array => exact harray
  | arrayIndef => exact harray
  | _ => exact hsingle

theorem clean_decodeIntPrefix (afi : UInt16) {c : Chain} (hc : c.Room b) :
    Clean b (Checked.decodeIntPrefix afi c) (decodeIntPrefix afi c) fun x r => x.2.Room r := by
  refine clean_next hc fun raw r hroom => ?_
  refine Clean.bind (clean_result (checkedFramedFromAbsoluteInt_eq _)) fun framed r' hr' => ?_
  refine Clean.bind (clean_result (checkedBuildPrefix_eq _ _ _)) fun net r'' hr'' => ?_
  subst hr' hr''
  exact Clean.pure hroom

theorem clean_decodeIntRange (afi : UInt16) {c : Chain} (hc : c.Room b) :
    Clean b (Checked.decodeIntRange afi c) (decodeIntRange afi c) fun x r => x.2.Room r := by
  refine clean_next hc fun minRaw r hroom => ?_
  refine clean_next hroom fun maxRaw r₁ hroom₁ => ?_
  refine Clean.bind (clean_result (checkedFramedFromAbsoluteInt_eq _)) fun minFramed r₂ h₂ => ?_
  refine Clean.bind (clean_result (checkedFramedFromAbsoluteInt_eq _)) fun maxFramed r₃ h₃ => ?_
  refine Clean.bind (clean_result (checkedBuildAddr_eq _ _ _)) fun min r₄ h₄ => ?_
  refine Clean.bind (clean_result (checkedBuildAddr_eq _ _ _)) fun max r₅ h₅ => ?_
  subst h₂ h₃ h₄ h₅
  exact Clean.pure hroom₁

theorem clean_decodeBytesPrefix (afi : UInt16) {c : Chain} (hc : c.Room b) :
    Clean b (Checked.decodeBytesPrefix afi c) (decodeBytesPrefix afi c)
      fun x r => x.2.Room r := by
  refine Clean.bind (Clean.lift_reads reads_bytes) fun raw r hr => ?_
  refine Clean.bind (clean_result rfl) fun framed r' hr' => ?_
  refine Clean.bind (clean_result (checkedBuildPrefix_eq _ _ _)) fun net r'' hr'' => ?_
  subst hr' hr''
  exact Clean.pure (hc.mono (by omega))

theorem clean_decodeBound (afi : UInt16) (fill : UInt8) :
    Clean b (Checked.decodeBound afi fill) (decodeBound afi fill)
      fun _ r => r.length ≤ b.length := by
  refine Clean.bind (Clean.lift_reads reads_bytes) fun raw r hr => ?_
  refine Clean.bind (clean_result rfl) fun framed r' hr' => ?_
  refine Clean.bind (Clean.lift_reads (Reads.ensure _)) fun _ r'' hr'' => ?_
  refine (clean_result (checkedBuildAddr_eq _ _ _)).weaken fun _ s hs => ?_
  subst hr' hs
  omega

theorem clean_decodeBytesRange (afi : UInt16) {c : Chain} (hc : c.Room b) :
    Clean b (Checked.decodeBytesRange afi c) (decodeBytesRange afi c)
      fun x r => x.2.Room r := by
  refine Clean.bind (clean_decodeBound afi 0x00) fun min r hr => ?_
  refine Clean.bind (clean_decodeBound afi 0xFF) fun max r' hr' => ?_
  exact Clean.pure (hc.mono (by omega))

/-- **A round of the decoder of address blocks** does not fault, and leaves room for the
next. -/
theorem clean_decodeEntry (afi : UInt16) (isIntForm : Bool) {c : Chain} (hc : c.Room b) :
    Clean b (Checked.decodeEntry afi isIntForm c) (decodeEntry afi isIntForm c)
      fun x r => x.2.Room r := by
  cases isIntForm with
  | true =>
      exact clean_singleOrRange (clean_decodeIntPrefix afi hc)
        fun r hr => clean_decodeIntRange afi (hc.mono hr)
  | false =>
      exact clean_singleOrRange (clean_decodeBytesPrefix afi hc)
        fun r hr => clean_decodeBytesRange afi (hc.mono hr)

/-- `null`, or what `m` decodes. -/
theorem clean_nullOr {a : α} {m' : CheckedDec α} {m : Dec α} (hb : b.length < 2 ^ 63)
    (hm : Clean b m' m fun _ r => r.length < 2 ^ 63) :
    Clean b (do
      if (← Decoder.datatype.lift) = .null then
        Decoder.null.lift
        return a
      else m') (do
      if (← Decoder.datatype) = .null then
        Decoder.null
        return a
      else m) fun _ r => r.length < 2 ^ 63 := by
  refine Clean.bind clean_datatype fun t r hr => ?_
  subst hr
  split
  · refine Clean.bind (Clean.lift_reads reads_null) fun _ r hr => ?_
    exact Clean.pure (by omega)
  · exact hm

/-- What is left is no longer than what an allocation can hold. -/
theorem clean_decodeEntries (afi : UInt16) (hb : b.length < 2 ^ 63) :
    Clean b (Checked.decodeEntries afi) (decodeEntries afi) fun _ r => r.length < 2 ^ 63 := by
  refine Clean.bind clean_definiteArrayLen fun n r hr => ?_
  split
  · exact Clean.pure (by omega)
  · refine Clean.bind (Q := fun _ s => s = r) (Clean.lift fun form s hrun => ?_)
      fun form s hs => ?_
    · exact (Parser.probe_run_ok.mp hrun).2
    · subst hs
      refine Clean.bind (Clean.lift_reads (reads_withBoundedCapacity _ _)) fun _ s hs => ?_
      have hloop := Clean.iterate (I := Chain.Room)
        (fun c b hc => clean_decodeEntry afi form hc) n.toNat Chain.start s
        (Chain.room_start (by omega))
      refine Clean.bind hloop fun entries t ht => ?_
      obtain ⟨c, hc⟩ := ht
      exact Clean.pure hc.length

theorem clean_ipAddressChoice (afi : UInt16) (hb : b.length < 2 ^ 63) :
    Clean b (Checked.decodeIpAddressChoice afi) (decodeIpAddressChoice afi)
      fun _ r => r.length < 2 ^ 63 :=
  clean_nullOr hb (clean_decodeEntries afi hb)

/-- **Address blocks are decoded without a fault**, of any input an allocation can hold. -/
theorem clean_ipAddressFamilies (hb : b.length < 2 ^ 63) :
    Clean b Checked.decodeIpAddressFamilies decodeIpAddressFamilies
      fun _ r => r.length < 2 ^ 63 := by
  have hfamily : ∀ b : Bytes, b.length < 2 ^ 63 →
      Clean b Checked.decodeFamily decodeFamily fun _ r => r.length < 2 ^ 63 := by
    intro b hb
    refine Clean.bind (Clean.lift_reads reads_u16) fun afi r hr => ?_
    refine Clean.bind (Clean.lift_reads reads_decodeSafi) fun safi s hs => ?_
    refine Clean.bind (clean_ipAddressChoice afi (by omega)) fun choice t ht => ?_
    exact Clean.pure ht
  refine Clean.bind clean_definiteArrayLen fun n r hr => ?_
  refine Clean.bind (Clean.lift_reads (Reads.ensure _)) fun _ s hs => ?_
  refine Clean.bind (Clean.lift_reads (reads_withBoundedCapacity _ _)) fun _ t ht => ?_
  exact Clean.times hfamily _ (by omega)

theorem clean_decodeAsEntry {c : Chain} (hc : c.Room b) :
    Clean b (Checked.decodeAsEntry c) (decodeAsEntry c) fun x r => x.2.Room r := by
  refine clean_singleOrRange ?_ fun r₀ hr₀ => ?_
  · refine clean_next hc fun raw r hroom => ?_
    refine Clean.bind (Clean.lift_reads (Reads.get _ _)) fun n r' hr' => ?_
    exact Clean.pure (hroom.mono (by omega))
  · refine clean_next (hc.mono hr₀) fun minRaw r hroom => ?_
    refine clean_next hroom fun maxRaw r₁ hroom₁ => ?_
    refine Clean.bind (Clean.lift_reads (Reads.get _ _)) fun min r₂ h₂ => ?_
    refine Clean.bind (Clean.lift_reads (Reads.get _ _)) fun max r₃ h₃ => ?_
    exact Clean.pure (hroom₁.mono (by omega))

/-- **AS identifiers are decoded without a fault**, of any input an allocation can hold. -/
theorem clean_asIdentifiers (hb : b.length < 2 ^ 63) :
    Clean b Checked.decodeAsIdentifiers decodeAsIdentifiers fun _ r => r.length < 2 ^ 63 := by
  refine clean_nullOr hb ?_
  refine Clean.bind clean_definiteArrayLen fun n r hr => ?_
  refine Clean.bind (Clean.lift_reads (reads_withBoundedCapacity _ _)) fun _ s hs => ?_
  have hloop := Clean.iterate (I := Chain.Room) (fun c b hc => clean_decodeAsEntry hc)
    n.toNat Chain.start s (Chain.room_start (by omega))
  refine Clean.bind hloop fun entries t ht => ?_
  obtain ⟨c, hc⟩ := ht
  exact Clean.pure hc.length

end

/-! ### Encoding -/

section

variable [Minicbor]

/-- An encoding function that may fault. -/
abbrev CheckedEnc (α : Type) := Printer (Failure EncodeError) α

namespace Checked

def encodeIntEntry (c : Chain) : ResolvedEntry → CheckedEnc Chain
  | .addressPrefix bytes unusedBits => do
      let abs ← (toEncodeErr (absoluteIntFromFramed bytes unusedBits)).lift
      let delta ← Printer.ofExcept (c.checkedDelta abs)
      (encodeDelta delta).lift
      return Chain.after abs
  | .range minBytes maxBytes => do
      let minAbs ← (toEncodeErr (absoluteIntFromFramed minBytes 0)).lift
      let minDelta ← Printer.ofExcept (c.checkedDelta minAbs)
      let maxAbs ← (toEncodeErr (absoluteIntFromFramed maxBytes 0)).lift
      let maxDelta ← Printer.ofExcept ((Chain.after minAbs).checkedDelta maxAbs)
      (Encoder.array 2).lift
      (encodeDelta minDelta).lift
      (encodeDelta maxDelta).lift
      return Chain.after maxAbs

/-- `encode_ip_address_choice` -/
def encodeIpAddressChoice : IpAddressChoice → CheckedEnc Unit
  | .inherit => Encoder.null.lift
  | .prefixes entries => do
      let resolved := entries.map IpAddressOrRange.resolve
      let useIntForm := resolved.all ResolvedEntry.isShort
      (Encoder.array (UInt64.ofNat entries.length)).lift
      if useIntForm then Printer.iterate encodeIntEntry resolved Chain.start
      else forM resolved fun e => (encodeBytesEntry e).lift

def encodeFamily (fam : IpAddressFamily) : CheckedEnc Unit := do
  (Encoder.u16 fam.afi).lift
  (encodeSafi fam.safi).lift
  encodeIpAddressChoice fam.choice

/-- `encode_ip_address_families` -/
def encodeIpAddressFamilies (families : List IpAddressFamily) : CheckedEnc Unit := do
  (Encoder.array (UInt64.ofNat families.length * 3)).lift
  forM families encodeFamily

def encodeAsEntry (c : Chain) : AsIdOrRange → CheckedEnc Chain
  | .id n => do
      let abs : Int := n.toNat
      let delta ← Printer.ofExcept (c.checkedDelta abs)
      (encodeDelta delta).lift
      return Chain.after abs
  | .range min max => do
      let minAbs : Int := min.toNat
      let minDelta ← Printer.ofExcept (c.checkedDelta minAbs)
      let maxAbs : Int := max.toNat
      let maxDelta ← Printer.ofExcept ((Chain.after minAbs).checkedDelta maxAbs)
      (Encoder.array 2).lift
      (encodeDelta minDelta).lift
      (encodeDelta maxDelta).lift
      return Chain.after maxAbs

/-- `encode_as_identifiers` -/
def encodeAsIdentifiers : Option (List AsIdOrRange) → CheckedEnc Unit
  | none => Encoder.null.lift
  | some ids => do
      (Encoder.array (UInt64.ofNat ids.length)).lift
      Printer.iterate encodeAsEntry ids Chain.start

end Checked

/-! ### The differences stay in range -/

theorem written_encodeDelta {c : Chain} (hc : c.InRange) {abs : Int} (hlo : 0 ≤ abs)
    (hhi : abs < 2 ^ 64) : Written (encodeDelta (c.nextDelta abs)).lift
      (encodeDelta (c.nextDelta abs)) fun _ => True := by
  obtain ⟨⟨⟩, o, ho⟩ := total_encodeDelta hc hlo hhi
  exact Written.lift ho trivial

/-- The two differences of a range. -/
theorem written_range {c : Chain} (hc : c.InRange) {minAbs maxAbs : Int} (hlo : 0 ≤ minAbs)
    (hhi : minAbs < 2 ^ 64) (hlo' : 0 ≤ maxAbs) (hhi' : maxAbs < 2 ^ 64) :
    Written (do
      (Encoder.array 2).lift
      (encodeDelta (c.nextDelta minAbs)).lift
      (encodeDelta ((Chain.after minAbs).nextDelta maxAbs)).lift
      return Chain.after maxAbs) (do
      Encoder.array 2
      encodeDelta (c.nextDelta minAbs)
      encodeDelta ((Chain.after minAbs).nextDelta maxAbs)
      return Chain.after maxAbs) Chain.InRange := by
  have hc' : (Chain.after minAbs).InRange := Chain.inRange_after hlo hhi
  exact Written.bind (Written.put _) fun _ _ =>
    Written.bind (written_encodeDelta hc hlo hhi) fun _ _ =>
      Written.bind (written_encodeDelta hc' hlo' hhi') fun _ _ =>
        Written.pure (Chain.inRange_after hlo' hhi')

/-- **A round of the encoder of address blocks** succeeds, and keeps the chain in range. -/
theorem written_intEntry {e : IpAddressOrRange} (hshort : e.resolve.isShort = true) {c : Chain}
    (hc : c.InRange) :
    Written (Checked.encodeIntEntry c e.resolve) (encodeIntEntry c e.resolve) Chain.InRange := by
  have hframed : ∀ {x : Except String Int} {abs : Int}, x = .ok abs →
      Written (toEncodeErr x).lift (toEncodeErr x) fun a => a = abs := by
    rintro x abs rfl
    exact Written.lift rfl rfl
  cases e with
  | addressPrefix net =>
      obtain ⟨abs, habs, hlo, hhi, -⟩ := absoluteInt_prefix hshort
      refine Written.bind (hframed habs) ?_
      rintro abs rfl
      have hlo : 0 ≤ abs := by omega
      refine Written.value (hc.checkedDelta_eq hlo hhi) ?_
      refine Written.bind (written_encodeDelta hc hlo hhi) fun _ _ => ?_
      exact Written.pure (Chain.inRange_after hlo hhi)
  | range min max =>
      obtain ⟨hshortMin, hshortMax⟩ := range_isShort hshort
      obtain ⟨minAbs, hmin, hlo, hhi, -⟩ := absoluteInt_bound hshortMin
      obtain ⟨maxAbs, hmax, hlo', hhi', -⟩ := absoluteInt_bound hshortMax
      have hlo : 0 ≤ minAbs := by omega
      have hlo' : 0 ≤ maxAbs := by omega
      refine Written.bind (hframed hmin) ?_
      rintro minAbs rfl
      refine Written.value (hc.checkedDelta_eq hlo hhi) ?_
      refine Written.bind (hframed hmax) ?_
      rintro maxAbs rfl
      refine Written.value ((Chain.inRange_after hlo hhi).checkedDelta_eq hlo' hhi') ?_
      exact written_range hc hlo hhi hlo' hhi'

theorem written_ipAddressChoice (choice : IpAddressChoice) :
    Written (Checked.encodeIpAddressChoice choice) (encodeIpAddressChoice choice)
      fun _ => True := by
  cases choice with
  | inherit => exact Written.put _
  | prefixes entries =>
      refine Written.bind (Written.put _) fun _ _ => ?_
      split
      · rename_i hform
        rw [Printer.iterate_map, Printer.iterate_map]
        refine Written.iterate (I := Chain.InRange) (fun c hc e he => ?_) _ Chain.inRange_start
        exact written_intEntry (List.all_eq_true.mp hform _ (List.mem_map_of_mem he)) hc
      · refine Written.forM fun e _ => ?_
        obtain ⟨⟨⟩, o, ho⟩ := total_bytesEntry e
        exact Written.lift ho trivial

/-- **Address blocks are encoded without a fault or an error.** -/
theorem written_ipAddressFamilies (families : List IpAddressFamily) :
    Written (Checked.encodeIpAddressFamilies families) (encodeIpAddressFamilies families)
      fun _ => True := by
  refine Written.bind (Written.put _) fun _ _ => Written.forM fun fam _ => ?_
  refine Written.bind (Written.put _) fun _ _ => Written.bind (Q := fun _ => True) ?_ fun _ _ =>
    written_ipAddressChoice fam.choice
  cases fam.safi with
  | none => exact Written.put _
  | some s => exact Written.put _

theorem written_asEntry (x : AsIdOrRange) {c : Chain} (hc : c.InRange) :
    Written (Checked.encodeAsEntry c x) (encodeAsEntry c x) Chain.InRange := by
  have hbounds : ∀ n : UInt64, 0 ≤ (n.toNat : Int) ∧ (n.toNat : Int) < 2 ^ 64 := fun n => by
    have hn := n.toNat_lt
    omega
  cases x with
  | id n =>
      obtain ⟨hlo, hhi⟩ := hbounds n
      refine Written.value (hc.checkedDelta_eq hlo hhi) ?_
      refine Written.bind (written_encodeDelta hc hlo hhi) fun _ _ => ?_
      exact Written.pure (Chain.inRange_after hlo hhi)
  | range min max =>
      obtain ⟨hlo, hhi⟩ := hbounds min
      obtain ⟨hlo', hhi'⟩ := hbounds max
      refine Written.value (hc.checkedDelta_eq hlo hhi) ?_
      refine Written.value ((Chain.inRange_after hlo hhi).checkedDelta_eq hlo' hhi') ?_
      exact written_range hc hlo hhi hlo' hhi'

/-- **AS identifiers are encoded without a fault or an error.** -/
theorem written_asIdentifiers (ids : Option (List AsIdOrRange)) :
    Written (Checked.encodeAsIdentifiers ids) (encodeAsIdentifiers ids) fun _ => True := by
  cases ids with
  | none => exact Written.put _
  | some l =>
      refine Written.bind (Written.put _) fun _ _ => ?_
      exact Written.iterate (I := Chain.InRange) (fun c hc x _ => written_asEntry x hc) _
        Chain.inRange_start

/--
**Nothing overflows.**  From an input of at most `isize::MAX` bytes both decoders end as they
do where nothing can fault: no `i128` sum leaves its type, and no slice is left.  Whatever
they are given, both encoders succeed: every number they form is one of 64 bits, every
difference a CBOR integer, and no `i128` difference leaves its type.
-/
theorem chainArithmetic_safe [LawfulMinicbor] :
    (∀ b : Bytes, b.length ≤ ISIZE_MAX →
      Checked.decodeIpAddressFamilies.run b = Failure.lift (decodeIpAddressFamilies.run b) ∧
        Checked.decodeAsIdentifiers.run b = Failure.lift (decodeAsIdentifiers.run b)) ∧
    (∀ families : List IpAddressFamily, ∃ o,
      (Checked.encodeIpAddressFamilies families).run = .ok ((), o) ∧
        (encodeIpAddressFamilies families).run = .ok ((), o)) ∧
    ∀ ids : Option (List AsIdOrRange), ∃ o,
      (Checked.encodeAsIdentifiers ids).run = .ok ((), o) ∧
        (encodeAsIdentifiers ids).run = .ok ((), o) := by
  refine ⟨fun b hb => ?_, fun families => ?_, fun ids => ?_⟩
  · have hlt : b.length < 2 ^ 63 := by
      unfold ISIZE_MAX at hb
      omega
    exact ⟨(clean_ipAddressFamilies hlt).1, (clean_asIdentifiers hlt).1⟩
  · obtain ⟨⟨⟩, o, hchecked, hrun, -⟩ := written_ipAddressFamilies families
    exact ⟨o, hchecked, hrun⟩
  · obtain ⟨⟨⟩, o, hchecked, hrun, -⟩ := written_asIdentifiers ids
    exact ⟨o, hchecked, hrun⟩

end

open scoped Reference in
/-- The AS identifiers 7 and 5, the families of `mixedFamilies`, and a range over all numbers. -/
theorem chainArithmetic_safe_mixed :
    Checked.decodeAsIdentifiers.run [0x82, 0x07, 0x21] =
        Failure.lift (decodeAsIdentifiers.run [0x82, 0x07, 0x21]) ∧
      (∃ o, (Checked.encodeIpAddressFamilies mixedFamilies).run = .ok ((), o) ∧
        (encodeIpAddressFamilies mixedFamilies).run = .ok ((), o)) ∧
      ∃ o, (Checked.encodeAsIdentifiers (some [.range 0 0xFFFFFFFFFFFFFFFF])).run = .ok ((), o) ∧
        (encodeAsIdentifiers (some [.range 0 0xFFFFFFFFFFFFFFFF])).run = .ok ((), o) :=
  ⟨(chainArithmetic_safe.1 _ (by decide)).2, chainArithmetic_safe.2.1 _,
    chainArithmetic_safe.2.2 _⟩

end C509
