/-
IP addresses, networks and their RFC 3779 framing (`ip_addr.rs`, the part that touches no
decoder).

A prefix is framed as its significant leading bytes and the number of unused bits in the
last of them, a range bound as its bytes without the trailing fill.  Both are undone by
filling up to the width of the family again.  A framed address of at most seven bytes is
also written as one integer, behind a byte that is never zero.
-/
import C509Cert.Common

namespace C509

open Cbor

/-! ### Addresses and networks -/

/-- `std::net::IpAddr`: four octets or sixteen. -/
structure IpAddr where
  octets : Bytes
  size : octets.length = 4 ∨ octets.length = 16
  deriving DecidableEq

/-- `ipnet::IpNet`: an address, with the host bits it was given, and a prefix length. -/
structure IpNet where
  addr : IpAddr
  prefixLen : UInt8
  le : prefixLen.toNat ≤ 8 * addr.octets.length
  deriving DecidableEq

/-- The first `p` bits of a byte, the others cleared. -/
def maskByte (p : Nat) (x : UInt8) : UInt8 := UInt8.ofNat (x.toNat / 2 ^ (8 - p) * 2 ^ (8 - p))

/-- The first `p` bits of a byte string, the others cleared. -/
def maskBytes : Nat → Bytes → Bytes
  | _, [] => []
  | p, x :: b => maskByte p x :: maskBytes (p - 8) b

theorem maskByte_toNat (p : Nat) (x : UInt8) :
    (maskByte p x).toNat = x.toNat / 2 ^ (8 - p) * 2 ^ (8 - p) := by
  have hle : x.toNat / 2 ^ (8 - p) * 2 ^ (8 - p) ≤ x.toNat := Nat.div_mul_le_self _ _
  exact UInt8.toNat_ofNat_of_lt' (Nat.lt_of_le_of_lt hle x.toNat_lt)

theorem maskByte_zero (x : UInt8) : maskByte 0 x = 0 := by
  apply UInt8.toNat_inj.mp
  have hx : x.toNat < 2 ^ 8 := x.toNat_lt
  rw [maskByte_toNat, Nat.div_eq_of_lt hx, Nat.zero_mul]
  rfl

theorem maskByte_maskByte (p : Nat) (x : UInt8) : maskByte p (maskByte p x) = maskByte p x := by
  apply UInt8.toNat_inj.mp
  rw [maskByte_toNat, maskByte_toNat, Nat.mul_div_cancel _ (by positivity)]

@[simp] theorem maskBytes_length (p : Nat) (b : Bytes) : (maskBytes p b).length = b.length := by
  induction b generalizing p with
  | nil => rfl
  | cons x b ih => simp [maskBytes, ih]

theorem maskBytes_maskBytes (p : Nat) (b : Bytes) :
    maskBytes p (maskBytes p b) = maskBytes p b := by
  induction b generalizing p with
  | nil => rfl
  | cons x b ih => simp [maskBytes, maskByte_maskByte, ih]

theorem maskBytes_zero (b : Bytes) : maskBytes 0 b = List.replicate b.length 0 := by
  induction b with
  | nil => rfl
  | cons x b ih => simp [maskBytes, maskByte_zero, ih, List.replicate_succ]

/-- Behind the bytes a prefix touches, a network has only zeros. -/
theorem maskBytes_eq (p : Nat) (b : Bytes) :
    (maskBytes p b).take ((p + 7) / 8) ++ List.replicate (b.length - (p + 7) / 8) 0 =
      maskBytes p b := by
  induction b generalizing p with
  | nil => simp [maskBytes]
  | cons x b ih =>
      by_cases hp : p = 0
      · subst hp
        simp [maskBytes_zero]
      · have hsucc : (p + 7) / 8 = (p - 8 + 7) / 8 + 1 ∨ (p + 7) / 8 = 1 ∧ p - 8 = 0 := by omega
        rcases hsucc with h | ⟨h, h0⟩
        · rw [h, maskBytes, List.take_succ_cons, List.cons_append, List.length_cons,
            Nat.add_sub_add_right, ih]
        · rw [h, maskBytes, h0, maskBytes_zero]
          simp

namespace IpNet

/-- `IpNet::new`, which keeps the host bits. -/
def new (addr : IpAddr) (prefixLen : UInt8) : Option IpNet :=
  if h : prefixLen.toNat ≤ 8 * addr.octets.length then some ⟨addr, prefixLen, h⟩ else none

/-- `IpNet::network`: the address with the host bits cleared. -/
def network (net : IpNet) : IpAddr where
  octets := maskBytes net.prefixLen.toNat net.addr.octets
  size := by
    rw [maskBytes_length]
    exact net.addr.size

/-- The network as a value of its own. -/
def normalise (net : IpNet) : IpNet where
  addr := net.network
  prefixLen := net.prefixLen
  le := by
    show _ ≤ 8 * (maskBytes _ _).length
    rw [maskBytes_length]
    exact net.le

theorem network_normalise (net : IpNet) : net.normalise.network = net.network := by
  unfold network normalise
  simp only [IpAddr.mk.injEq]
  exact maskBytes_maskBytes _ _

/-- No bit below the prefix length is set. -/
def NoHostBits (net : IpNet) : Prop := net.network = net.addr

theorem normalise_eq {net : IpNet} (h : net.NoHostBits) : net.normalise = net := by
  obtain ⟨addr, prefixLen, le⟩ := net
  unfold normalise
  simp only [mk.injEq, and_true]
  exact h

theorem noHostBits_normalise (net : IpNet) : net.normalise.NoHostBits := network_normalise net

end IpNet

/-! ### Building addresses from significant bytes -/

/-- `address_width`; the error is the text of an `Error::Malformed`. -/
def addressWidth (afi : UInt16) : Except String Nat :=
  if afi = 1 then .ok 4
  else if afi = 2 then .ok 16
  else .error
    "unsupported address family for typed decoding (expected AFI 1 = IPv4 or 2 = IPv6)"

theorem addressWidth_size {afi : UInt16} {width : Nat} (h : addressWidth afi = .ok width) :
    width = 4 ∨ width = 16 := by
  unfold addressWidth at h
  split_ifs at h
  · cases h
    exact Or.inl rfl
  · cases h
    exact Or.inr rfl

/-- `build_addr` -/
def buildAddr (afi : UInt16) (significant : Bytes) (fill : UInt8) : Except String IpAddr :=
  match hwidth : addressWidth afi with
  | .error e => .error e
  | .ok width =>
      if h : width < significant.length then .error "address value longer than its family's width"
      else .ok
        { octets := significant ++ List.replicate (width - significant.length) fill
          size := by
            have := addressWidth_size hwidth
            simp only [List.length_append, List.length_replicate]
            omega }

/-- `build_prefix` -/
def buildPrefix (afi : UInt16) (significant : Bytes) (unusedBits : UInt8) :
    Except String IpNet := do
  let addr ← buildAddr afi significant 0x00
  -- `(len as u8).checked_mul(8)` and then `checked_sub(unused_bits)`
  let bits := significant.length % 256 * 8
  if bits < 256 ∧ unusedBits.toNat ≤ bits then
    match IpNet.new addr (UInt8.ofNat (bits - unusedBits.toNat)) with
    | some net => .ok net
    | none => .error "invalid RFC 3779 prefix length"
  else .error "invalid RFC 3779 prefix length"

/-- `prefix_to_framed` -/
def prefixToFramed (net : IpNet) : Bytes × UInt8 :=
  let sigLen := (net.prefixLen.toNat + 7) / 8
  (net.network.octets.take sigLen, UInt8.ofNat (sigLen * 8 - net.prefixLen.toNat))

/-- The length that is left of `full` without trailing bytes equal to `fill`. -/
def trimmedLen (full : Bytes) (fill : UInt8) : Nat → Nat
  | 0 => 0
  | e + 1 => if full[e]? = some fill then trimmedLen full fill e else e + 1

/-- `addr_to_framed_trimmed` -/
def addrToFramedTrimmed (addr : IpAddr) (fill : UInt8) : Bytes :=
  addr.octets.take (trimmedLen addr.octets fill addr.octets.length)

/-- The address belongs to the family with number `afi`. -/
def IpAddr.OfFamily (afi : UInt16) (addr : IpAddr) : Prop :=
  (afi = 1 ∧ addr.octets.length = 4) ∨ (afi = 2 ∧ addr.octets.length = 16)

theorem IpAddr.OfFamily.addressWidth {afi : UInt16} {addr : IpAddr} (h : addr.OfFamily afi) :
    addressWidth afi = .ok addr.octets.length := by
  rcases h with ⟨rfl, h⟩ | ⟨rfl, h⟩ <;> rw [h] <;> rfl

theorem buildAddr_eq {afi : UInt16} {significant : Bytes} {fill : UInt8} {addr : IpAddr}
    (hfamily : addr.OfFamily afi) (hlen : significant.length ≤ addr.octets.length)
    (h : significant ++ List.replicate (addr.octets.length - significant.length) fill =
      addr.octets) : buildAddr afi significant fill = .ok addr := by
  have hw := hfamily.addressWidth
  unfold buildAddr
  split
  · rename_i e he
    rw [hw] at he
    cases he
  · rename_i width hwidth
    rw [hw] at hwidth
    cases hwidth
    rw [dif_neg (by omega)]
    congr 1
    obtain ⟨octets, size⟩ := addr
    exact IpAddr.mk.injEq .. ▸ h

theorem IpAddr.ext_octets {addr addr' : IpAddr} (h : addr.octets = addr'.octets) :
    addr = addr' := by
  obtain ⟨octets, size⟩ := addr
  exact (IpAddr.mk.injEq ..).mpr h

/-- **What is built**: the bytes given, filled up to the width of the family. -/
theorem buildAddr_ok_iff {afi : UInt16} {significant : Bytes} {fill : UInt8} {addr : IpAddr} :
    buildAddr afi significant fill = .ok addr ↔
      ∃ width, addressWidth afi = .ok width ∧ significant.length ≤ width ∧
        addr.octets = significant ++ List.replicate (width - significant.length) fill := by
  unfold buildAddr
  split
  · rename_i e he
    simp [he]
  · rename_i width hwidth
    split
    · constructor
      · rintro ⟨⟩
      · rintro ⟨width', hwidth', hle, -⟩
        rw [hwidth] at hwidth'
        cases hwidth'
        omega
    · constructor
      · rintro ⟨⟩
        exact ⟨width, hwidth, by omega, rfl⟩
      · rintro ⟨width', hwidth', hle, hoctets⟩
        rw [hwidth] at hwidth'
        cases hwidth'
        exact congrArg Except.ok (IpAddr.ext_octets hoctets.symm)

/-- An address that is built is as long as the bytes it is built of, or longer. -/
theorem buildAddr_length {afi : UInt16} {significant : Bytes} {fill : UInt8} {addr : IpAddr}
    (h : buildAddr afi significant fill = .ok addr) :
    significant.length ≤ addr.octets.length ∧ addr.octets.length ≤ 16 := by
  obtain ⟨width, hwidth, hle, hoctets⟩ := buildAddr_ok_iff.mp h
  have hsize := addressWidth_size hwidth
  rw [hoctets, List.length_append, List.length_replicate]
  omega

/-- **The network that is built** has the given bytes, and all bits but the unused ones. -/
theorem buildPrefix_ok_iff {afi : UInt16} {significant : Bytes} {unusedBits : UInt8}
    {net : IpNet} :
    buildPrefix afi significant unusedBits = .ok net ↔
      buildAddr afi significant 0x00 = .ok net.addr ∧
        unusedBits.toNat ≤ 8 * significant.length ∧
          net.prefixLen.toNat = 8 * significant.length - unusedBits.toNat := by
  have hlt := unusedBits.toNat_lt
  unfold buildPrefix
  cases haddr : buildAddr afi significant 0x00 with
  | error e => simp [bind, Except.bind]
  | ok addr =>
      obtain ⟨hle, hsize⟩ := buildAddr_length haddr
      have hbits : significant.length % 256 * 8 = 8 * significant.length := by omega
      have hp : (UInt8.ofNat (8 * significant.length - unusedBits.toNat)).toNat =
          8 * significant.length - unusedBits.toNat :=
        UInt8.toNat_ofNat_of_lt' (show _ < 2 ^ 8 by omega)
      simp only [bind, Except.bind, hbits, Except.ok.injEq]
      by_cases hunused : unusedBits.toNat ≤ 8 * significant.length
      · have hfit : (UInt8.ofNat (8 * significant.length - unusedBits.toNat)).toNat ≤
            8 * addr.octets.length := by omega
        have hnew : IpNet.new addr (UInt8.ofNat (8 * significant.length - unusedBits.toNat)) =
            some ⟨addr, _, hfit⟩ := dif_pos hfit
        rw [if_pos ⟨by omega, hunused⟩, hnew]
        constructor
        · rintro ⟨⟩
          exact ⟨rfl, hunused, hp⟩
        · rintro ⟨rfl, -, hprefix⟩
          obtain ⟨addr, prefixLen, hnet⟩ := net
          obtain rfl : UInt8.ofNat (8 * significant.length - unusedBits.toNat) = prefixLen :=
            UInt8.toNat_inj.mp (hp.trans hprefix.symm)
          rfl
      · rw [if_neg (by omega)]
        simp [hunused]

/-- What is built belongs to the family it was built for. -/
theorem ofFamily_of_buildAddr {afi : UInt16} {significant : Bytes} {fill : UInt8} {addr : IpAddr}
    (h : buildAddr afi significant fill = .ok addr) : addr.OfFamily afi := by
  obtain ⟨width, hwidth, hle, hoctets⟩ := buildAddr_ok_iff.mp h
  have hlen : addr.octets.length = width := by
    rw [hoctets, List.length_append, List.length_replicate]
    omega
  unfold IpAddr.OfFamily
  rw [hlen]
  unfold addressWidth at hwidth
  split_ifs at hwidth with h1 h2
  · cases hwidth
    exact Or.inl ⟨h1, rfl⟩
  · cases hwidth
    exact Or.inr ⟨h2, rfl⟩

theorem ofFamily_of_buildPrefix {afi : UInt16} {significant : Bytes} {unusedBits : UInt8}
    {net : IpNet} (h : buildPrefix afi significant unusedBits = .ok net) :
    net.addr.OfFamily afi := ofFamily_of_buildAddr (buildPrefix_ok_iff.mp h).1

/-! ### Framing and back -/

theorem trimmedLen_le (full : Bytes) (fill : UInt8) (e : Nat) : trimmedLen full fill e ≤ e := by
  induction e with
  | zero => exact Nat.le_refl _
  | succ e ih =>
      rw [trimmedLen]
      split
      · omega
      · exact Nat.le_refl _

/-- The bytes that were trimmed are all the fill byte. -/
theorem getElem?_of_trimmedLen_le {full : Bytes} {fill : UInt8} :
    ∀ {e i : Nat}, trimmedLen full fill e ≤ i → i < e → full[i]? = some fill := by
  intro e
  induction e with
  | zero => intro i _ hi; omega
  | succ e ih =>
      intro i hle hi
      rw [trimmedLen] at hle
      split at hle
      · rename_i he
        by_cases heq : i = e
        · rw [heq, he]
        · exact ih hle (by omega)
      · omega

theorem addrToFramedTrimmed_append (addr : IpAddr) (fill : UInt8) :
    addrToFramedTrimmed addr fill ++
      List.replicate (addr.octets.length - (addrToFramedTrimmed addr fill).length) fill =
        addr.octets := by
  unfold addrToFramedTrimmed
  have hle := trimmedLen_le addr.octets fill addr.octets.length
  rw [List.length_take_of_le hle]
  apply List.ext_getElem?
  intro i
  by_cases hi : i < trimmedLen addr.octets fill addr.octets.length
  · rw [List.getElem?_append_left (by rwa [List.length_take_of_le hle]),
      List.getElem?_take_of_lt hi]
  · rw [List.getElem?_append_right (by rw [List.length_take_of_le hle]; omega),
      List.length_take_of_le hle, List.getElem?_replicate]
    by_cases hlen : i < addr.octets.length
    · rw [if_pos (by omega), getElem?_of_trimmedLen_le
        (show trimmedLen addr.octets fill addr.octets.length ≤ i by omega) hlen]
    · rw [if_neg (by omega), List.getElem?_eq_none (by omega)]

/-- **A trimmed range bound is filled up to the same address.** -/
theorem buildAddr_addrToFramedTrimmed {afi : UInt16} {addr : IpAddr} (h : addr.OfFamily afi)
    (fill : UInt8) : buildAddr afi (addrToFramedTrimmed addr fill) fill = .ok addr := by
  refine buildAddr_eq h ?_ (addrToFramedTrimmed_append addr fill)
  rw [addrToFramedTrimmed, List.length_take]
  exact Nat.min_le_right _ _

theorem addrToFramedTrimmed_length (addr : IpAddr) (fill : UInt8) :
    (addrToFramedTrimmed addr fill).length ≤ 16 := by
  have hsize := addr.size
  rw [addrToFramedTrimmed, List.length_take]
  omega

theorem prefixToFramed_length (net : IpNet) :
    (prefixToFramed net).1.length = (net.prefixLen.toNat + 7) / 8 := by
  have hle := net.le
  have hsize := net.addr.size
  show (List.take _ (maskBytes _ _)).length = _
  rw [List.length_take, maskBytes_length]
  omega

theorem prefixToFramed_unused (net : IpNet) :
    (prefixToFramed net).2.toNat = (net.prefixLen.toNat + 7) / 8 * 8 - net.prefixLen.toNat :=
  UInt8.toNat_ofNat_of_lt' (show _ < 2 ^ 8 by omega)

/-- **A framed prefix is built into the network it came from.** -/
theorem buildPrefix_prefixToFramed {afi : UInt16} {net : IpNet} (h : net.addr.OfFamily afi) :
    buildPrefix afi (prefixToFramed net).1 (prefixToFramed net).2 = .ok net.normalise := by
  have hle := net.le
  have hsize := net.addr.size
  have hlen := prefixToFramed_length net
  have hunused := prefixToFramed_unused net
  have hoctets : net.normalise.addr.octets.length = net.addr.octets.length := maskBytes_length _ _
  have hfamily : net.normalise.addr.OfFamily afi := by
    unfold IpAddr.OfFamily
    rw [hoctets]
    exact h
  have haddr : buildAddr afi (prefixToFramed net).1 0x00 = .ok net.normalise.addr := by
    refine buildAddr_eq hfamily (by omega) ?_
    rw [hlen, hoctets]
    exact maskBytes_eq _ _
  unfold buildPrefix
  rw [haddr]
  simp only [bind, Except.bind, hlen, hunused]
  have hmod : (net.prefixLen.toNat + 7) / 8 % 256 = (net.prefixLen.toNat + 7) / 8 := by omega
  have hbits : (net.prefixLen.toNat + 7) / 8 * 8 -
      ((net.prefixLen.toNat + 7) / 8 * 8 - net.prefixLen.toNat) = net.prefixLen.toNat := by omega
  have hnew : IpNet.new net.normalise.addr net.prefixLen = some net.normalise :=
    dif_pos net.normalise.le
  rw [hmod, hbits, if_pos (by omega), UInt8.ofNat_toNat, hnew]

theorem prefixToFramed_normalise (net : IpNet) :
    prefixToFramed net.normalise = prefixToFramed net := by
  unfold prefixToFramed
  rw [IpNet.network_normalise]
  rfl

/-! ### Framed addresses as integers -/

/-- The CBOR int form takes at most this many octets. -/
def MAX_INT_FORM_BYTES : Nat := 8

/-- `absolute_int_from_framed` -/
def absoluteIntFromFramed (significant : Bytes) (unusedBits : UInt8) : Except String Int :=
  if significant.length + 1 > MAX_INT_FORM_BYTES then
    .error "address does not fit the CBOR int delta form"
  else if unusedBits.toNat + 1 < 256 then .ok (ofBe ((unusedBits + 1) :: significant))
  else .error "unusedBits too large to use the CBOR int delta form"

/-- The bytes without leading zeros, but never none. -/
def stripZeros : Bytes → Bytes
  | x :: y :: b => if x = 0 then stripZeros (y :: b) else x :: y :: b
  | b => b

/-- `framed_from_absolute_int` -/
def framedFromAbsoluteInt (abs : Int) : Except String (Bytes × UInt8) :=
  if abs < 0 then .error "resolved IP address delta is negative"
  else
    match stripZeros (be 16 abs.toNat) with
    | [] => .error "invalid unusedBits+1 framing byte"
    | framing :: significant =>
        if framing = 0 then .error "invalid unusedBits+1 framing byte"
        else .ok (significant, framing - 1)

theorem stripZeros_replicate {x : UInt8} {b : Bytes} (hx : x ≠ 0) (n : Nat) :
    stripZeros (List.replicate n 0 ++ x :: b) = x :: b := by
  induction n with
  | zero =>
      cases b with
      | nil => rfl
      | cons y b => rw [List.replicate_zero, List.nil_append, stripZeros, if_neg hx]
  | succ n ih =>
      rw [List.replicate_succ, List.cons_append]
      cases n with
      | zero =>
          rw [List.replicate_zero, List.nil_append, stripZeros, if_pos rfl]
          exact ih
      | succ n =>
          rw [List.replicate_succ, List.cons_append, stripZeros, if_pos rfl]
          exact ih

theorem ofBe_replicate_zero (n : Nat) (b : Bytes) : ofBe (List.replicate n 0 ++ b) = ofBe b := by
  induction n with
  | zero => rfl
  | succ n ih =>
      rw [List.replicate_succ, List.cons_append, ofBe, ih]
      simp

/-- A number is spelled in a wider field with zeros in front. -/
theorem be_ofBe_of_le {w : Nat} {b : Bytes} (h : b.length ≤ w) :
    be w (ofBe b) = List.replicate (w - b.length) 0 ++ b := by
  have hlen : (List.replicate (w - b.length) (0 : UInt8) ++ b).length = w := by
    rw [List.length_append, List.length_replicate]
    omega
  have hbe := be_ofBe (List.replicate (w - b.length) (0 : UInt8) ++ b)
  rwa [hlen, ofBe_replicate_zero] at hbe

/-- What an address of at most seven bytes is framed as: a positive number of eight bytes. -/
theorem absoluteIntFromFramed_ok {significant : Bytes} {unusedBits : UInt8}
    (hlen : significant.length ≤ 7) (hunused : unusedBits.toNat ≤ 254) :
    ∃ abs : Int, absoluteIntFromFramed significant unusedBits = .ok abs ∧ 1 ≤ abs ∧ abs < 2 ^ 64 ∧
      framedFromAbsoluteInt abs = .ok (significant, unusedBits) := by
  have hframing : (unusedBits + 1).toNat = unusedBits.toNat + 1 := by
    rw [UInt8.toNat_add]
    exact Nat.mod_eq_of_lt (show unusedBits.toNat + 1 < 256 by omega)
  have hne : unusedBits + 1 ≠ 0 := by
    intro h
    rw [h] at hframing
    have : (0 : UInt8).toNat = 0 := rfl
    omega
  have hpos : 1 ≤ ofBe ((unusedBits + 1) :: significant) := by
    rw [ofBe, hframing]
    have : 1 ≤ (unusedBits.toNat + 1) * 256 ^ significant.length :=
      Nat.one_le_iff_ne_zero.mpr (by positivity)
    omega
  have hlt : ofBe ((unusedBits + 1) :: significant) < 2 ^ 64 := by
    calc ofBe ((unusedBits + 1) :: significant) < 256 ^ (significant.length + 1) := ofBe_lt _
      _ ≤ 256 ^ 8 := Nat.pow_le_pow_right (by omega) (by omega)
      _ = 2 ^ 64 := by norm_num
  refine ⟨ofBe ((unusedBits + 1) :: significant), ?_, by exact_mod_cast hpos,
    by exact_mod_cast hlt, ?_⟩
  · unfold absoluteIntFromFramed MAX_INT_FORM_BYTES
    rw [if_neg (by omega), if_pos (by omega)]
  · have hstrip : stripZeros (be 16 (ofBe ((unusedBits + 1) :: significant))) =
        (unusedBits + 1) :: significant := by
      rw [be_ofBe_of_le (by rw [List.length_cons]; omega)]
      exact stripZeros_replicate hne _
    unfold framedFromAbsoluteInt
    rw [if_neg (by omega), Int.toNat_natCast, hstrip]
    simp only [if_neg hne, add_sub_cancel_right]

/-- A byte string that spells a positive number has a first byte that is not zero. -/
theorem exists_leading {b : Bytes} (h : ofBe b ≠ 0) :
    ∃ n x significant, x ≠ 0 ∧ b = List.replicate n 0 ++ x :: significant := by
  induction b with
  | nil => exact absurd rfl h
  | cons x b ih =>
      by_cases hx : x = 0
      · subst hx
        have hb : ofBe b ≠ 0 := by simpa [ofBe] using h
        obtain ⟨n, y, significant, hy, rfl⟩ := ih hb
        exact ⟨n + 1, y, significant, hy, rfl⟩
      · exact ⟨0, x, b, hx, rfl⟩

/-- A number is at least the power its first byte stands at. -/
theorem pow_le_ofBe {x : UInt8} (hx : x ≠ 0) (b : Bytes) : 256 ^ b.length ≤ ofBe (x :: b) := by
  have hpos : 1 ≤ x.toNat := Nat.one_le_iff_ne_zero.mpr fun h => hx (UInt8.toNat_inj.mp h)
  calc 256 ^ b.length = 1 * 256 ^ b.length := (Nat.one_mul _).symm
    _ ≤ x.toNat * 256 ^ b.length := Nat.mul_le_mul_right _ hpos
    _ ≤ ofBe (x :: b) := Nat.le_add_right _ _

/-- Every positive number of eight bytes is what an address of at most seven is framed as. -/
theorem framedFromAbsoluteInt_ok {abs : Int} (hlo : 1 ≤ abs) (hhi : abs < 2 ^ 64) :
    ∃ significant unusedBits, framedFromAbsoluteInt abs = .ok (significant, unusedBits) ∧
      significant.length ≤ 7 ∧ absoluteIntFromFramed significant unusedBits = .ok abs := by
  obtain ⟨n, rfl⟩ : ∃ n : Nat, abs = n := ⟨abs.toNat, by omega⟩
  have hn : ofBe (be 16 n) = n := ofBe_be_of_lt (by omega)
  obtain ⟨k, framing, significant, hne, hbe⟩ := exists_leading (b := be 16 n) (by omega)
  have hvalue : ofBe (framing :: significant) = n := by
    rw [← hn, hbe, ofBe_replicate_zero]
  have hlen : significant.length ≤ 7 := by
    by_contra hlong
    have hpow : 256 ^ 8 ≤ 256 ^ significant.length := Nat.pow_le_pow_right (by omega) (by omega)
    have hle := pow_le_ofBe hne significant
    omega
  have hpos : framing.toNat ≠ 0 := fun h => hne (UInt8.toNat_inj.mp h)
  have hunused : (framing - 1).toNat = framing.toNat - 1 :=
    UInt8.toNat_sub_of_le _ _ (UInt8.le_iff_toNat_le.mpr (Nat.one_le_iff_ne_zero.mpr hpos))
  have hlt := framing.toNat_lt
  refine ⟨significant, framing - 1, ?_, hlen, ?_⟩
  · unfold framedFromAbsoluteInt
    rw [if_neg (by omega), Int.toNat_natCast, hbe, stripZeros_replicate hne]
    exact if_neg hne
  · unfold absoluteIntFromFramed MAX_INT_FORM_BYTES
    rw [if_neg (by omega), if_pos (by omega), sub_add_cancel, hvalue]

/--
**Framing is a bijection.**  An address of at most seven bytes with at most 254 unused bits
is framed as a positive 64-bit number that unframes to it; every positive 64-bit number
unframes to such an address, which is framed as the number; and an address whose trailing
fill is trimmed is built again.
-/
theorem addressFraming_bijective :
    (∀ (significant : Bytes) (unusedBits : UInt8), significant.length ≤ 7 →
      unusedBits.toNat ≤ 254 → ∃ abs : Int,
        absoluteIntFromFramed significant unusedBits = .ok abs ∧ 1 ≤ abs ∧ abs < 2 ^ 64 ∧
          framedFromAbsoluteInt abs = .ok (significant, unusedBits)) ∧
    (∀ abs : Int, 1 ≤ abs → abs < 2 ^ 64 → ∃ significant unusedBits,
      framedFromAbsoluteInt abs = .ok (significant, unusedBits) ∧ significant.length ≤ 7 ∧
        absoluteIntFromFramed significant unusedBits = .ok abs) ∧
    ∀ (addr : IpAddr) (fill : UInt8) (afi : UInt16), addr.OfFamily afi →
      buildAddr afi (addrToFramedTrimmed addr fill) fill = .ok addr :=
  ⟨fun _ _ => absoluteIntFromFramed_ok, fun _ => framedFromAbsoluteInt_ok,
    fun _ fill _ h => buildAddr_addrToFramedTrimmed h fill⟩

/-- Zeros on both sides are kept, and so are the bounds of the integers. -/
theorem addressFraming_bijective_zeros :
    (∃ abs : Int, absoluteIntFromFramed [0, 0, 10, 0, 0, 0, 0] 254 = .ok abs ∧ 1 ≤ abs ∧
      abs < 2 ^ 64 ∧ framedFromAbsoluteInt abs = .ok ([0, 0, 10, 0, 0, 0, 0], 254)) ∧
    (∃ significant unusedBits,
      framedFromAbsoluteInt (2 ^ 64 - 1) = .ok (significant, unusedBits) ∧
        significant.length ≤ 7 ∧
          absoluteIntFromFramed significant unusedBits = .ok (2 ^ 64 - 1)) ∧
    buildAddr 1 (addrToFramedTrimmed ⟨[10, 0xFF, 0xFF, 0xFF], Or.inl rfl⟩ 0xFF) 0xFF =
      .ok ⟨[10, 0xFF, 0xFF, 0xFF], Or.inl rfl⟩ :=
  ⟨addressFraming_bijective.1 _ _ (by decide) (by decide),
    addressFraming_bijective.2.1 _ (by decide) (by decide),
    addressFraming_bijective.2.2 _ _ _ (Or.inl ⟨rfl, rfl⟩)⟩

end C509
