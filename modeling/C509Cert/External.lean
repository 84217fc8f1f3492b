/-
Values of the other crates the certificate types are made of.

Object identifiers belong to the `oid` crate, whose two conversions enter as a class;
the rest (`macaddr::MacAddr`, `num_bigint::BigUint`, `time::OffsetDateTime`) are
modelled by their documented meaning.
-/
import C509Cert.Cbor.Head

namespace C509

open Cbor

/-! ### Object identifiers -/

/-- `oid::ObjectIdentifier`, by its arcs. -/
structure ObjectIdentifier where
  arcs : List UInt32
  deriving DecidableEq

/-- The conversions of the `oid` crate, from and to DER content octets. -/
class OidCrate where
  /-- `ObjectIdentifier::try_from(&[u8])` -/
  tryFrom : Bytes → Option ObjectIdentifier
  /-- `Vec::from(&ObjectIdentifier)` -/
  toVec : ObjectIdentifier → Bytes

/-- An identifier that was read is written as no more octets than a vector can hold. -/
class LawfulOid [OidCrate] : Prop where
  length_toVec {b : Bytes} {o : ObjectIdentifier} (h : OidCrate.tryFrom b = some o)
    (hb : b.length < 2 ^ 64) : (OidCrate.toVec o).length < 2 ^ 64

/-- An identifier that was read is written as octets that are read as the same identifier. -/
class OidReadsBack [OidCrate] : Prop where
  tryFrom_toVec {b : Bytes} {o : ObjectIdentifier} (h : OidCrate.tryFrom b = some o) :
    OidCrate.tryFrom (OidCrate.toVec o) = some o

namespace ObjectIdentifier

variable [OidCrate]

/-- The `oid` crate has read `o` from some octets. -/
def Read (o : ObjectIdentifier) : Prop :=
  (∃ b, OidCrate.tryFrom b = some o) ∧ (OidCrate.toVec o).length < 2 ^ 64

/-- The `oid` crate reads `o` back from the octets it writes for it. -/
def Valid (o : ObjectIdentifier) : Prop :=
  OidCrate.tryFrom (OidCrate.toVec o) = some o ∧ (OidCrate.toVec o).length < 2 ^ 64

theorem Valid.read {o : ObjectIdentifier} (h : o.Valid) : o.Read := ⟨⟨_, h.1⟩, h.2⟩

theorem Read.valid [OidReadsBack] {o : ObjectIdentifier} (h : o.Read) : o.Valid := by
  obtain ⟨⟨b, hb⟩, hlen⟩ := h
  exact ⟨OidReadsBack.tryFrom_toVec hb, hlen⟩

end ObjectIdentifier

namespace OidCrate

/-- The base-128 digits of an arc, most significant first, all but the last marked. -/
def arcBytes (more : Nat) : Nat → Nat → Bytes
  | 0, _ => []
  | fuel + 1, n =>
      let digit := UInt8.ofNat (n % 128 + more)
      if n < 128 then [digit] else arcBytes 128 fuel (n / 128) ++ [digit]

/-- The arcs base-128 digits spell. -/
def readArcs : Nat → Bytes → Option (List Nat)
  | 0, [] => some []
  | _, [] => none
  | acc, x :: b =>
      if x.toNat < 128 then (readArcs 0 b).map ((acc * 128 + x.toNat) :: ·)
      else readArcs (acc * 128 + (x.toNat - 128)) b

/-- The DER content octets of an identifier. -/
def toOctets : ObjectIdentifier → Bytes
  | ⟨a :: b :: arcs⟩ =>
      arcBytes 0 5 (40 * a.toNat + b.toNat) ++ arcs.flatMap fun n => arcBytes 0 5 n.toNat
  | _ => []

/-- The first arc is the quotient by 40, and 2 from 80 on. -/
def ofNumbers : List Nat → Option ObjectIdentifier
  | [] => none
  | n :: arcs =>
      let a := min (n / 40) 2
      some ⟨(a :: (n - 40 * a) :: arcs).map UInt32.ofNat⟩

/-- An `oid` crate that can be run: it reads exactly the octets it writes. -/
@[reducible] def reference : OidCrate where
  tryFrom b := ((readArcs 0 b).bind ofNumbers).filter fun o => toOctets o = b
  toVec := toOctets

theorem reference_tryFrom {b : Bytes} {o : ObjectIdentifier}
    (h : reference.tryFrom b = some o) : toOctets o = b := by
  simpa using (Option.filter_eq_some_iff.mp h).2

theorem reference_lawful : @LawfulOid reference := by
  refine @LawfulOid.mk reference fun {b o} h hb => ?_
  show (toOctets o).length < 2 ^ 64
  rwa [reference_tryFrom h]

theorem reference_readsBack : @OidReadsBack reference := by
  refine @OidReadsBack.mk reference fun {b o} h => ?_
  show reference.tryFrom (toOctets o) = some o
  rw [reference_tryFrom h, h]

end OidCrate

namespace Reference

scoped instance oidCrate : OidCrate := OidCrate.reference

scoped instance lawfulOid : LawfulOid := OidCrate.reference_lawful

scoped instance oidReadsBack : OidReadsBack := OidCrate.reference_readsBack

end Reference

/-! ### MAC addresses -/

/-- `macaddr::MacAddr`: an EUI-48 or an EUI-64. -/
structure MacAddr where
  bytes : Bytes
  size : bytes.length = 6 ∨ bytes.length = 8
  deriving DecidableEq

/-! ### Big numbers -/

/-- `num_bigint::BigUint` -/
abbrev BigUint := Nat

/-- `BigUint::from_bytes_be` -/
def BigUint.fromBytesBe (b : Bytes) : BigUint := ofBe b

/-- `BigUint::to_bytes_be`: no leading zero, but one byte for zero. -/
def BigUint.toBytesBe (n : BigUint) : Bytes := be (Nat.log2 n / 8 + 1) n

theorem BigUint.fromBytesBe_toBytesBe (n : BigUint) : fromBytesBe (toBytesBe n) = n := by
  unfold fromBytesBe toBytesBe
  apply ofBe_be_of_lt
  calc n < 2 ^ (Nat.log2 n + 1) := Nat.lt_log2_self
    _ ≤ 2 ^ (8 * (Nat.log2 n / 8 + 1)) := Nat.pow_le_pow_right (by omega) (by omega)
    _ = 256 ^ (Nat.log2 n / 8 + 1) := by rw [pow_mul]; norm_num

/-- What `n` is written as takes no more bytes than anything it is read from. -/
theorem BigUint.length_toBytesBe_fromBytesBe (b : Bytes) :
    (toBytesBe (fromBytesBe b)).length ≤ max 1 b.length := by
  unfold fromBytesBe toBytesBe
  rw [be_length]
  by_cases hzero : ofBe b = 0
  · simp [hzero, Nat.log2_zero]
  · have hlt : ofBe b < 2 ^ (8 * b.length) := by
      rw [pow_mul]
      exact ofBe_lt b
    have hlog := (Nat.log2_lt hzero).mpr hlt
    omega

/-! ### Points in time -/

/-- `time::OffsetDateTime`, as the instant equality compares: nanoseconds since the epoch. -/
structure OffsetDateTime where
  nanos : Int
  deriving DecidableEq

/-- The last second of year 9999, and the first of year -9999. -/
def maxTimestamp : Int := 253402300799
def minTimestamp : Int := -377705116800

/-- `OffsetDateTime::unix_timestamp`, rounding down. -/
def OffsetDateTime.unixTimestamp (t : OffsetDateTime) : Int := t.nanos / 1000000000

/-- `OffsetDateTime::from_unix_timestamp` -/
def OffsetDateTime.fromUnixTimestamp (secs : Int) : Option OffsetDateTime :=
  if minTimestamp ≤ secs ∧ secs ≤ maxTimestamp then some ⟨secs * 1000000000⟩ else none

/-- A whole second from 1970 to 9999. -/
def OffsetDateTime.Valid (t : OffsetDateTime) : Prop :=
  ∃ secs : Int, 0 ≤ secs ∧ secs ≤ maxTimestamp ∧ t.nanos = secs * 1000000000

theorem OffsetDateTime.unixTimestamp_eq {t : OffsetDateTime} {secs : Int}
    (h : t.nanos = secs * 1000000000) : t.unixTimestamp = secs := by
  unfold unixTimestamp
  rw [h]
  omega

end C509
