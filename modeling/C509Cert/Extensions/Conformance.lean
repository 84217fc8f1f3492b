/-
Where five extension decoders conform to their grammars, to the letter.

The grammars of `Extensions/Grammar.lean` are read in two ways, and a decoder that takes
the one of the crate conforms to the letter of the other off the words the two do not
share.  These are of two kinds, which `Short` and `Wide` write out as grammars of their own:
the words with fewer elements somewhere than are asked for, and those with a number, or
octets for an OID, that the types of the crate do not hold.  Purposes are off the grammar
in one more form, an array of indefinite length.
-/
import C509Cert.Codec.Differences
import C509Cert.Extensions.Grammar

namespace C509

open Cbor Codec

namespace Reading

/-! ### Words with too few elements -/

namespace Short

/-- `[]` -/
def empty : Language UInt8 := Cddl.array 0 1

/-- No text in an array, or one. -/
def fullName : Language UInt8 := Cddl.arrayBelow 2 1 Cddl.text

variable [OidCrate]

/-- No purpose in an array, or one. -/
def extKeyUsage : Language UInt8 := Cddl.arrayBelow 2 1 crate.intOrOid

/-- A full name is short. -/
def distributionPointName : Language UInt8 :=
  Cddl.array 3 (fullName * ((Cddl.uint crate.uint + Cddl.null) * (crate.name + Cddl.null)))

/-- One of the distribution points has a short full name. -/
def distributionPoints : Language UInt8 :=
  Cddl.arrayWith 0 1 crate.distributionPointName distributionPointName

/-- There are no attributes, or one of them has no values. -/
def subjectDirectoryAttributes : Language UInt8 :=
  empty + Cddl.arrayWith 0 2 (crate.rdnAttr (Cddl.arrayOf 0 1 specialText)
    (Cddl.arrayOf 0 1 (Cddl.bytes fun _ => True))) (crate.rdnAttr empty empty)

end Short

/-! ### Words too wide for the types of the crate -/

namespace Wide

variable [OidCrate]

/-- A number beyond an `i32`, or octets that are no OID. -/
def intOrOid : Language UInt8 :=
  Cddl.int (fun v => ¬ crate.int v) + Cddl.bytes fun s => ¬ crate.oid s

/-- The type of an attribute has a magnitude beyond a `u16`, or octets that are no OID. -/
def rdnAttr (S B : Language UInt8) : Language UInt8 :=
  Cddl.int (fun v => ¬ crate.attributeType v) * S + Cddl.bytes (fun s => ¬ crate.oid s) * B

/-- One of the attributes of the name is wide. -/
def name : Language UInt8 :=
  Cddl.arrayWith 0 2 (literal.rdnAttr specialText (Cddl.bytes fun _ => True))
    (rdnAttr specialText (Cddl.bytes fun _ => True))

/-- One of two purposes or more is wide, or the one purpose. -/
def extKeyUsage : Language UInt8 := Cddl.arrayWith 2 1 literal.intOrOid intOrOid + intOrOid

/-- The reasons are beyond a `u32`, or the issuer is wide. -/
def distributionPointName : Language UInt8 :=
  Cddl.array 3 (literal.fullName *
    (Cddl.uint (fun n => ¬ crate.uint n) * (literal.name + Cddl.null) +
      (Cddl.uint literal.uint + Cddl.null) * name))

/-- One of the distribution points is wide. -/
def distributionPoints : Language UInt8 :=
  Cddl.arrayWith 0 1 literal.distributionPointName distributionPointName

/-- One of the policies is wide, in its own identifier or in that of a qualifier. -/
def certificatePolicies : Language UInt8 :=
  Cddl.arrayWith 1 2 (literal.intOrOid * Cddl.arrayOf 0 2 (literal.intOrOid * Cddl.text))
    (intOrOid * Cddl.arrayOf 0 2 (literal.intOrOid * Cddl.text) +
      literal.intOrOid *
        Cddl.arrayWith 0 2 (literal.intOrOid * Cddl.text) (intOrOid * Cddl.text))

/-- One of the mappings is wide, on either side. -/
def policyMappings : Language UInt8 :=
  Cddl.arrayWith 1 2 (literal.intOrOid * literal.intOrOid)
    (intOrOid * literal.intOrOid + literal.intOrOid * intOrOid)

/-- The type of one of the attributes is wide. -/
def subjectDirectoryAttributes : Language UInt8 :=
  Cddl.arrayWith 1 2 (literal.rdnAttr (Cddl.arrayOf 1 1 specialText)
      (Cddl.arrayOf 1 1 (Cddl.bytes fun _ => True)))
    (rdnAttr (Cddl.arrayOf 1 1 specialText) (Cddl.arrayOf 1 1 (Cddl.bytes fun _ => True)))

end Wide

/-! ### Where two readings part -/

section

theorem isInt_ne_bytes (t : DataType) (ht : t.isInt = true) : ¬ t = .bytes := by
  rintro rfl
  cases ht

theorem array_ne_text (t : DataType) (ht : t = .array) : ¬ t = .string := by
  rw [ht]
  decide

variable (R : Reading)

theorem counted_bytes : Cddl.Counted 1 (Cddl.bytes fun _ => True) := .bytes _

theorem counted_intOrOid : Cddl.Counted 1 R.intOrOid := (Cddl.Counted.int _).add (.bytes _)

theorem counted_extKeyUsage : Cddl.Counted 1 R.extKeyUsage :=
  (R.counted_intOrOid.arrayOf _).add R.counted_intOrOid

theorem counted_specialText : Cddl.Counted 1 specialText :=
  (Cddl.Counted.text.add (.bytes _)).add (.tagged _ (.bytes _))

theorem counted_rdnAttr {S B : Language UInt8} (hS : Cddl.Counted 1 S) (hB : Cddl.Counted 1 B) :
    Cddl.Counted 2 (R.rdnAttr S B) :=
  ((Cddl.Counted.int _).mul hS).add ((Cddl.Counted.bytes _).mul hB)

theorem counted_name : Cddl.Counted 1 R.name :=
  ((R.counted_rdnAttr counted_specialText counted_bytes).arrayOf _).add counted_specialText

theorem counted_fullName : Cddl.Counted 1 R.fullName :=
  (Cddl.Counted.text.arrayOf _).add .text

theorem counted_distributionPointName : Cddl.Counted 1 R.distributionPointName :=
  (R.counted_fullName.mul
    (((Cddl.Counted.uint _).add .null).mul (R.counted_name.add .null))).array

theorem counted_distributionPoints : Cddl.Counted 1 R.distributionPoints :=
  (R.counted_distributionPointName.arrayOf _).add .text

theorem counted_certificatePolicies : Cddl.Counted 1 R.certificatePolicies :=
  (R.counted_intOrOid.mul ((R.counted_intOrOid.mul .text).arrayOf _)).arrayOf _

theorem counted_policyMappings : Cddl.Counted 1 R.policyMappings :=
  (R.counted_intOrOid.mul R.counted_intOrOid).arrayOf _

theorem counted_subjectDirectoryAttributes : Cddl.Counted 1 R.subjectDirectoryAttributes :=
  (R.counted_rdnAttr (counted_specialText.arrayOf _) (counted_bytes.arrayOf _)).arrayOf _

variable (R' : Reading)

theorem intOrOid_sub : R.intOrOid - R'.intOrOid =
    (Cddl.int R.int - Cddl.int R'.int) + (Cddl.bytes R.oid - Cddl.bytes R'.oid) :=
  Cddl.add_sub_add isInt_ne_bytes (.int _) (.int _) (.bytes _) (.bytes _)

theorem extKeyUsage_sub : R.extKeyUsage - R'.extKeyUsage =
    (Cddl.arrayOf (R.least 2) 1 R.intOrOid - Cddl.arrayOf (R'.least 2) 1 R'.intOrOid) +
      (R.intOrOid - R'.intOrOid) :=
  Cddl.add_sub_add (fun _ ht h => h.1 ht) (.arrayOf _ _) (.arrayOf _ _) (typed_intOrOid R)
    (typed_intOrOid R')

theorem rdnAttr_sub (S B S' B' : Language UInt8) : R.rdnAttr S B - R'.rdnAttr S' B' =
    ((Cddl.int R.attributeType - Cddl.int R'.attributeType) * S +
        Cddl.int R.attributeType * (S - S')) +
      ((Cddl.bytes R.oid - Cddl.bytes R'.oid) * B + Cddl.bytes R.oid * (B - B')) := by
  rw [rdnAttr, rdnAttr, Cddl.add_sub_add isInt_ne_bytes (Cddl.Typed.int _).mul
    (Cddl.Typed.int _).mul (Cddl.Typed.bytes _).mul (Cddl.Typed.bytes _).mul,
    (Cddl.Counted.int _).mul_sub_mul (.int _), (Cddl.Counted.bytes _).mul_sub_mul (.bytes _)]

theorem fullName_sub : R.fullName - R'.fullName =
    Cddl.arrayOf (R.least 2) 1 Cddl.text - Cddl.arrayOf (R'.least 2) 1 Cddl.text :=
  Cddl.add_sub_add_same array_ne_text (.arrayOf _ _) (.arrayOf _ _) .text

theorem name_sub : R.name - R'.name =
    Cddl.arrayWith 0 2 (R.rdnAttr specialText (Cddl.bytes fun _ => True))
      (R.rdnAttr specialText (Cddl.bytes fun _ => True) -
        R'.rdnAttr specialText (Cddl.bytes fun _ => True)) := by
  rw [name, name, Cddl.add_sub_add_same (fun _ ht h => ?_) (.arrayOf _ _) (.arrayOf _ _)
    typed_specialText, Cddl.arrayOf_sub_arrayOf_zero (by decide)
      (R.counted_rdnAttr counted_specialText counted_bytes)
      (R'.counted_rdnAttr counted_specialText counted_bytes)]
  subst ht
  rcases h with h | h | h <;> cases h

theorem distributionPointName_sub : R.distributionPointName - R'.distributionPointName =
    Cddl.array 3 ((R.fullName - R'.fullName) *
        ((Cddl.uint R.uint + Cddl.null) * (R.name + Cddl.null)) +
      R.fullName * ((Cddl.uint R.uint - Cddl.uint R'.uint) * (R.name + Cddl.null) +
        (Cddl.uint R.uint + Cddl.null) * (R.name - R'.name))) := by
  have hreasons : Cddl.uint R.uint + Cddl.null - (Cddl.uint R'.uint + Cddl.null) =
      Cddl.uint R.uint - Cddl.uint R'.uint := by
    refine Cddl.add_sub_add_same (fun _ ht h => ?_) (.uint _) (.uint _) .null
    subst h
    cases ht
  have hissuer : R.name + Cddl.null - (R'.name + Cddl.null) = R.name - R'.name := by
    refine Cddl.add_sub_add_same (fun _ ht h => ?_) (typed_name R) (typed_name R') .null
    subst h
    rcases ht with h | h | h | h <;> cases h
  rw [distributionPointName, distributionPointName, Cddl.array_sub_array,
    R.counted_fullName.mul_sub_mul R'.counted_fullName,
    ((Cddl.Counted.uint _).add .null).mul_sub_mul ((Cddl.Counted.uint _).add .null),
    hreasons, hissuer]

theorem distributionPoints_sub : R.distributionPoints - R'.distributionPoints =
    Cddl.arrayWith 0 1 R.distributionPointName
      (R.distributionPointName - R'.distributionPointName) := by
  rw [distributionPoints, distributionPoints,
    Cddl.add_sub_add_same array_ne_text (.arrayOf _ _) (.arrayOf _ _) .text,
    Cddl.arrayOf_sub_arrayOf_zero (by decide) R.counted_distributionPointName
      R'.counted_distributionPointName]

/-- A policy parts in its identifier or in that of a qualifier. -/
theorem policy_sub :
    R.intOrOid * Cddl.arrayOf 0 2 (R.intOrOid * Cddl.text) -
        R'.intOrOid * Cddl.arrayOf 0 2 (R'.intOrOid * Cddl.text) =
      (R.intOrOid - R'.intOrOid) * Cddl.arrayOf 0 2 (R.intOrOid * Cddl.text) +
        R.intOrOid * Cddl.arrayWith 0 2 (R.intOrOid * Cddl.text)
          ((R.intOrOid - R'.intOrOid) * Cddl.text) := by
  rw [R.counted_intOrOid.mul_sub_mul R'.counted_intOrOid,
    Cddl.arrayOf_sub_arrayOf_zero (by decide) (R.counted_intOrOid.mul .text)
      (R'.counted_intOrOid.mul .text),
    R.counted_intOrOid.mul_sub_mul R'.counted_intOrOid, Cddl.sub_self, mul_zero, add_zero]

end

/-! ### The crate's words that are off the letter -/

namespace Short

variable [OidCrate]

theorem intOrOid_sub : crate.intOrOid - literal.intOrOid = 0 :=
  Cddl.sub_eq_zero_of_le (add_le_add (Cddl.int_mono fun _ _ => trivial)
    (Cddl.bytes_mono fun _ _ => trivial))

theorem rdnAttr_sub (S B S' B' : Language UInt8) :
    crate.rdnAttr S B - literal.rdnAttr S' B' = crate.rdnAttr (S - S') (B - B') := by
  have htype : Cddl.int crate.attributeType - Cddl.int literal.attributeType = 0 :=
    Cddl.sub_eq_zero_of_le (Cddl.int_mono fun _ _ => trivial)
  have hoid : Cddl.bytes crate.oid - Cddl.bytes literal.oid = 0 :=
    Cddl.sub_eq_zero_of_le (Cddl.bytes_mono fun _ _ => trivial)
  rw [Reading.rdnAttr_sub, htype, hoid, zero_mul, zero_mul, zero_add, zero_add]
  rfl

theorem fullName_sub : crate.fullName - literal.fullName = fullName := by
  rw [Reading.fullName_sub]
  have h := Cddl.arrayOf_zero_sub_arrayOf Nat.one_pos .text .text 2
  rwa [Cddl.sub_self, Cddl.arrayWith_zero, add_zero] at h

theorem name_sub : crate.name - literal.name = 0 := by
  have hnone : crate.rdnAttr 0 0 = 0 := by rw [rdnAttr, mul_zero, mul_zero, add_zero]
  rw [Reading.name_sub, rdnAttr_sub, Cddl.sub_self, Cddl.sub_self, hnone, Cddl.arrayWith_zero]

theorem extKeyUsage_sub : crate.extKeyUsage - literal.extKeyUsage = extKeyUsage := by
  have harray := Cddl.arrayOf_zero_sub_arrayOf Nat.one_pos crate.counted_intOrOid
    literal.counted_intOrOid 2
  rw [intOrOid_sub, Cddl.arrayWith_zero, add_zero] at harray
  rw [Reading.extKeyUsage_sub, intOrOid_sub, add_zero]
  exact harray

theorem distributionPointName_sub :
    crate.distributionPointName - literal.distributionPointName = distributionPointName := by
  have hreasons : Cddl.uint crate.uint - Cddl.uint literal.uint = 0 :=
    Cddl.sub_eq_zero_of_le (Cddl.uint_mono fun _ _ => trivial)
  rw [Reading.distributionPointName_sub, fullName_sub, name_sub, hreasons, zero_mul, mul_zero,
    add_zero, mul_zero, add_zero]
  rfl

theorem distributionPoints_sub :
    crate.distributionPoints - literal.distributionPoints = distributionPoints := by
  rw [Reading.distributionPoints_sub, distributionPointName_sub]
  rfl

theorem certificatePolicies_sub :
    crate.certificatePolicies - literal.certificatePolicies = empty := by
  have harray := Cddl.arrayOf_zero_sub_arrayOf Nat.two_pos
    (crate.counted_intOrOid.mul ((crate.counted_intOrOid.mul .text).arrayOf 0))
    (literal.counted_intOrOid.mul ((literal.counted_intOrOid.mul .text).arrayOf 0)) 1
  rw [Reading.policy_sub, intOrOid_sub, zero_mul, zero_mul, Cddl.arrayWith_zero, mul_zero,
    add_zero, Cddl.arrayWith_zero, add_zero, Cddl.arrayBelow_one] at harray
  exact harray

theorem policyMappings_sub : crate.policyMappings - literal.policyMappings = empty := by
  have harray := Cddl.arrayOf_zero_sub_arrayOf Nat.two_pos
    (crate.counted_intOrOid.mul crate.counted_intOrOid)
    (literal.counted_intOrOid.mul literal.counted_intOrOid) 1
  rw [crate.counted_intOrOid.mul_sub_mul literal.counted_intOrOid, intOrOid_sub, zero_mul,
    mul_zero, add_zero, Cddl.arrayWith_zero, add_zero, Cddl.arrayBelow_one] at harray
  exact harray

omit [OidCrate] in
/-- Values have no other difference than their least number. -/
theorem values_sub {L : Language UInt8} (hL : Cddl.Counted 1 L) :
    Cddl.arrayOf 0 1 L - Cddl.arrayOf 1 1 L = empty := by
  rw [Cddl.arrayOf_zero_sub_arrayOf Nat.one_pos hL hL, Cddl.sub_self, Cddl.arrayWith_zero,
    add_zero, Cddl.arrayBelow_one, empty]

theorem subjectDirectoryAttributes_sub :
    crate.subjectDirectoryAttributes - literal.subjectDirectoryAttributes =
      subjectDirectoryAttributes := by
  have harray := Cddl.arrayOf_zero_sub_arrayOf Nat.two_pos
    (crate.counted_rdnAttr (counted_specialText.arrayOf 0) (counted_bytes.arrayOf 0))
    (literal.counted_rdnAttr (counted_specialText.arrayOf 1) (counted_bytes.arrayOf 1)) 1
  rw [rdnAttr_sub, values_sub counted_specialText, values_sub counted_bytes,
    Cddl.arrayBelow_one] at harray
  exact harray

end Short

/-! ### The words of the letter that are off the crate's -/

namespace Wide

variable [OidCrate]

theorem intOrOid_sub : literal.intOrOid - crate.intOrOid = intOrOid := by
  rw [Reading.intOrOid_sub, intOrOid, ← Cddl.int_sub_int, ← Cddl.bytes_sub_bytes]
  rfl

theorem rdnAttr_sub {S B S' B' : Language UInt8} (hS : S - S' = 0) (hB : B - B' = 0) :
    literal.rdnAttr S B - crate.rdnAttr S' B' = rdnAttr S B := by
  rw [Reading.rdnAttr_sub, hS, hB, mul_zero, mul_zero, add_zero, add_zero, rdnAttr,
    ← Cddl.int_sub_int, ← Cddl.bytes_sub_bytes]
  rfl

theorem fullName_sub : literal.fullName - crate.fullName = 0 := by
  have harray := Cddl.arrayOf_sub_arrayOf_zero Nat.one_pos .text .text 2
  rw [Cddl.sub_self, Cddl.arrayWith_zero] at harray
  rw [Reading.fullName_sub]
  exact harray

theorem name_sub : literal.name - crate.name = name := by
  rw [Reading.name_sub, rdnAttr_sub (Cddl.sub_self _) (Cddl.sub_self _), name]

theorem extKeyUsage_sub : literal.extKeyUsage - crate.extKeyUsage = extKeyUsage := by
  have harray := Cddl.arrayOf_sub_arrayOf_zero Nat.one_pos literal.counted_intOrOid
    crate.counted_intOrOid 2
  rw [intOrOid_sub] at harray
  rw [Reading.extKeyUsage_sub, intOrOid_sub, extKeyUsage, ← harray]
  rfl

theorem distributionPointName_sub :
    literal.distributionPointName - crate.distributionPointName = distributionPointName := by
  rw [Reading.distributionPointName_sub, fullName_sub, name_sub, zero_mul, zero_add,
    distributionPointName, ← Cddl.uint_sub_uint]
  rfl

theorem distributionPoints_sub :
    literal.distributionPoints - crate.distributionPoints = distributionPoints := by
  rw [Reading.distributionPoints_sub, distributionPointName_sub, distributionPoints]

theorem certificatePolicies_sub :
    literal.certificatePolicies - crate.certificatePolicies = certificatePolicies := by
  have harray := Cddl.arrayOf_sub_arrayOf_zero Nat.two_pos
    (literal.counted_intOrOid.mul ((literal.counted_intOrOid.mul .text).arrayOf 0))
    (crate.counted_intOrOid.mul ((crate.counted_intOrOid.mul .text).arrayOf 0)) 1
  rw [Reading.policy_sub, intOrOid_sub] at harray
  exact harray

theorem policyMappings_sub : literal.policyMappings - crate.policyMappings = policyMappings := by
  have harray := Cddl.arrayOf_sub_arrayOf_zero Nat.two_pos
    (literal.counted_intOrOid.mul literal.counted_intOrOid)
    (crate.counted_intOrOid.mul crate.counted_intOrOid) 1
  rw [literal.counted_intOrOid.mul_sub_mul crate.counted_intOrOid, intOrOid_sub] at harray
  exact harray

omit [OidCrate] in
/-- More values than the least number are not off the crate's. -/
theorem values_sub {L : Language UInt8} (hL : Cddl.Counted 1 L) :
    Cddl.arrayOf 1 1 L - Cddl.arrayOf 0 1 L = 0 := by
  rw [Cddl.arrayOf_sub_arrayOf_zero Nat.one_pos hL hL, Cddl.sub_self, Cddl.arrayWith_zero]

theorem subjectDirectoryAttributes_sub :
    literal.subjectDirectoryAttributes - crate.subjectDirectoryAttributes =
      subjectDirectoryAttributes := by
  have harray := Cddl.arrayOf_sub_arrayOf_zero Nat.two_pos
    (literal.counted_rdnAttr (counted_specialText.arrayOf 1) (counted_bytes.arrayOf 1))
    (crate.counted_rdnAttr (counted_specialText.arrayOf 0) (counted_bytes.arrayOf 0)) 1
  rw [rdnAttr_sub (values_sub counted_specialText) (values_sub counted_bytes)] at harray
  exact harray

end Wide

end Reading

/-! ### The five decoders -/

section

variable [Minicbor] [LawfulMinicbor] [OidCrate]

omit [Minicbor] [LawfulMinicbor] in
theorem conforms_literal_iff {ε σ α : Type} {m : Parser ε σ α} {G : Reading → Language UInt8}
    {short wide : Language UInt8} (hm : Accepts m (G .crate)) (hG : ∀ R, Cddl.Counted 1 (G R))
    (hshort : G .crate - G .literal = short) (hwide : G .literal - G .crate = wide) (b : Bytes) :
    Conforms m (G .literal) b ↔ ¬ Cddl.Starts short b ∧ ¬ Cddl.Starts wide b := by
  rw [hm.conforms_iff ((hG .crate).add (hG .literal)).prefixFree b, hshort, hwide]

/-- Purposes may also stand in an array of indefinite length. -/
theorem ExtKeyUsage.conforms_literal_iff [LawfulOid] (b : Bytes) :
    Conforms ExtKeyUsage.decode Reading.literal.extKeyUsage b ↔
      ¬ Cddl.Starts Reading.Short.extKeyUsage b ∧ ¬ Cddl.Starts Reading.Wide.extKeyUsage b ∧
        ¬ Cddl.Starts (Cddl.indefiniteOf Reading.crate.intOrOid) b := by
  have hapart : ∀ t : DataType, t ≠ .arrayIndef → ¬ t = .arrayIndef := fun _ h => h
  have hnone : Cddl.Typed (fun t => t = .arrayIndef) 0 := fun _ hc => absurd hc (by simp)
  have hshort := Cddl.add_sub_add hapart (typed_extKeyUsage .crate) (typed_extKeyUsage .literal)
    (Cddl.Typed.indefiniteOf (L := Reading.crate.intOrOid)) hnone
  have hwide := Cddl.add_sub_add hapart (typed_extKeyUsage .literal) (typed_extKeyUsage .crate)
    hnone (Cddl.Typed.indefiniteOf (L := Reading.crate.intOrOid))
  rw [add_zero, Reading.Short.extKeyUsage_sub, tsub_zero] at hshort
  rw [add_zero, Reading.Wide.extKeyUsage_sub, zero_tsub, add_zero] at hwide
  have hfree := (((Reading.counted_extKeyUsage .crate).add
    (Reading.crate.counted_intOrOid.indefiniteOf)).add
      (Reading.counted_extKeyUsage .literal)).prefixFree
  rw [accepts.conforms_iff hfree b, hshort, hwide, Cddl.Starts.add_iff, not_or, and_assoc]
  exact and_congr_right fun _ => and_comm

theorem DistributionPointName.fullName_conforms_iff (b : Bytes) :
    Conforms decodeFullName Reading.literal.fullName b ↔
      ¬ Cddl.Starts Reading.Short.fullName b := by
  rw [C509.conforms_literal_iff (G := Reading.fullName) accepts_fullName Reading.counted_fullName
    Reading.Short.fullName_sub Reading.Wide.fullName_sub b]
  exact and_iff_left Cddl.not_starts_zero

/--
**The five decoders accept their grammars read without least numbers**, and with the crate's
widths for integers; purposes are left open there where an indefinite-length array stands in
their place.  **They conform to the letter of the grammars off three kinds of items**, and fail
to on each: those with too few elements, those whose numbers or octets the types of the crate
do not hold, and purposes in an array of indefinite length.
-/
theorem extensions_accept_grammar [LawfulOid] :
    ((∀ b r, ((∃ v, ExtKeyUsage.decode.run b = .ok (v, r)) ∧ ¬ IndefiniteArray b) ↔
      ∃ c ∈ Reading.crate.extKeyUsage, b = c ++ r) ∧
    Accepts DistributionPointName.decode Reading.crate.distributionPoints ∧
    Accepts DistributionPointName.decodeOne Reading.crate.distributionPointName ∧
    Accepts DistributionPointName.decodeFullName Reading.crate.fullName ∧
    Accepts CertificatePolicies.decode Reading.crate.certificatePolicies ∧
    Accepts PolicyMappings.decode Reading.crate.policyMappings ∧
    Accepts SubjectDirectoryAttributes.decode Reading.crate.subjectDirectoryAttributes) ∧
    ∀ b,
      (Conforms ExtKeyUsage.decode Reading.literal.extKeyUsage b ↔
        ¬ Cddl.Starts Reading.Short.extKeyUsage b ∧ ¬ Cddl.Starts Reading.Wide.extKeyUsage b ∧
          ¬ Cddl.Starts (Cddl.indefiniteOf Reading.crate.intOrOid) b) ∧
      (Conforms DistributionPointName.decode Reading.literal.distributionPoints b ↔
        ¬ Cddl.Starts Reading.Short.distributionPoints b ∧
          ¬ Cddl.Starts Reading.Wide.distributionPoints b) ∧
      (Conforms DistributionPointName.decodeOne Reading.literal.distributionPointName b ↔
        ¬ Cddl.Starts Reading.Short.distributionPointName b ∧
          ¬ Cddl.Starts Reading.Wide.distributionPointName b) ∧
      (Conforms DistributionPointName.decodeFullName Reading.literal.fullName b ↔
        ¬ Cddl.Starts Reading.Short.fullName b) ∧
      (Conforms CertificatePolicies.decode Reading.literal.certificatePolicies b ↔
        ¬ Cddl.Starts Reading.Short.empty b ∧
          ¬ Cddl.Starts Reading.Wide.certificatePolicies b) ∧
      (Conforms PolicyMappings.decode Reading.literal.policyMappings b ↔
        ¬ Cddl.Starts Reading.Short.empty b ∧ ¬ Cddl.Starts Reading.Wide.policyMappings b) ∧
      (Conforms SubjectDirectoryAttributes.decode Reading.literal.subjectDirectoryAttributes b ↔
        ¬ Cddl.Starts Reading.Short.subjectDirectoryAttributes b ∧
          ¬ Cddl.Starts Reading.Wide.subjectDirectoryAttributes b) :=
  ⟨⟨fun _ _ => ExtKeyUsage.decode_run_ok_iff, DistributionPointName.accepts,
    DistributionPointName.accepts_one, DistributionPointName.accepts_fullName,
    CertificatePolicies.accepts, PolicyMappings.accepts, SubjectDirectoryAttributes.accepts⟩,
    fun b => ⟨ExtKeyUsage.conforms_literal_iff b,
      conforms_literal_iff DistributionPointName.accepts Reading.counted_distributionPoints
        Reading.Short.distributionPoints_sub Reading.Wide.distributionPoints_sub b,
      conforms_literal_iff DistributionPointName.accepts_one
        Reading.counted_distributionPointName Reading.Short.distributionPointName_sub
        Reading.Wide.distributionPointName_sub b,
      DistributionPointName.fullName_conforms_iff b,
      conforms_literal_iff CertificatePolicies.accepts Reading.counted_certificatePolicies
        Reading.Short.certificatePolicies_sub Reading.Wide.certificatePolicies_sub b,
      conforms_literal_iff PolicyMappings.accepts Reading.counted_policyMappings
        Reading.Short.policyMappings_sub Reading.Wide.policyMappings_sub b,
      conforms_literal_iff SubjectDirectoryAttributes.accepts
        Reading.counted_subjectDirectoryAttributes Reading.Short.subjectDirectoryAttributes_sub
        Reading.Wide.subjectDirectoryAttributes_sub b⟩⟩

end

open scoped Reference in
/-- No purposes, one mapping, and no mappings. -/
theorem extensions_accept_grammar_sample :
    (∃ c ∈ Reading.crate.extKeyUsage, [0x80] = c ++ []) ∧
      (∃ c ∈ Reading.crate.policyMappings, [0x82, 0x01, 0x02] = c ++ []) ∧
      ¬ Conforms PolicyMappings.decode Reading.literal.policyMappings [0x80] := by
  refine ⟨?_, ?_, fun h => ?_⟩
  · exact (extensions_accept_grammar.1.1 [0x80] []).mp ⟨⟨⟨[]⟩, rfl⟩,
      not_indefiniteArray (t := .array) rfl (by decide)⟩
  · exact (extensions_accept_grammar.1.2.2.2.2.2.1 [0x82, 0x01, 0x02] []).mp
      ⟨⟨[(.int 1, .int 2)]⟩, rfl⟩
  · obtain ⟨hshort, -⟩ := (extensions_accept_grammar.2 [0x80]).2.2.2.2.2.1.mp h
    have hempty : [0x80] ∈ Reading.Short.empty :=
      Cddl.mem_head_mul.mpr ⟨[0x80], [], Head.short (by decide), rfl, rfl⟩
    exact hshort ⟨[0x80], hempty, [], rfl⟩

/-- An array of no items has none of the groups that a grammar asks for. -/
theorem empty_not_mem_arrayOf {least k : Nat} {L : Language UInt8} (h : 0 < least * k) :
    [0x80] ∉ Cddl.arrayOf least k L :=
  Cddl.not_mem_arrayOf (h := [0x80]) (d := []) (Head.short (m := 4) (n := 0) (by decide)) h

open scoped Reference in
/-- `[]` is taken where the grammars ask for elements, and one purpose has two forms. -/
theorem minimumCounts_unchecked :
    ¬ Accepts ExtKeyUsage.decode Reading.literal.extKeyUsage ∧
    ¬ Accepts DistributionPointName.decodeFullName Reading.literal.fullName ∧
    ¬ Accepts CertificatePolicies.decode Reading.literal.certificatePolicies ∧
    ¬ Accepts PolicyMappings.decode Reading.literal.policyMappings ∧
    ¬ Accepts SubjectDirectoryAttributes.decode Reading.literal.subjectDirectoryAttributes ∧
    ExtKeyUsage.decode.run [0x81, 0x01] = ExtKeyUsage.decode.run [0x01] := by
  have hkeys : [0x80] ∉ Reading.literal.extKeyUsage := by
    intro h
    rcases (Language.mem_add ..).mp h with h | h
    · exact empty_not_mem_arrayOf (by decide) h
    · exact (typed_intOrOid _).not_mem (t := .array) rfl (fun ht => ht.1 rfl) h
  have htext : [0x80] ∉ Reading.literal.fullName := by
    intro h
    rcases (Language.mem_add ..).mp h with h | h
    · exact empty_not_mem_arrayOf (by decide) h
    · exact Cddl.Typed.text.not_mem (t := .array) rfl (by decide) h
  exact ⟨fun h => hkeys (h.mem (a := ⟨[]⟩) rfl), fun h => htext (h.mem (a := []) rfl),
    fun h => empty_not_mem_arrayOf (by decide) (h.mem (a := ⟨[]⟩) rfl),
    fun h => empty_not_mem_arrayOf (by decide) (h.mem (a := ⟨[]⟩) rfl),
    fun h => empty_not_mem_arrayOf (by decide) (h.mem (a := ⟨[]⟩) rfl), rfl⟩

end C509
