/-
`AlgorithmIdentifier` (`algorithm.rs`): an int, an OID, or an OID with parameters, told
apart by the CBOR type alone.
-/
import C509Cert.Common

namespace C509

open Cbor Codec

/-- An algorithm identifier. -/
inductive AlgorithmIdentifier
  | int (n : Int32)
  | oid (algorithm : ObjectIdentifier) (parameters : Option Bytes)
  deriving DecidableEq

namespace AlgorithmIdentifier

variable [Minicbor] [OidCrate]

/-- The form `[ algorithm: ~oid, parameters: bytes ]`. -/
def decodeWithParameters : Dec AlgorithmIdentifier := do
  let len ← definiteArrayLen
  ensure (len = 2) "AlgorithmIdentifier array must have exactly 2 elements"
  let algorithm ← decodeOid
  let parameters ← Decoder.bytes
  return .oid algorithm (some parameters)

def decode : Dec AlgorithmIdentifier := do
  match ← Decoder.datatype with
  | .array | .arrayIndef => decodeWithParameters
  -- `~oid`
  | .bytes => return .oid (← decodeOid) none
  -- `int`
  | _ => return .int (← Decoder.i32)

def encode : AlgorithmIdentifier → Enc
  | .int n => Encoder.i32 n
  | .oid algorithm none => Encoder.bytes (oidBytes algorithm)
  | .oid algorithm (some params) => do
      Encoder.array 2
      Encoder.bytes (oidBytes algorithm)
      Encoder.bytes params

def Valid (D : Demands) : AlgorithmIdentifier → Prop
  | .int _ => True
  | .oid algorithm none => D.oid algorithm
  | .oid algorithm (some params) => D.oid algorithm ∧ params.length < 2 ^ 64

omit [Minicbor] [OidCrate] in
theorem Valid.mono {D E : Demands} (h : D.Meet E) {a : AlgorithmIdentifier} (ha : a.Valid D) :
    a.Valid E := by
  match a, ha with
  | .int _, _ => trivial
  | .oid _ none, ha => exact h.oid ha
  | .oid _ (some _), ha => exact ⟨h.oid ha.1, ha.2⟩

variable [LawfulMinicbor] {X : Bytes → Prop}

theorem reads_decodeWithParameters [LawfulOid] :
    Reads X 1 decodeWithParameters (Valid .decoded) := by
  refine reads_definiteArray fun n => Reads.step (Reads.ensure _) fun _ hn => ?_
  subst hn
  exact Reads.bind reads_decodeOid fun _ hoid => Reads.map reads_bytes fun _ hp => ⟨hoid, hp⟩

theorem reads [LawfulOid] : Reads X 1 decode (Valid .decoded) := by
  refine reads_peek fun t => ?_
  split
  · exact reads_decodeWithParameters
  · exact reads_decodeWithParameters
  · exact Reads.map reads_decodeOid fun _ h => h
  · exact Reads.map reads_i32 fun _ _ => trivial

theorem writes {a : AlgorithmIdentifier} (ha : a.Valid .readBack) : Writes a.encode decode a := by
  match a, ha with
  | .int n, _ =>
      refine writes_peek (starts_i32 n) (t := .u8) rfl fun t ht => ?_
      cases t <;> first | exact Writes.map (writes_i32 n) | cases ht
  | .oid algorithm none, ha => exact writes_peek_eq (starts_oid ha) (Writes.map (writes_oid ha))
  | .oid algorithm (some params), ha =>
      refine writes_peek_eq (starts_array 2).bind ?_
      refine Writes.bind (writes_definiteArray 2) (Writes.step (a := ()) (fun _ => rfl) ?_)
      exact Writes.bind (writes_oid ha.1) (Writes.map (writes_bytes ha.2))

omit [LawfulMinicbor] in
theorem logs_decodeWithParameters {E : Reserve → Prop} : Logs decodeWithParameters E :=
  Logs.bind logs_definiteArrayLen fun _ => Logs.bind (Logs.ensure _ _) fun _ =>
    Logs.bind logs_decodeOid fun _ => Logs.bind (logs_lift _) fun _ => Logs.pure _

omit [LawfulMinicbor] in
theorem logs {E : Reserve → Prop} : Logs decode E := by
  refine Logs.bind (logs_lift _) fun t => ?_
  split
  · exact logs_decodeWithParameters
  · exact logs_decodeWithParameters
  · exact Logs.bind logs_decodeOid fun _ => Logs.pure _
  · exact Logs.bind (logs_lift _) fun _ => Logs.pure _

end AlgorithmIdentifier

end C509
