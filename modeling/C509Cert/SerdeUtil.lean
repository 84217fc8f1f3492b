/-
The helpers of the JSON mirror (`serde_util.rs`).

Each helper is a pair of functions, or two such pairs where the value may be missing, and
fields name the functions one by one.  Every pair inverts, under the laws of the crates it
calls.
-/
import C509Cert.Serde.Mirror
import C509Cert.TextCrates

namespace C509

open Cbor Serde

namespace SerdeUtil

/-! ### Optional texts -/

/-- `serialize_opt_str` -/
def serializeOptStr {T : Type} (toStr : T → Option String) : Option T → Option Json
  | some v => (toStr v).map .str
  | none => some .null

/-- `deserialize_opt_str` -/
def deserializeOptStr {T : Type} (parse : String → Option T) : Json → Option (Option T)
  | .null => some none
  | .str s => (parse s).map some
  | _ => none

theorem inverts_opt_str {T : Type} {toStr : T → Option String} {parse : String → Option T}
    (h : ∀ {v s}, toStr v = some s → parse s = some v) :
    (Mirror.mk (serializeOptStr toStr) (deserializeOptStr parse)).Inverts := by
  intro o j hj
  cases o with
  | none =>
      cases hj
      rfl
  | some v =>
      obtain ⟨s, hs, rfl⟩ := Option.map_eq_some_iff.mp hj
      show (parse s).map some = some (some v)
      rw [h hs, Option.map_some]

/-! ### Texts -/

/-- `display_str` -/
def displayStr {T : Type} (display : T → String) (fromStr : String → Option T) : Mirror T :=
  .text (fun v => some (display v)) fromStr

theorem inverts_displayStr {T : Type} {display : T → String} {fromStr : String → Option T}
    (h : ∀ v, fromStr (display v) = some v) : (displayStr display fromStr).Inverts := by
  refine Mirror.inverts_text fun {v s} hs => ?_
  cases hs
  exact h v

/-- `Serialize` and `Deserialize` for `IpAddr`, by its `Display` and `FromStr` -/
def ipAddr : Mirror IpAddr := displayStr IpAddr.display IpAddr.fromStr

theorem inverts_ipAddr : ipAddr.Inverts := inverts_displayStr IpAddr.fromStr_display

variable [TextCrates]

/-- `display_str`, of a MAC address -/
def macAddr : Mirror MacAddr := displayStr TextCrates.macDisplay MacCrate.parse

/-- `display_str`, of a network -/
def ipNet : Mirror IpNet := displayStr TextCrates.netDisplay TextCrates.netFromStr

/-- `oid_str` -/
def oidStr : Mirror ObjectIdentifier :=
  .text (fun o => some (TextCrates.oidString o)) TextCrates.oidTryFrom

namespace hexBytes

def serialize (b : Bytes) : Option Json := some (.str (TextCrates.hexEncode b))

def serializeOpt : Option Bytes → Option Json :=
  serializeOptStr fun b => some (TextCrates.hexEncode b)

def deserialize : Json → Option Bytes
  | .str s => TextCrates.hexDecode s
  | _ => none

def deserializeOpt : Json → Option (Option Bytes) := deserializeOptStr TextCrates.hexDecode

end hexBytes

/-- `with = "serde_util::hex_bytes"` -/
def hexBytes : Mirror Bytes := ⟨hexBytes.serialize, hexBytes.deserialize⟩

namespace biguintHex

def parse (s : String) : Option BigUint := (TextCrates.hexDecode s).map BigUint.fromBytesBe

def serialize (n : BigUint) : Option Json :=
  some (.str (TextCrates.hexEncode (BigUint.toBytesBe n)))

def serializeOpt : Option BigUint → Option Json :=
  serializeOptStr fun n => some (TextCrates.hexEncode (BigUint.toBytesBe n))

def deserialize : Json → Option BigUint
  | .str s => parse s
  | _ => none

def deserializeOpt : Json → Option (Option BigUint) := deserializeOptStr parse

end biguintHex

/-- `with = "serde_util::biguint_hex"` -/
def biguintHex : Mirror BigUint := ⟨biguintHex.serialize, biguintHex.deserialize⟩

namespace rfc3339

/-- The offset from UTC is that of the value. -/
def serialize (offset : UtcOffset) (dt : OffsetDateTime) : Option Json :=
  (TextCrates.formatRfc3339 offset dt).map .str

def serializeOpt (offset : UtcOffset) : Option OffsetDateTime → Option Json :=
  serializeOptStr (TextCrates.formatRfc3339 offset)

def deserialize : Json → Option OffsetDateTime
  | .str s => TextCrates.parseRfc3339 s
  | _ => none

def deserializeOpt : Json → Option (Option OffsetDateTime) :=
  deserializeOptStr TextCrates.parseRfc3339

end rfc3339

/-- `with = "serde_util::rfc3339"` -/
def rfc3339 (offset : UtcOffset) : Mirror OffsetDateTime :=
  ⟨rfc3339.serialize offset, rfc3339.deserialize⟩

/-! ### Every pair inverts -/

variable [LawfulTextCrates]

theorem inverts_macAddr : macAddr.Inverts :=
  inverts_displayStr LawfulTextCrates.parse_macDisplay

theorem inverts_ipNet : ipNet.Inverts := inverts_displayStr LawfulTextCrates.fromStr_netDisplay

theorem inverts_oidStr : oidStr.Inverts := inverts_displayStr LawfulTextCrates.tryFrom_oidString

theorem inverts_hexBytes : hexBytes.Inverts := by
  rintro b _ ⟨⟩
  exact LawfulTextCrates.hexDecode_hexEncode b

theorem inverts_hexBytes_opt :
    (Mirror.mk hexBytes.serializeOpt hexBytes.deserializeOpt).Inverts := by
  refine inverts_opt_str fun {b s} hs => ?_
  cases hs
  exact LawfulTextCrates.hexDecode_hexEncode b

theorem biguintHex.parse_encode (n : BigUint) :
    parse (TextCrates.hexEncode (BigUint.toBytesBe n)) = some n := by
  rw [parse, LawfulTextCrates.hexDecode_hexEncode, Option.map_some, BigUint.fromBytesBe_toBytesBe]

theorem inverts_biguintHex : biguintHex.Inverts := by
  rintro n _ ⟨⟩
  exact biguintHex.parse_encode n

theorem inverts_biguintHex_opt :
    (Mirror.mk biguintHex.serializeOpt biguintHex.deserializeOpt).Inverts := by
  refine inverts_opt_str fun {n s} hs => ?_
  cases hs
  exact biguintHex.parse_encode n

theorem inverts_rfc3339 (offset : UtcOffset) : (rfc3339 offset).Inverts := by
  intro dt j hj
  obtain ⟨s, hs, rfl⟩ := Option.map_eq_some_iff.mp hj
  exact LawfulTextCrates.parse_formatRfc3339 hs

theorem inverts_rfc3339_opt (offset : UtcOffset) :
    (Mirror.mk (rfc3339.serializeOpt offset) rfc3339.deserializeOpt).Inverts :=
  inverts_opt_str LawfulTextCrates.parse_formatRfc3339

end SerdeUtil

end C509
