/-
Values of the other crates, as texts.

The JSON mirror writes what has no natural shape in JSON as a text: MAC addresses and
networks by their `Display`, object identifiers dotted, bytes in hex, times by RFC 3339.
Each of these belongs to another crate, and what the mirror relies on is that its reader
inverts its writer on the texts the writer makes.

The instant of an `OffsetDateTime` is what its equality compares; the offset from UTC it is
given at shows in its text alone, so it is an argument of the writer.
-/
import C509Cert.Conversion
import C509Cert.Extensions.Address
import C509Cert.Net.IpText

namespace C509

open Cbor

/-- `time::UtcOffset`, in seconds. -/
abbrev UtcOffset := Int

/-! ### Addresses (`std::net`) -/

/-- `Display for IpAddr` -/
def IpAddr.display (a : IpAddr) : String := Net.display a.octets

/-- `FromStr for IpAddr` -/
def IpAddr.fromStr (s : String) : Option IpAddr :=
  (Net.parse s).bind fun o =>
    if h : o.length = 4 ∨ o.length = 16 then some ⟨o, h⟩ else none

theorem IpAddr.fromStr_display (a : IpAddr) : fromStr a.display = some a := by
  rw [fromStr, display, Net.parse_display a.size, Option.bind_some, dif_pos a.size]

/-! ### Other crates -/

/-- The texts of other crates; `MacCrate` reads those of MAC addresses. -/
class TextCrates extends MacCrate where
  /-- `Display for MacAddr` -/
  macDisplay : MacAddr → String
  /-- `Display for IpNet` -/
  netDisplay : IpNet → String
  /-- `FromStr for IpNet` -/
  netFromStr : String → Option IpNet
  /-- `String::from(&ObjectIdentifier)` -/
  oidString : ObjectIdentifier → String
  /-- `ObjectIdentifier::try_from(&str)` -/
  oidTryFrom : String → Option ObjectIdentifier
  /-- `hex::encode` -/
  hexEncode : Bytes → String
  /-- `hex::decode` -/
  hexDecode : String → Option Bytes
  /-- `OffsetDateTime::format`, with `Rfc3339`, of an instant at an offset from UTC -/
  formatRfc3339 : UtcOffset → OffsetDateTime → Option String
  /-- `OffsetDateTime::parse`, with `Rfc3339` -/
  parseRfc3339 : String → Option OffsetDateTime

/-- Each reader inverts its writer on what the writer makes. -/
class LawfulTextCrates [TextCrates] : Prop where
  parse_macDisplay (m : MacAddr) : MacCrate.parse (TextCrates.macDisplay m) = some m
  fromStr_netDisplay (n : IpNet) : TextCrates.netFromStr (TextCrates.netDisplay n) = some n
  tryFrom_oidString (o : ObjectIdentifier) :
    TextCrates.oidTryFrom (TextCrates.oidString o) = some o
  hexDecode_hexEncode (b : Bytes) : TextCrates.hexDecode (TextCrates.hexEncode b) = some b
  parse_formatRfc3339 {offset : UtcOffset} {t : OffsetDateTime} {s : String}
    (h : TextCrates.formatRfc3339 offset t = some s) : TextCrates.parseRfc3339 s = some t

/-! ### Texts that can be run -/

namespace TextCrates

open Net

/-- Two digits of a byte, each written by `digit`. -/
def hexByte (digit : Nat → Char) (x : UInt8) : List Char :=
  [digit (x.toNat / 16), digit (x.toNat % 16)]

/-- The byte two digits spell. -/
def readHexByte (a b : Char) : Option UInt8 := do
  let hi ← toDigit 16 a
  let lo ← toDigit 16 b
  return UInt8.ofNat (hi * 16 + lo)

/-- Lower-case hex digits. -/
def lower : Nat → Char := Nat.digitChar

/-- Upper-case hex digits. -/
def upper (d : Nat) : Char := d.digitChar.toUpper

theorem readHexByte_hexByte (digit : Nat → Char) (h : ∀ d, d < 16 → toDigit 16 (digit d) = some d)
    (x : UInt8) : readHexByte (digit (x.toNat / 16)) (digit (x.toNat % 16)) = some x := by
  have hx := x.toNat_lt
  have hvalue : x.toNat / 16 * 16 + x.toNat % 16 = x.toNat := by omega
  rw [readHexByte, h _ (by omega), h _ (by omega)]
  simp only [Option.bind_eq_bind, Option.bind_some, hvalue, UInt8.ofNat_toNat]
  rfl

/-- Pairs of hex digits. -/
def readHex : List Char → Option Bytes
  | [] => some []
  | [_] => none
  | a :: b :: cs => do
      let x ← readHexByte a b
      let l ← readHex cs
      return x :: l

theorem readHex_lower (b : Bytes) : readHex (b.flatMap (hexByte lower)) = some b := by
  induction b with
  | nil => rfl
  | cons x b ih =>
      have hx := readHexByte_hexByte lower (by decide) x
      rw [List.flatMap_cons, hexByte, List.cons_append, List.cons_append, List.nil_append, readHex,
        hx, ih]
      rfl

/-- Pairs of hex digits with a separator between them. -/
def readPairs (sep : Char) : List Char → Option Bytes
  | [a, b] => do
      let x ← readHexByte a b
      return [x]
  | a :: b :: c :: cs =>
      if c = sep then do
        let x ← readHexByte a b
        let l ← readPairs sep cs
        return x :: l
      else none
  | _ => none

theorem readPairs_joined (x : UInt8) (b : Bytes) :
    readPairs ':' (joined ':' ((x :: b).map (hexByte upper))) = some (x :: b) := by
  induction b generalizing x with
  | nil =>
      have hx := readHexByte_hexByte upper (by decide) x
      simp only [joined, separated, List.map_cons, List.map_nil, List.flatMap_nil, List.append_nil,
        hexByte, readPairs, hx]
      rfl
  | cons y b ih =>
      have hx := readHexByte_hexByte upper (by decide) x
      have hrest := ih y
      simp only [joined, separated, List.map_cons, List.flatMap_cons, hexByte, List.cons_append,
        List.nil_append] at hrest ⊢
      simp only [readPairs, if_true, hx, hrest]
      rfl

/-- `Display for MacAddr` -/
def macText (m : MacAddr) : String := String.ofList (joined ':' (m.bytes.map (hexByte upper)))

/-- `FromStr for MacAddr`: pairs of digits with dashes or colons between them. -/
def macParse (s : String) : Option MacAddr :=
  let bytes := (readPairs '-' s.toList).or (readPairs ':' s.toList)
  bytes.bind fun b => if h : b.length = 6 ∨ b.length = 8 then some ⟨b, h⟩ else none

theorem macParse_macText (m : MacAddr) : macParse (macText m) = some m := by
  obtain ⟨b, hb⟩ := m
  match b, hb with
  | x :: y :: b, hb =>
      have hdash : readPairs '-' (joined ':' ((x :: y :: b).map (hexByte upper))) = none := rfl
      unfold macParse macText
      simp only [String.toList_ofList, hdash, readPairs_joined, Option.none_or, Option.bind_some,
        dif_pos hb]

/-- A decimal number, alone. -/
def readDecimal (bound : Nat) (w : List Char) : Option Nat :=
  match readNumber 10 w.length true bound w with
  | some (n, []) => some n
  | _ => none

theorem readDecimal_toDigits {bound n : Nat} (hn : n < bound) :
    readDecimal bound (Nat.toDigits 10 n) = some n := by
  have hpos : 0 < (Nat.toDigits 10 n).length := Nat.length_toDigits_pos
  have hdigits := (Nat.length_toDigits_le_iff (by omega) hpos).mp (Nat.le_refl _)
  have hread := readNumber_toDigits 10 _ (by omega) (by omega) true hn hpos hdigits
    (t := []) (fun _ _ h => by cases h)
  rw [List.append_nil] at hread
  rw [readDecimal, hread]

theorem not_mem_toDigits {c : Char} (hc : c.isDigit = false) (n : Nat) :
    c ∉ Nat.toDigits 10 n := by
  intro h
  rw [Nat.isDigit_of_mem_toDigits (by omega) (by omega) h] at hc
  cases hc

/-- `String::from(&ObjectIdentifier)` -/
def oidText (o : ObjectIdentifier) : String :=
  String.ofList (['.'].intercalate (o.arcs.map fun n => Nat.toDigits 10 n.toNat))

/-- `ObjectIdentifier::try_from(&str)` -/
def oidParse (s : String) : Option ObjectIdentifier :=
  if s.toList = [] then some ⟨[]⟩
  else ((s.toList.splitOn '.').mapM (readDecimal (2 ^ 32))).map fun ns => ⟨ns.map UInt32.ofNat⟩

theorem oidParse_oidText (o : ObjectIdentifier) : oidParse (oidText o) = some o := by
  obtain ⟨arcs⟩ := o
  cases arcs with
  | nil => rfl
  | cons a arcs =>
      have hsplit : (['.'].intercalate ((a :: arcs).map fun n => Nat.toDigits 10 n.toNat)).splitOn
          '.' = (a :: arcs).map fun n => Nat.toDigits 10 n.toNat := by
        refine List.splitOn_intercalate '.' (fun w hw => ?_) (by simp)
        obtain ⟨n, -, rfl⟩ := List.mem_map.mp hw
        exact not_mem_toDigits (by decide) _
      have hread : ∀ l : List UInt32, (l.map fun n => Nat.toDigits 10 n.toNat).mapM
          (readDecimal (2 ^ 32)) = some (l.map UInt32.toNat) := by
        intro l
        induction l with
        | nil => rfl
        | cons n l ih =>
            rw [List.map_cons, List.mapM_cons, readDecimal_toDigits n.toNat_lt, ih]
            rfl
      have hne : ['.'].intercalate ((a :: arcs).map fun n => Nat.toDigits 10 n.toNat) ≠ [] := by
        intro h
        rw [h] at hsplit
        have hwords := congrArg List.head? hsplit
        simp [List.splitOn] at hwords
      unfold oidParse oidText
      simp only [String.toList_ofList, if_neg hne, hsplit, hread, Option.map_some, List.map_map]
      congr 2
      conv_rhs => rw [← List.map_id (a :: arcs)]
      exact List.map_congr_left fun n _ => UInt32.ofNat_toNat

/-- `Display for IpNet` -/
def netText (n : IpNet) : String :=
  String.ofList (['/'].intercalate [n.addr.display.toList, Nat.toDigits 10 n.prefixLen.toNat])

/-- `FromStr for IpNet` -/
def netParse (s : String) : Option IpNet :=
  match s.toList.splitOn '/' with
  | [a, p] => do
      let addr ← IpAddr.fromStr (String.ofList a)
      let prefixLen ← readDecimal 256 p
      IpNet.new addr (UInt8.ofNat prefixLen)
  | _ => none

theorem netParse_netText (n : IpNet) : netParse (netText n) = some n := by
  have hsplit : (['/'].intercalate
      [n.addr.display.toList, Nat.toDigits 10 n.prefixLen.toNat]).splitOn '/' =
        [n.addr.display.toList, Nat.toDigits 10 n.prefixLen.toNat] := by
    refine List.splitOn_intercalate '/' (fun w hw => ?_) (by simp)
    rcases List.mem_cons.mp hw with rfl | hw
    · exact not_mem_display (by decide) (by decide) (by decide) (by decide) _
    · rw [List.mem_singleton.mp hw]
      exact not_mem_toDigits (by decide) _
  have hnew : IpNet.new n.addr n.prefixLen = some n := dif_pos n.le
  unfold netParse netText
  simp only [String.toList_ofList, hsplit, String.ofList_toList, IpAddr.fromStr_display,
    readDecimal_toDigits n.prefixLen.toNat_lt, Option.bind_eq_bind, Option.bind_some,
    UInt8.ofNat_toNat, hnew]

/-- The start of 2023, at UTC. -/
def newYear2023 : OffsetDateTime := ⟨1672531200000000000⟩

end TextCrates

namespace Reference

open TextCrates

/-- The texts as they are written, times as far as one instant. -/
@[reducible] def textCrates : TextCrates where
  parse := macParse
  macDisplay := macText
  netDisplay := netText
  netFromStr := netParse
  oidString := oidText
  oidTryFrom := oidParse
  hexEncode b := String.ofList (b.flatMap (hexByte lower))
  hexDecode s := readHex s.toList
  formatRfc3339 offset t :=
    if offset = 0 ∧ t = newYear2023 then some "2023-01-01T00:00:00Z" else none
  parseRfc3339 s := if s = "2023-01-01T00:00:00Z" then some newYear2023 else none

theorem textCrates_lawful : @LawfulTextCrates textCrates := by
  refine @LawfulTextCrates.mk textCrates macParse_macText netParse_netText oidParse_oidText
    (fun b => ?_) (fun {offset t s} h => ?_)
  · show readHex (String.ofList _).toList = some b
    rw [String.toList_ofList, readHex_lower]
  · change (if offset = 0 ∧ t = newYear2023 then some "2023-01-01T00:00:00Z" else none) = some s
      at h
    split at h
    · cases h
      rename_i ht
      rw [ht.2]
      rfl
    · cases h

end Reference

end C509
