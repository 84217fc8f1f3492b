/-
Texts of IP addresses (`std::net`).

`Display` writes an IPv4 address as four decimal numbers, and an IPv6 address as eight
hexadecimal groups with the first longest run of zeros, of two or more, left out; an IPv4
address inside an IPv6 one is written as such.  `FromStr` is a parser with one step back: it
tries an IPv4 address first, and where it expects a group it tries an IPv4 address before
the group.

An address is the list of its octets.
-/
import Mathlib.Data.List.Basic
import Mathlib.Tactic.IntervalCases

namespace Net

/-! ### Numbers -/

/-- `char::to_digit` -/
def toDigit (radix : Nat) (c : Char) : Option Nat :=
  let d :=
    if '0' ≤ c ∧ c ≤ '9' then some (c.toNat - '0'.toNat)
    else if 'a' ≤ c ∧ c ≤ 'z' then some (c.toNat - 'a'.toNat + 10)
    else if 'A' ≤ c ∧ c ≤ 'Z' then some (c.toNat - 'A'.toNat + 10)
    else none
  d.filter (· < radix)

/-- The digits at the front of a text, and the rest. -/
def readDigits (radix : Nat) : List Char → List Nat × List Char
  | [] => ([], [])
  | c :: cs =>
      match toDigit radix c with
      | none => ([], c :: cs)
      | some d => (d :: (readDigits radix cs).1, (readDigits radix cs).2)

/-- The number that digits spell. -/
def ofDigits (radix : Nat) (ds : List Nat) : Nat := ds.foldl (fun n d => n * radix + d) 0

/-- `Parser::read_number`, of a type with `bound` values -/
def readNumber (radix maxDigits : Nat) (allowZeroPrefix : Bool) (bound : Nat) (cs : List Char) :
    Option (Nat × List Char) :=
  let (ds, rest) := readDigits radix cs
  if ds = [] ∨ maxDigits < ds.length then none
  else if allowZeroPrefix = false ∧ ds.head? = some 0 ∧ 1 < ds.length then none
  else if ofDigits radix ds < bound then some (ofDigits radix ds, rest)
  else none

/-- No digit follows a number. -/
def Stops (radix : Nat) (t : List Char) : Prop := ∀ c u, t = c :: u → toDigit radix c = none

theorem readDigits_stops {radix : Nat} {t : List Char} (ht : Stops radix t) :
    readDigits radix t = ([], t) := by
  cases t with
  | nil => rfl
  | cons c u => simp only [readDigits, ht c u rfl]

theorem readDigits_append {radix : Nat} {t : List Char} (ht : Stops radix t) :
    ∀ {w : List Char} {ds : List Nat}, w.map (toDigit radix) = ds.map some →
      readDigits radix (w ++ t) = (ds, t) := by
  intro w
  induction w with
  | nil =>
      intro ds h
      obtain rfl : ds = [] := List.map_eq_nil_iff.mp h.symm
      exact readDigits_stops ht
  | cons c w ih =>
      intro ds h
      cases ds with
      | nil => cases h
      | cons d ds =>
          rw [List.map_cons, List.map_cons, List.cons.injEq] at h
          rw [List.cons_append, readDigits, h.1, ih h.2]

theorem toDigit_digitChar {radix d : Nat} (hradix : radix ≤ 16) (hd : d < radix) :
    toDigit radix d.digitChar = some d := by
  have hvalue : ∀ d, d < 16 → toDigit 16 d.digitChar = some d := by decide
  have h := hvalue d (by omega)
  unfold toDigit at h ⊢
  obtain ⟨hsome, -⟩ := Option.filter_eq_some_iff.mp h
  exact Option.filter_eq_some_iff.mpr ⟨hsome, decide_eq_true hd⟩

/-- What a number is written as spells it, without a leading zero. -/
theorem toDigits_spells (radix : Nat) (hlo : 1 < radix) (hhi : radix ≤ 16) (n : Nat) :
    ∃ ds, (Nat.toDigits radix n).map (toDigit radix) = ds.map some ∧
      ofDigits radix ds = n ∧ (ds.head? = some 0 → ds.length = 1) := by
  induction n using Nat.base_induction radix hlo with
  | single m hm =>
      refine ⟨[m], ?_, by simp [ofDigits], fun _ => rfl⟩
      rw [Nat.toDigits_of_lt_base hm]
      simp [toDigit_digitChar hhi hm]
  | digit m k hk hm ih =>
      obtain ⟨ds, hmap, hvalue, hhead⟩ := ih
      refine ⟨ds ++ [k], ?_, ?_, fun h => ?_⟩
      · rw [← Nat.toDigits_append_toDigits hlo hm hk, List.map_append, hmap,
          Nat.toDigits_of_lt_base hk]
        simp [toDigit_digitChar hhi hk]
      · rw [ofDigits, List.foldl_append, ← ofDigits, hvalue]
        simp [Nat.mul_comm]
      · -- the digits before the last would be a zero alone
        cases ds with
        | nil =>
            rw [ofDigits, List.foldl_nil] at hvalue
            omega
        | cons d ds =>
            have hlen := hhead h
            obtain rfl : d = 0 := Option.some.inj h
            obtain rfl : ds = [] := by simpa using hlen
            rw [ofDigits, List.foldl_cons, List.foldl_nil] at hvalue
            omega

/-- **A number written in digits is read back.** -/
theorem readNumber_toDigits (radix maxDigits : Nat) {bound n : Nat} (hlo : 1 < radix)
    (hhi : radix ≤ 16) (allowZeroPrefix : Bool) (hn : n < bound) (hmax : 0 < maxDigits)
    (hdigits : n < radix ^ maxDigits) {t : List Char} (ht : Stops radix t) :
    readNumber radix maxDigits allowZeroPrefix bound (Nat.toDigits radix n ++ t) =
      some (n, t) := by
  obtain ⟨ds, hmap, hvalue, hhead⟩ := toDigits_spells radix hlo hhi n
  have hlen : ds.length = (Nat.toDigits radix n).length := by
    have := congrArg List.length hmap
    simpa using this.symm
  have hle := (Nat.length_toDigits_le_iff hlo hmax).mpr hdigits
  have hpos : 0 < (Nat.toDigits radix n).length := Nat.length_toDigits_pos
  have hne : ds ≠ [] := by
    rintro rfl
    simp only [List.length_nil] at hlen
    omega
  unfold readNumber
  rw [readDigits_append ht hmap]
  simp only
  rw [if_neg (by simp only [hne, false_or]; omega),
    if_neg (by rintro ⟨-, hzero, hlt⟩; have := hhead hzero; omega), hvalue, if_pos hn]

/-! ### IPv4 -/

/-- `Parser::read_given_char` -/
def readChar (c : Char) : List Char → Option (List Char)
  | [] => none
  | x :: cs => if x = c then some cs else none

/-- What `Parser::read_separator` reads before the group with number `i`. -/
def readSeparator (sep : Char) (i : Nat) (cs : List Char) : Option (List Char) :=
  if i = 0 then some cs else readChar sep cs

/-- `n` decimal numbers, the first of them with number `i`. -/
def readDecimals : Nat → Nat → List Char → Option (List UInt8 × List Char)
  | 0, _, cs => some ([], cs)
  | n + 1, i, cs => do
      let cs ← readSeparator '.' i cs
      let (g, cs) ← readNumber 10 3 false 256 cs
      let (gs, cs) ← readDecimals n (i + 1) cs
      return (UInt8.ofNat g :: gs, cs)

/-- `Parser::read_ipv4_addr` -/
def readIpv4 : List Char → Option (List UInt8 × List Char) := readDecimals 4 0

/-- Words with a separator between them, those after the word with number `i`. -/
def separated (sep : Char) (ws : List (List Char)) : List Char := ws.flatMap fun w => sep :: w

/-- Words with a separator between them. -/
def joined (sep : Char) : List (List Char) → List Char
  | [] => []
  | w :: ws => w ++ separated sep ws

/-- `Display for Ipv4Addr` -/
def displayIpv4 (o : List UInt8) : List Char := joined '.' (o.map fun x => Nat.toDigits 10 x.toNat)

theorem stops_separated {radix : Nat} {sep : Char} (hsep : toDigit radix sep = none)
    {ws : List (List Char)} {t : List Char} (ht : Stops radix t) :
    Stops radix (separated sep ws ++ t) := by
  cases ws with
  | nil => exact ht
  | cons w ws =>
      rintro c u h
      obtain ⟨rfl, -⟩ := List.cons.inj h
      exact hsep

theorem readDecimals_separated {t : List Char} (ht : Stops 10 t) (o : List UInt8) :
    ∀ i, 0 < i →
      readDecimals o.length i (separated '.' (o.map fun x => Nat.toDigits 10 x.toNat) ++ t) =
        some (o, t) := by
  induction o with
  | nil => intro i _; rfl
  | cons x o ih =>
      intro i hi
      have hx := x.toNat_lt
      have hstop : Stops 10 (separated '.' (o.map fun x => Nat.toDigits 10 x.toNat) ++ t) :=
        stops_separated (by decide) ht
      have hnumber := readNumber_toDigits 10 3 (by omega) (by omega)
        false (show x.toNat < 256 by omega) (by omega) (by omega) hstop
      simp only [List.length_cons, List.map_cons, separated, List.flatMap_cons, List.cons_append,
        List.append_assoc, readDecimals, readSeparator, if_neg (show i ≠ 0 by omega), readChar,
        if_true, Option.bind_eq_bind, Option.bind_some] at hnumber ⊢
      rw [hnumber, Option.bind_some]
      have hrest := ih (i + 1) (by omega)
      rw [separated] at hrest
      simp only [hrest, Option.bind_some, UInt8.ofNat_toNat]
      rfl

/-- **An IPv4 address is read back.** -/
theorem readIpv4_display {o : List UInt8} (ho : o.length = 4) {t : List Char} (ht : Stops 10 t) :
    readIpv4 (displayIpv4 o ++ t) = some (o, t) := by
  obtain ⟨x, o, rfl⟩ := List.exists_cons_of_length_pos (show 0 < o.length by omega)
  have hx := x.toNat_lt
  have hlen : o.length = 3 := by simpa using ho
  have hstop : Stops 10 (separated '.' (o.map fun x => Nat.toDigits 10 x.toNat) ++ t) :=
    stops_separated (by decide) ht
  have hnumber := readNumber_toDigits 10 3 (by omega) (by omega)
    false (show x.toNat < 256 by omega) (by omega) (by omega) hstop
  have hrest := readDecimals_separated ht o 1 (by omega)
  rw [hlen] at hrest
  rw [readIpv4, displayIpv4, List.map_cons, joined, List.append_assoc, readDecimals, readSeparator,
    if_pos rfl]
  simp only [Option.bind_eq_bind, Option.bind_some, hnumber, hrest, UInt8.ofNat_toNat]
  rfl

/-- Where the first number is not followed by a dot, there is no IPv4 address. -/
theorem readIpv4_eq_none {cs : List Char} (h : (readDigits 10 cs).2.head? ≠ some '.') :
    readIpv4 cs = none := by
  rw [readIpv4, readDecimals, readSeparator, if_pos rfl]
  cases hnumber : readNumber 10 3 false 256 cs with
  | none => simp [hnumber]
  | some v =>
      obtain ⟨g, rest⟩ := v
      have hrest : rest = (readDigits 10 cs).2 := by
        unfold readNumber at hnumber
        simp only at hnumber
        split_ifs at hnumber
        cases hnumber
        rfl
      have hsep : readSeparator '.' (0 + 1) rest = none := by
        rw [readSeparator, if_neg (by omega), hrest]
        cases hcs : (readDigits 10 cs).2 with
        | nil => rfl
        | cons c u =>
            rw [hcs] at h
            exact if_neg fun hc => h (by rw [hc]; rfl)
      simp [hnumber, readDecimals, hsep]

/-! ### IPv6, reading -/

/-- The eight groups of sixteen bits of an IPv6 address. -/
def segments : List UInt8 → List Nat
  | a :: b :: o => (a.toNat * 256 + b.toNat) :: segments o
  | _ => []

/-- The octets of groups. -/
def octets (gs : List Nat) : List UInt8 :=
  gs.flatMap fun g => [UInt8.ofNat (g / 256), UInt8.ofNat (g % 256)]

/-- `read_groups` of `Parser::read_ipv6_addr`, with `left` groups to go before the one with
number `i`: the groups read, and whether the last two are an IPv4 address. -/
def readGroups : Nat → Nat → List Char → (List Nat × Bool) × List Char
  | 0, _, cs => (([], false), cs)
  | left + 1, i, cs =>
      match (if 0 < left then (readSeparator ':' i cs).bind readIpv4 else none) with
      | some (v4, rest) => ((segments v4, true), rest)
      | none =>
          match (readSeparator ':' i cs).bind (readNumber 16 4 true 65536) with
          | some (g, rest) =>
              let ((gs, embedded), rest) := readGroups left (i + 1) rest
              ((g :: gs, embedded), rest)
          | none => (([], false), cs)

/-- `Parser::read_ipv6_addr` -/
def readIpv6 (cs : List Char) : Option (List UInt8 × List Char) :=
  let ((head, embedded), rest) := readGroups 8 0 cs
  if head.length = 8 then some (octets head, rest)
  else if embedded then none
  else do
    let rest ← readChar ':' rest
    let rest ← readChar ':' rest
    let ((tail, _), rest) := readGroups (8 - (head.length + 1)) 0 rest
    return (octets (head ++ List.replicate (8 - head.length - tail.length) 0 ++ tail), rest)

/-- `FromStr for IpAddr` -/
def parse (s : String) : Option (List UInt8) :=
  let address := match readIpv4 s.toList with
    | some v => some v
    | none => readIpv6 s.toList
  match address with
  | some (o, []) => some o
  | _ => none

/-! ### IPv6, writing -/

/-- A run of zeros. -/
structure Span where
  start : Nat
  len : Nat

/-- One step over the group with number `i`: the run it may belong to, and the longest. -/
def Span.step (s : Span × Span) (i g : Nat) : Span × Span :=
  if g = 0 then
    let current : Span := ⟨if s.1.len = 0 then i else s.1.start, s.1.len + 1⟩
    (current, if s.2.len < current.len then current else s.2)
  else (⟨0, 0⟩, s.2)

/-- All steps, from the group with number `i` on. -/
def Span.steps : Span × Span → Nat → List Nat → Span × Span
  | s, _, [] => s
  | s, i, g :: gs => Span.steps (Span.step s i g) (i + 1) gs

/-- The first longest run of zeros. -/
def longestZeros (gs : List Nat) : Span := (Span.steps (⟨0, 0⟩, ⟨0, 0⟩) 0 gs).2

/-- `fmt_subslice` -/
def displayGroups (gs : List Nat) : List Char := joined ':' (gs.map (Nat.toDigits 16))

/-- The twelve octets before an IPv4 address inside an IPv6 one. -/
def mappedPrefix : List UInt8 := [0, 0, 0, 0, 0, 0, 0, 0, 0, 0, 0xff, 0xff]

/-- `Display for Ipv6Addr` -/
def displayIpv6 (o : List UInt8) : List Char :=
  if o.take 12 = mappedPrefix then "::ffff:".toList ++ displayIpv4 (o.drop 12)
  else
    let gs := segments o
    let zeros := longestZeros gs
    if 1 < zeros.len then
      displayGroups (gs.take zeros.start) ++ [':', ':'] ++
        displayGroups (gs.drop (zeros.start + zeros.len))
    else displayGroups gs

/-- `Display for IpAddr` -/
def display (o : List UInt8) : String :=
  String.ofList (if o.length = 4 then displayIpv4 o else displayIpv6 o)

/-! ### The run of zeros -/

/-- The groups of `pre` from `start` to `start + len` are zeros. -/
def Span.IsZero (s : Span) (pre : List Nat) : Prop :=
  s.start + s.len ≤ pre.length ∧ ∀ k, s.start ≤ k → k < s.start + s.len → pre[k]? = some 0

theorem Span.IsZero.append {s : Span} {pre : List Nat} (h : s.IsZero pre) (g : Nat) :
    s.IsZero (pre ++ [g]) := by
  refine ⟨by rw [List.length_append]; exact Nat.le_add_right_of_le h.1, fun k hk hk' => ?_⟩
  rw [List.getElem?_append_left (by have := h.1; omega)]
  exact h.2 k hk hk'

/-- What both runs are, after the groups of `pre`. -/
def Span.Ok (s : Span × Span) (pre : List Nat) : Prop :=
  s.1.IsZero pre ∧ (s.1.len ≠ 0 → s.1.start + s.1.len = pre.length) ∧ s.2.IsZero pre

theorem Span.ok_step {s : Span × Span} {pre : List Nat} (h : Span.Ok s pre) (g : Nat) :
    Span.Ok (Span.step s pre.length g) (pre ++ [g]) := by
  obtain ⟨hcurrent, hend, hlongest⟩ := h
  unfold Span.step
  split
  · rename_i hg
    subst hg
    have hnew : Span.IsZero ⟨if s.1.len = 0 then pre.length else s.1.start, s.1.len + 1⟩
        (pre ++ [0]) := by
      have hstart : (if s.1.len = 0 then pre.length else s.1.start) + s.1.len = pre.length := by
        split
        · omega
        · exact hend ‹_›
      refine ⟨by simp only [List.length_append, List.length_singleton]; omega, ?_⟩
      intro k hk hk'
      simp only at hk hk'
      by_cases hlast : k = pre.length
      · rw [hlast, List.getElem?_append_right (Nat.le_refl _)]
        simp
      · have hlen : s.1.len ≠ 0 := by
          intro h0
          rw [if_pos h0] at hk
          omega
        rw [if_neg hlen] at hk hk' hstart
        rw [List.getElem?_append_left (by omega)]
        exact hcurrent.2 k hk (by omega)
    refine ⟨hnew, fun _ => ?_, ?_⟩
    · simp only [List.length_append, List.length_singleton]
      split
      · omega
      · have := hend ‹_›
        omega
    · simp only
      split
      · exact hnew
      · exact hlongest.append 0
  · refine ⟨⟨by simp, fun k _ hk => ?_⟩, fun h => absurd rfl h, hlongest.append g⟩
    simp at hk

theorem Span.ok_steps (gs : List Nat) : ∀ {s : Span × Span} {pre : List Nat}, Span.Ok s pre →
    Span.Ok (Span.steps s pre.length gs) (pre ++ gs) := by
  induction gs with
  | nil =>
      intro s pre h
      rw [List.append_nil]
      exact h
  | cons g gs ih =>
      intro s pre h
      have hstep := ih (Span.ok_step h g)
      rw [List.length_append, List.length_singleton, List.append_assoc] at hstep
      exact hstep

/-- **The groups are those before the run, its zeros, and those after it.** -/
theorem longestZeros_split (gs : List Nat) :
    (longestZeros gs).start + (longestZeros gs).len ≤ gs.length ∧
      gs.take (longestZeros gs).start ++ List.replicate (longestZeros gs).len 0 ++
        gs.drop ((longestZeros gs).start + (longestZeros gs).len) = gs := by
  have hstart : Span.Ok (⟨0, 0⟩, ⟨0, 0⟩) [] := by
    refine ⟨⟨by simp, ?_⟩, fun h => absurd rfl h, ⟨by simp, ?_⟩⟩ <;>
    · intro k _ hk
      simp at hk
  obtain ⟨-, -, hle, hzero⟩ := Span.ok_steps gs hstart
  rw [List.nil_append] at hle hzero
  change (longestZeros gs).start + (longestZeros gs).len ≤ gs.length at hle
  refine ⟨hle, ?_⟩
  have hrun : (gs.drop (longestZeros gs).start).take (longestZeros gs).len =
      List.replicate (longestZeros gs).len 0 := by
    rw [List.eq_replicate_iff]
    refine ⟨by rw [List.length_take, List.length_drop]; omega, fun g hg => ?_⟩
    obtain ⟨k, hk, rfl⟩ := List.getElem_of_mem hg
    have hk' : k < (longestZeros gs).len := by
      rw [List.length_take] at hk
      omega
    have hz := hzero ((longestZeros gs).start + k) (Nat.le_add_right ..)
      (by show _ < (longestZeros gs).start + (longestZeros gs).len; omega)
    rw [List.getElem_take, List.getElem_drop]
    rwa [List.getElem?_eq_getElem (by omega), Option.some.injEq] at hz
  rw [← hrun, List.append_assoc, ← List.drop_drop, List.take_append_drop, List.take_append_drop]

/-! ### IPv6, read back -/

theorem octets_segments {o : List UInt8} {n : Nat} (ho : o.length = 2 * n) :
    octets (segments o) = o ∧ (segments o).length = n ∧ ∀ g ∈ segments o, g < 65536 := by
  induction n generalizing o with
  | zero =>
      obtain rfl : o = [] := List.length_eq_zero_iff.mp ho
      simp [segments, octets]
  | succ n ih =>
      match o, ho with
      | a :: b :: o, ho =>
          have hlen : o.length = 2 * n := by
            simp only [List.length_cons] at ho
            omega
          obtain ⟨hoctets, hsegments, hlt⟩ := ih hlen
          have ha := a.toNat_lt
          have hb := b.toNat_lt
          refine ⟨?_, by rw [segments, List.length_cons, hsegments], ?_⟩
          · rw [segments, octets, List.flatMap_cons, ← octets, hoctets]
            have hdiv : (a.toNat * 256 + b.toNat) / 256 = a.toNat := by omega
            have hmod : (a.toNat * 256 + b.toNat) % 256 = b.toNat := by omega
            rw [hdiv, hmod, UInt8.ofNat_toNat, UInt8.ofNat_toNat]
            rfl
          · intro g hg
            rw [segments] at hg
            rcases List.mem_cons.mp hg with rfl | hg
            · omega
            · exact hlt g hg

/-- Where groups end: at the end of the text, or at two colons. -/
def GroupsEnd (t : List Char) : Prop := t = [] ∨ ∃ u, t = ':' :: ':' :: u

/-- More groups, or their end: a colon or nothing. -/
theorem GroupsEnd.colon_of_separated {t : List Char} (ht : GroupsEnd t) (ws : List (List Char)) :
    ∀ c u, separated ':' ws ++ t = c :: u → c = ':' := by
  intro c u h
  cases ws with
  | nil =>
      rcases ht with rfl | ⟨v, rfl⟩
      · cases h
      · exact (List.cons.inj h).1.symm
  | cons w ws => exact (List.cons.inj h).1.symm

/-- Hexadecimal digits, and then a colon or nothing: that is no IPv4 address. -/
theorem readIpv4_hex {w t : List Char} (hw : '.' ∉ w) (ht : ∀ c u, t = c :: u → c = ':') :
    readIpv4 (w ++ t) = none := by
  apply readIpv4_eq_none
  induction w with
  | nil =>
      cases t with
      | nil => simp [readDigits]
      | cons c u =>
          obtain rfl := ht c u rfl
          have hcolon : toDigit 10 ':' = none := by decide
          simp [readDigits, hcolon]
  | cons c w ih =>
      rw [List.cons_append, readDigits]
      split
      · have hc : c ≠ '.' := fun h => hw (by rw [h]; exact List.mem_cons_self ..)
        simpa using hc
      · exact ih fun h => hw (List.mem_cons_of_mem c h)

theorem not_mem_toDigits {c : Char} (hc : toDigit 16 c = none) (g : Nat) :
    c ∉ Nat.toDigits 16 g := by
  obtain ⟨ds, hmap, -, -⟩ := toDigits_spells 16 (by omega) (by omega) g
  intro h
  have hmem : toDigit 16 c ∈ (Nat.toDigits 16 g).map (toDigit 16) := List.mem_map_of_mem h
  rw [hmap] at hmem
  obtain ⟨d, -, hd⟩ := List.mem_map.mp hmem
  rw [hc] at hd
  cases hd

theorem dot_not_mem_toDigits (g : Nat) : '.' ∉ Nat.toDigits 16 g := not_mem_toDigits (by decide) g

/-- A group is not where groups end. -/
theorem readGroups_end {t : List Char} (ht : GroupsEnd t) (left i : Nat) :
    readGroups left i t = (([], false), t) := by
  cases left with
  | zero => rfl
  | succ left =>
      have hcolon : toDigit 16 ':' = none := by decide
      have hcolon' : toDigit 10 ':' = none := by decide
      have hfail : ∀ u, readIpv4 (':' :: u) = none ∧
          readNumber 16 4 true 65536 (':' :: u) = none := by
        intro u
        refine ⟨readIpv4_eq_none ?_, ?_⟩
        · simp [readDigits, hcolon']
        · simp [readNumber, readDigits, hcolon]
      rcases ht with rfl | ⟨u, rfl⟩
      · by_cases hi : i = 0
        · have hv4 : readIpv4 [] = none := readIpv4_eq_none (by simp [readDigits])
          simp [readGroups, readSeparator, hi, hv4, readDigits, readNumber]
        · simp [readGroups, readSeparator, hi, readChar]
      · by_cases hi : i = 0
        · simp [readGroups, readSeparator, hi, hfail]
        · simp [readGroups, readSeparator, hi, readChar, hfail]

/-- One group is read where one was written, and the groups after it from there. -/
theorem readGroups_group {i g : Nat} {cs t : List Char} (left : Nat)
    (hcs : readSeparator ':' i cs = some (Nat.toDigits 16 g ++ t)) (hg : g < 65536)
    (ht : ∀ c u, t = c :: u → c = ':') :
    readGroups (left + 1) i cs =
      ((g :: (readGroups left (i + 1) t).1.1, (readGroups left (i + 1) t).1.2),
        (readGroups left (i + 1) t).2) := by
  have hstop : Stops 16 t := by
    rintro c u h
    rw [ht c u h]
    decide
  have hnumber := readNumber_toDigits 16 4 (by omega) (by omega) true hg
    (by omega) (by omega) hstop
  have hv4 := readIpv4_hex (dot_not_mem_toDigits g) ht
  rw [readGroups, hcs, Option.bind_some, hv4, ite_self, Option.bind_some, hnumber]

theorem readGroups_separated {t : List Char} (ht : GroupsEnd t) :
    ∀ (gs : List Nat) (left i : Nat), (∀ g ∈ gs, g < 65536) → gs.length ≤ left → 0 < i →
      readGroups left i (separated ':' (gs.map (Nat.toDigits 16)) ++ t) = ((gs, false), t) := by
  intro gs
  induction gs with
  | nil => intro left i _ _ _; exact readGroups_end ht left i
  | cons g gs ih =>
      intro left i hlt hle hi
      rw [List.length_cons] at hle
      obtain ⟨left, rfl⟩ : ∃ l, left = l + 1 := ⟨left - 1, by omega⟩
      have hcolon := ht.colon_of_separated (gs.map (Nat.toDigits 16))
      have hrest := ih left (i + 1) (fun g hg => hlt g (List.mem_cons_of_mem _ hg))
        (by omega) (by omega)
      have hsep : readSeparator ':' i
          (separated ':' ((g :: gs).map (Nat.toDigits 16)) ++ t) =
            some (Nat.toDigits 16 g ++ (separated ':' (gs.map (Nat.toDigits 16)) ++ t)) := by
        rw [readSeparator, if_neg (by omega)]
        simp [separated, readChar]
      rw [readGroups_group left hsep (hlt g (List.mem_cons_self ..)) hcolon, hrest]

/-- **Groups are read back.** -/
theorem readGroups_display {t : List Char} (ht : GroupsEnd t) {gs : List Nat} (left : Nat)
    (hlt : ∀ g ∈ gs, g < 65536) (hle : gs.length ≤ left) :
    readGroups left 0 (displayGroups gs ++ t) = ((gs, false), t) := by
  cases gs with
  | nil => exact readGroups_end ht left 0
  | cons g gs =>
      rw [List.length_cons] at hle
      obtain ⟨left, rfl⟩ : ∃ l, left = l + 1 := ⟨left - 1, by omega⟩
      have hcolon := ht.colon_of_separated (gs.map (Nat.toDigits 16))
      have hrest := readGroups_separated ht gs left (0 + 1)
        (fun g hg => hlt g (List.mem_cons_of_mem _ hg)) (by omega) (by omega)
      have hsep : readSeparator ':' 0 (displayGroups (g :: gs) ++ t) =
          some (Nat.toDigits 16 g ++ (separated ':' (gs.map (Nat.toDigits 16)) ++ t)) := by
        simp [readSeparator, displayGroups, joined]
      rw [readGroups_group left hsep (hlt g (List.mem_cons_self ..)) hcolon, hrest]

theorem readIpv4_groups {t : List Char} (ht : GroupsEnd t) (gs : List Nat) :
    readIpv4 (displayGroups gs ++ t) = none := by
  cases gs with
  | nil => exact readIpv4_hex (w := []) (by simp) (ht.colon_of_separated [])
  | cons g gs =>
      rw [displayGroups, List.map_cons, joined, List.append_assoc]
      exact readIpv4_hex (dot_not_mem_toDigits g) (ht.colon_of_separated _)

/-- Eight groups, none left out. -/
theorem readIpv6_groups {gs : List Nat} (hlt : ∀ g ∈ gs, g < 65536) (hlen : gs.length = 8) :
    readIpv6 (displayGroups gs) = some (octets gs, []) := by
  have hread := readGroups_display (t := []) (Or.inl rfl) _ hlt (Nat.le_of_eq hlen)
  rw [List.append_nil] at hread
  simp [readIpv6, hread, hlen]

/-- Eight groups, of which some zeros are left out. -/
theorem readIpv6_zeros {head tail : List Nat} (hhead : ∀ g ∈ head, g < 65536)
    (htail : ∀ g ∈ tail, g < 65536) (hlen : head.length + tail.length + 2 ≤ 8) :
    readIpv6 (displayGroups head ++ [':', ':'] ++ displayGroups tail) =
      some (octets (head ++ List.replicate (8 - head.length - tail.length) 0 ++ tail), []) := by
  have hread := readGroups_display (t := [':', ':'] ++ displayGroups tail)
    (Or.inr ⟨_, rfl⟩) 8 hhead (by omega)
  have hread' := readGroups_display (t := []) (Or.inl rfl) (7 - head.length) htail
    (by omega)
  rw [List.append_nil] at hread'
  rw [readIpv6, List.append_assoc, hread]
  have hne : head.length ≠ 8 := by omega
  simp [hne, readChar, hread']

/-- An IPv4 address inside. -/
theorem readIpv6_mapped {o : List UInt8} (ho : o.length = 4) :
    readIpv6 ("::ffff:".toList ++ displayIpv4 o) = some (mappedPrefix ++ o, []) := by
  have hstart := readGroups_end (t := "::ffff:".toList ++ displayIpv4 o) (Or.inr ⟨_, rfl⟩) 8 0
  have hv4 := readIpv4_display (t := []) ho (fun _ _ h => by cases h)
  rw [List.append_nil] at hv4
  have hlast : readGroups 6 1 (':' :: displayIpv4 o) = ((segments o, true), []) := by
    simp [readGroups, readSeparator, readChar, hv4]
  have hcs : readSeparator ':' 0 ('f' :: 'f' :: 'f' :: 'f' :: ':' :: displayIpv4 o) =
      some (Nat.toDigits 16 65535 ++ ':' :: displayIpv4 o) := rfl
  have hgroup := readGroups_group (g := 65535) 6 hcs (by omega)
    (fun c u h => (List.cons.inj h).1.symm)
  rw [hlast] at hgroup
  obtain ⟨hoctets, hsegments, -⟩ := octets_segments (o := o) (n := 2) (by omega)
  have htail : octets (List.replicate 5 0 ++ 65535 :: segments o) = mappedPrefix ++ o := by
    rw [octets, List.flatMap_append, List.flatMap_cons, ← octets, ← octets, hoctets]
    rfl
  have hchars : "::ffff:".toList ++ displayIpv4 o =
      ':' :: ':' :: 'f' :: 'f' :: 'f' :: 'f' :: ':' :: displayIpv4 o := rfl
  rw [hchars] at hstart ⊢
  rw [readIpv6, hstart]
  simp [readChar, hgroup, hsegments]
  exact htail

/-- **An IPv6 address is read back.** -/
theorem readIpv6_display {o : List UInt8} (ho : o.length = 16) :
    readIpv6 (displayIpv6 o) = some (o, []) := by
  obtain ⟨hoctets, hlen, hlt⟩ := octets_segments (o := o) (n := 8) (by omega)
  unfold displayIpv6
  by_cases hmapped : o.take 12 = mappedPrefix
  · rw [if_pos hmapped, readIpv6_mapped (by rw [List.length_drop]; omega), ← hmapped,
      List.take_append_drop]
  · rw [if_neg hmapped]
    obtain ⟨hle, hsplit⟩ := longestZeros_split (segments o)
    simp only
    by_cases hzeros : 1 < (longestZeros (segments o)).len
    · rw [if_pos hzeros, readIpv6_zeros (fun g hg => hlt g (List.mem_of_mem_take hg))
        (fun g hg => hlt g (List.mem_of_mem_drop hg))
        (by rw [List.length_take, List.length_drop]; omega)]
      have hcount : 8 - ((segments o).take (longestZeros (segments o)).start).length -
          ((segments o).drop ((longestZeros (segments o)).start +
            (longestZeros (segments o)).len)).length = (longestZeros (segments o)).len := by
        rw [List.length_take, List.length_drop]
        omega
      rw [hcount, hsplit, hoctets]
    · rw [if_neg hzeros, readIpv6_groups hlt hlen, hoctets]

/-! ### Addresses -/

/-- The text of an IPv6 address is not one of an IPv4 address. -/
theorem readIpv4_displayIpv6 (o : List UInt8) : readIpv4 (displayIpv6 o) = none := by
  unfold displayIpv6
  split
  · exact readIpv4_groups (t := "::ffff:".toList ++ _) (Or.inr ⟨_, rfl⟩) []
  · simp only
    split
    · rw [List.append_assoc]
      exact readIpv4_groups (Or.inr ⟨_, rfl⟩) _
    · have h := readIpv4_groups (t := []) (Or.inl rfl) (segments o)
      rwa [List.append_nil] at h

/-- **The text of an address is parsed as the address.** -/
theorem parse_display {o : List UInt8} (ho : o.length = 4 ∨ o.length = 16) :
    parse (display o) = some o := by
  unfold parse display
  rw [String.toList_ofList]
  rcases ho with ho | ho
  · have hread := readIpv4_display (t := []) ho (fun _ _ h => by cases h)
    rw [List.append_nil] at hread
    rw [if_pos ho, hread]
  · rw [if_neg (by omega), readIpv4_displayIpv6, readIpv6_display ho]

example : display [10, 0, 0, 1] = "10.0.0.1" := by decide

theorem mem_joined {sep c : Char} {ws : List (List Char)} (h : c ∈ joined sep ws) :
    c = sep ∨ ∃ w ∈ ws, c ∈ w := by
  cases ws with
  | nil => cases h
  | cons w ws =>
      rcases List.mem_append.mp h with h | h
      · exact Or.inr ⟨w, List.mem_cons_self .., h⟩
      · obtain ⟨w', hw', h⟩ := List.mem_flatMap.mp h
        rcases List.mem_cons.mp h with h | h
        · exact Or.inl h
        · exact Or.inr ⟨w', List.mem_cons_of_mem _ hw', h⟩

/-- The text of an address is made of hexadecimal digits, dots and colons. -/
theorem not_mem_display {c : Char} (hdigit : toDigit 16 c = none) (hdecimal : c.isDigit = false)
    (hdot : c ≠ '.') (hcolon : c ≠ ':') (o : List UInt8) : c ∉ (display o).toList := by
  have hf : c ≠ 'f' := by
    rintro rfl
    exact absurd hdigit (by decide)
  have hv4 : ∀ o, c ∉ displayIpv4 o := by
    intro o h
    rcases mem_joined h with h | ⟨w, hw, h⟩
    · exact hdot h
    · obtain ⟨x, -, rfl⟩ := List.mem_map.mp hw
      rw [Nat.isDigit_of_mem_toDigits (by omega) (by omega) h] at hdecimal
      cases hdecimal
  have hgroups : ∀ gs, c ∉ displayGroups gs := by
    intro gs h
    rcases mem_joined h with h | ⟨w, hw, h⟩
    · exact hcolon h
    · obtain ⟨g, -, rfl⟩ := List.mem_map.mp hw
      exact not_mem_toDigits hdigit g h
  have hchars : c ∉ "::ffff:".toList := by
    show c ∉ [':', ':', 'f', 'f', 'f', 'f', ':']
    simp [hcolon, hf]
  rw [display, String.toList_ofList]
  split
  · exact hv4 o
  · unfold displayIpv6
    split
    · intro h
      rcases List.mem_append.mp h with h | h
      · exact hchars h
      · exact hv4 _ h
    · simp only
      split
      · simp [hgroups, hcolon]
      · exact hgroups _

end Net
