/-
Times as RFC 3339 writes them, at UTC and to the second.

A count of seconds since 1970 is a day and a second of that day, and a day is a date of the
Gregorian calendar.  Dates are counted in years that begin on 1 March: a leap day is then the
last of its year, the days before a year are the sum that `daysBefore` says, and the days
before a month of such a year are a linear function of the month.

Four digits hold the years from 0 to 9999, and only times of those have a text.
-/
import Mathlib.Algebra.Ring.Nat
import Mathlib.Tactic.SplitIfs

namespace Rfc3339

/-! ### Days and dates -/

/-- The days from 1 March of year 0 to that of a year. -/
def daysBefore (year : Int) : Int := 365 * year + year / 4 - year / 100 + year / 400

/-- A day of a year that begins on 1 March. -/
structure YearDay where
  year : Int
  day : Int
  day_nonneg : 0 ≤ day
  day_le : day ≤ 365

/-- The day of a count from 1 March of year 0.  The last century of four, and the last year of
four, is a day longer than the others. -/
def yearDay (days : Int) : YearDay :=
  let inEra := days % 146097
  let century := min 3 (inEra / 36524)
  let inCentury := inEra - 36524 * century
  let inQuad := inCentury % 1461
  let year := min 3 (inQuad / 365)
  { year := 400 * (days / 146097) + 100 * century + 4 * (inCentury / 1461) + year
    day := inQuad - 365 * year
    day_nonneg := by omega
    day_le := by omega }

/-- Cycles of 400, 100 and 4 years have as many days in every era. -/
theorem daysBefore_cycles {era century quad year : Int} (hcentury : 0 ≤ century ∧ century ≤ 3)
    (hquad : 0 ≤ quad ∧ quad ≤ 24) (hyear : 0 ≤ year ∧ year ≤ 3) :
    daysBefore (400 * era + 100 * century + 4 * quad + year) =
      146097 * era + 36524 * century + 1461 * quad + 365 * year := by
  have h4 : (400 * era + 100 * century + 4 * quad + year) / 4 =
      100 * era + 25 * century + quad := by omega
  have h100 : (400 * era + 100 * century + 4 * quad + year) / 100 = 4 * era + century := by omega
  have h400 : (400 * era + 100 * century + 4 * quad + year) / 400 = era := by omega
  rw [daysBefore, h4, h100, h400]
  omega

theorem daysBefore_yearDay (days : Int) :
    daysBefore (yearDay days).year + (yearDay days).day = days := by
  unfold yearDay
  simp only
  rw [daysBefore_cycles (by omega) (by omega) (by omega)]
  omega

/-- A date, with months and days from 1. -/
structure Date where
  year : Int
  month : Int
  day : Int

/-- The date of a day, counted from 1 January 1970. -/
def ofDays (days : Int) : Date :=
  let d := yearDay (days + 719468)
  let month := (5 * d.day + 2) / 153
  { year := if month < 10 then d.year else d.year + 1
    month := if month < 10 then month + 3 else month - 9
    day := d.day - (153 * month + 2) / 5 + 1 }

def toDays (d : Date) : Int :=
  let year := if d.month < 3 then d.year - 1 else d.year
  let month := if d.month < 3 then d.month + 9 else d.month - 3
  daysBefore year + (153 * month + 2) / 5 + d.day - 1 - 719468

/-- **A day is counted from its date.** -/
theorem toDays_ofDays (days : Int) : toDays (ofDays days) = days := by
  have hsum := daysBefore_yearDay (days + 719468)
  have hlo := (yearDay (days + 719468)).day_nonneg
  have hhi := (yearDay (days + 719468)).day_le
  unfold toDays ofDays
  simp only
  generalize yearDay (days + 719468) = d at *
  by_cases hmonth : (5 * d.day + 2) / 153 < 10
  · rw [if_pos hmonth, if_pos hmonth, if_neg (by omega), if_neg (by omega), Int.add_sub_cancel]
    omega
  · rw [if_neg hmonth, if_neg hmonth, if_pos (by omega), if_pos (by omega), Int.add_sub_cancel,
      Int.sub_add_cancel]
    omega

theorem ofDays_bounds (days : Int) : 1 ≤ (ofDays days).month ∧ (ofDays days).month ≤ 12 ∧
    1 ≤ (ofDays days).day ∧ (ofDays days).day ≤ 31 := by
  have hlo := (yearDay (days + 719468)).day_nonneg
  have hhi := (yearDay (days + 719468)).day_le
  unfold ofDays
  simp only
  split_ifs
  · omega
  · omega

/-- The days of the years from 0 to 9999. -/
theorem year_bounds {days : Int} (hlo : -719528 ≤ days) (hhi : days < 2932897) :
    0 ≤ (ofDays days).year ∧ (ofDays days).year < 10000 := by
  have hsum := daysBefore_yearDay (days + 719468)
  have hnonneg := (yearDay (days + 719468)).day_nonneg
  have hle := (yearDay (days + 719468)).day_le
  unfold ofDays
  simp only
  generalize yearDay (days + 719468) = d at *
  have hyear : -1 ≤ d.year ∧ d.year ≤ 9999 := by
    unfold daysBefore at hsum
    omega
  -- the first January and the last December are in the years before and after
  have hfirst : d.year = -1 → 306 ≤ d.day := by
    intro h
    rw [h, show daysBefore (-1) = -366 from rfl] at hsum
    omega
  have hlast : d.year = 9999 → d.day ≤ 305 := by
    intro h
    rw [h, show daysBefore 9999 = 3652059 from rfl] at hsum
    omega
  split_ifs
  · omega
  · omega

/-! ### Digits -/

/-- A number in a fixed number of decimal digits. -/
def digits : Nat → Nat → List Char
  | 0, _ => []
  | k + 1, n => digits k (n / 10) ++ [Nat.digitChar (n % 10)]

/-- The number that digits spell. -/
def value (l : List Char) : Nat := l.foldl (fun n c => 10 * n + (c.toNat - 48)) 0

theorem value_digits {k n : Nat} (hn : n < 10 ^ k) : value (digits k n) = n := by
  have hdigit : ∀ d, d < 10 → (Nat.digitChar d).toNat - 48 = d := by
    intro d hd
    rw [Nat.toNat_digitChar_of_lt_ten hd]
    omega
  induction k generalizing n with
  | zero =>
      obtain rfl : n = 0 := by omega
      rfl
  | succ k ih =>
      have hrest : value (digits k (n / 10)) = n / 10 := ih (by omega)
      unfold value at hrest ⊢
      rw [digits, List.foldl_append, hrest, List.foldl_cons, List.foldl_nil,
        hdigit _ (Nat.mod_lt n (by omega))]
      omega

/-! ### Texts -/

/-- `YYYY-MM-DDTHH:MM:SSZ` -/
def text (seconds : Int) : List Char :=
  let date := ofDays (seconds / 86400)
  let second := (seconds % 86400).toNat
  digits 4 date.year.toNat ++ '-' :: digits 2 date.month.toNat ++ '-' :: digits 2 date.day.toNat ++
    'T' :: digits 2 (second / 3600) ++ ':' :: digits 2 (second / 60 % 60) ++
    ':' :: digits 2 (second % 60) ++ ['Z']

/-- The text of a time, if its year has four digits. -/
def format (seconds : Int) : Option (List Char) :=
  let year := (ofDays (seconds / 86400)).year
  if 0 ≤ year ∧ year < 10000 then some (text seconds) else none

/-- The number in some places of a text. -/
def place (start count : Nat) (s : List Char) : Nat := value ((s.drop start).take count)

/-- The time whose digits stand in the places of a text. -/
def spelled (s : List Char) : Int :=
  toDays { year := place 0 4 s, month := place 5 2 s, day := place 8 2 s } * 86400 +
    (place 11 2 s * 3600 + place 14 2 s * 60 + place 17 2 s : Nat)

/-- The time of a text, if it is one that `format` writes. -/
def parse (s : List Char) : Option Int :=
  if format (spelled s) = some s then some (spelled s) else none

theorem spelled_text {seconds : Int} (hlo : 0 ≤ (ofDays (seconds / 86400)).year)
    (hhi : (ofDays (seconds / 86400)).year < 10000) : spelled (text seconds) = seconds := by
  obtain ⟨hmonth, hmonth', hday, hday'⟩ := ofDays_bounds (seconds / 86400)
  have hyear : place 0 4 (text seconds) = (ofDays (seconds / 86400)).year.toNat :=
    value_digits (k := 4) (by omega)
  have hmonth : place 5 2 (text seconds) = (ofDays (seconds / 86400)).month.toNat :=
    value_digits (k := 2) (by omega)
  have hday : place 8 2 (text seconds) = (ofDays (seconds / 86400)).day.toNat :=
    value_digits (k := 2) (by omega)
  have hhour : place 11 2 (text seconds) = (seconds % 86400).toNat / 3600 :=
    value_digits (k := 2) (by omega)
  have hminute : place 14 2 (text seconds) = (seconds % 86400).toNat / 60 % 60 :=
    value_digits (k := 2) (by omega)
  have hsecond : place 17 2 (text seconds) = (seconds % 86400).toNat % 60 :=
    value_digits (k := 2) (by omega)
  have hdate : (⟨(ofDays (seconds / 86400)).year.toNat, (ofDays (seconds / 86400)).month.toNat,
      (ofDays (seconds / 86400)).day.toNat⟩ : Date) = ofDays (seconds / 86400) := by
    rw [Int.toNat_of_nonneg hlo, Int.toNat_of_nonneg (by omega), Int.toNat_of_nonneg (by omega)]
  rw [spelled, hyear, hmonth, hday, hhour, hminute, hsecond, hdate, toDays_ofDays]
  omega

/-- **A text is read as the time it was written for.** -/
theorem parse_format {seconds : Int} {s : List Char} (h : format seconds = some s) :
    parse s = some seconds := by
  have hspelled : spelled s = seconds := by
    unfold format at h
    simp only at h
    split at h
    · rename_i hyear
      cases h
      exact spelled_text hyear.1 hyear.2
    · cases h
  rw [parse, hspelled, if_pos h]

/-- **Every second of the years from 0 to 9999 has a text.** -/
theorem exists_format {seconds : Int} (hlo : -62167219200 ≤ seconds)
    (hhi : seconds < 253402300800) : ∃ s, format seconds = some s :=
  ⟨text seconds, if_pos (year_bounds (by omega) (by omega))⟩

example : format 1672531200 = some "2023-01-01T00:00:00Z".toList := by decide

end Rfc3339
