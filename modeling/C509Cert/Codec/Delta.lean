/-
Lists written as differences.

A list of numbers is written as the distance of each from the one before, the first from a
starting point, and read as running sums.  The sums give the differences back, whatever the
starting point is, and a list may be cut anywhere as long as the number before the cut is
carried over it.
-/
import Mathlib

namespace Delta

variable {G : Type} [AddCommGroup G]

/-- The running sums of a list, from `s` on. -/
def sums : G → List G → List G
  | _, [] => []
  | s, x :: l => (s + x) :: sums (s + x) l

/-- Each number's distance from the one before, the first from `s`. -/
def differences : G → List G → List G
  | _, [] => []
  | s, x :: l => (x - s) :: differences x l

@[simp] theorem sums_length (s : G) (l : List G) : (sums s l).length = l.length := by
  induction l generalizing s with
  | nil => rfl
  | cons x l ih => simp [sums, ih]

theorem sums_append (s : G) (l l' : List G) :
    sums s (l ++ l') = sums s l ++ sums (s + l.sum) l' := by
  induction l generalizing s with
  | nil => simp [sums]
  | cons x l ih => simp [sums, ih, add_assoc]

/-- The sums give the differences back. -/
theorem differences_sums (s : G) (l : List G) : differences s (sums s l) = l := by
  induction l generalizing s with
  | nil => rfl
  | cons x l ih => simp [sums, differences, ih]

end Delta
