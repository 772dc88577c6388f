/-! # Ranges of code points

A character property is a list of disjoint ranges in ascending order. Looking a code point up
stops at the first range that does not lie wholly below it.
-/
namespace OnePass.Text

abbrev CodeRange := Nat × Nat

/-- Whether the code point lies in one of the ranges, which are ascending and disjoint. -/
def inRanges : List CodeRange → Nat → Bool
  | [], _ => false
  | (low, high) :: rest, n => if n ≤ high then low ≤ n else inRanges rest n

end OnePass.Text
