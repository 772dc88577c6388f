/-! # Edit distance

How far apart two names are is not for the compiler to say: it is given a distance and asks nothing
of it. The one that is meant is the least number of insertions, deletions and substitutions of single
characters that turns one text into another. Its computation keeps one row: the distances from every
suffix of the first text, longest first, to the part of the second text seen so far.
-/
namespace OnePass

/-- Marks the distance that names are compared by, which every definition that reports a misspelt
name is about. -/
class NameDistance (distance : outParam (String → String → Nat)) : Type where

namespace Text

def emptyRow : List Char → List Nat
  | [] => [0]
  | _ :: xs =>
    let shorter := emptyRow xs
    (shorter.headD 0 + 1) :: shorter

/-- The row for `y :: ys`, given the row for `ys`. -/
def nextRow (y : Char) : List Char → List Nat → List Nat
  | [], row => [row.headD 0 + 1]
  | _ :: _, [] => []
  | x :: xs, here :: below =>
    let shorter := nextRow y xs below
    let delete := shorter.headD 0 + 1
    let insert := here + 1
    let keep := below.headD 0 + (if x = y then 0 else 1)
    min delete (min insert keep) :: shorter

def distanceRow (xs ys : List Char) : List Nat :=
  ys.foldr (fun y row => nextRow y xs row) (emptyRow xs)

def editDistance (a b : String) : Nat :=
  (distanceRow a.toList b.toList).headD 0

instance : NameDistance editDistance where

end Text

end OnePass
