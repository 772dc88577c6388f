/-! # Source positions

Lines and columns count from one. A line feed ends its line; every other character, the carriage
return included, takes one column.
-/
namespace OnePass

structure Position where
  line : Nat := 1
  column : Nat := 1
  deriving DecidableEq, Repr, Inhabited

namespace Position

def advance (p : Position) (c : Char) : Position :=
  if c = '\n' then ⟨p.line + 1, 1⟩ else ⟨p.line, p.column + 1⟩

def advanceBy (p : Position) (text : List Char) : Position :=
  text.foldl advance p

/-- Positions are ordered by line and then by column. -/
instance : Ord Position where
  compare p q := (compare p.line q.line).then (compare p.column q.column)

instance : LE Position := leOfOrd

def render (p : Position) : String :=
  toString p.line ++ ":" ++ toString p.column

@[simp] theorem advance_newline (p : Position) : p.advance '\n' = ⟨p.line + 1, 1⟩ := rfl

theorem advance_of_ne {c : Char} (p : Position) (h : c ≠ '\n') :
    p.advance c = ⟨p.line, p.column + 1⟩ := by
  simp [advance, h]

@[simp] theorem advanceBy_nil (p : Position) : p.advanceBy [] = p := rfl

@[simp] theorem advanceBy_cons (p : Position) (c : Char) (cs : List Char) :
    p.advanceBy (c :: cs) = (p.advance c).advanceBy cs := rfl

theorem advanceBy_append (p : Position) (xs ys : List Char) :
    p.advanceBy (xs ++ ys) = (p.advanceBy xs).advanceBy ys := by
  simp [advanceBy, List.foldl_append]

end Position

end OnePass
