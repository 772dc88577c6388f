import OnePass.Grammar.Sets

/-! # Predictive parse tables

A terminal in FIRST of an alternative selects that alternative. A terminal in FOLLOW of a
nonterminal selects its alternative that can vanish, unless some alternative already begins with
that terminal; this preference attaches an `else` to the nearest `if`. Two alternatives with an
equal claim on a cell are a conflict.
-/
namespace OnePass

namespace ParseTable

structure Entry where
  terminal : Terminal
  index : Nat
  rule : Rule
  deriving DecidableEq, Repr

namespace Entry

def nonterminal (e : Entry) : Nonterminal := e.rule.lhs

def fills (e : Entry) (n : Nonterminal) (t : Terminal) : Bool :=
  e.nonterminal = n && e.terminal = t

end Entry

/-- Two entries that claim one cell, the one placed earlier first. -/
structure Conflict where
  first : Entry
  second : Entry
  deriving DecidableEq, Repr

namespace Conflict

def nonterminal (c : Conflict) : Nonterminal := c.second.nonterminal

def terminal (c : Conflict) : Terminal := c.second.terminal

def message (c : Conflict) : String :=
  "conflict at (" ++ c.nonterminal.describe ++ ", " ++ c.terminal.describe ++ ") between `" ++
    c.first.rule.describe ++ "` and `" ++ c.second.rule.describe ++ "`"

end Conflict

end ParseTable

/-- A rule for each nonterminal and lookahead. A missing entry is a syntax error. -/
structure ParseTable where
  entries : List ParseTable.Entry := []
  deriving DecidableEq, Repr

namespace ParseTable

def entry? (table : ParseTable) (n : Nonterminal) (t : Terminal) : Option Entry :=
  table.entries.find? fun e => e.fills n t

def rule? (table : ParseTable) (n : Nonterminal) (t : Terminal) : Option Rule :=
  (table.entry? n t).map Entry.rule

def expected (table : ParseTable) (n : Nonterminal) : List Terminal :=
  Terminal.all.filter fun t => (table.entry? n t).isSome

def isEmpty (table : ParseTable) : Bool :=
  table.entries.isEmpty

/-- Adds the claims in turn and stops at the first whose cell is taken. -/
def place (table : ParseTable) : List Entry → Except Conflict ParseTable
  | [] => .ok table
  | claim :: rest =>
    match table.entry? claim.nonterminal claim.terminal with
    | some earlier => .error ⟨earlier, claim⟩
    | none => place ⟨claim :: table.entries⟩ rest

def firstClaims (g : Grammar) (s : Grammar.Sets) : List Entry :=
  g.rules.zipIdx.flatMap fun (r, i) => (s.firstOf r.rhs).map fun t => ⟨t, i, r⟩

/-- The entries claimed by what follows alternatives that can vanish, on the cells that `taken`
leaves free. -/
def followClaims (g : Grammar) (s : Grammar.Sets) (taken : ParseTable) : List Entry :=
  (g.rules.zipIdx.filter fun (r, _) => s.isNullable r.rhs).flatMap fun (r, i) =>
    ((s.followOf r.lhs).filter fun t => (taken.entry? r.lhs t).isNone).map fun t => ⟨t, i, r⟩

def build (g : Grammar) : Except Conflict ParseTable := do
  let sets := g.sets
  let firsts ← place {} (firstClaims g sets)
  place firsts (followClaims g sets firsts)

end ParseTable

end OnePass
