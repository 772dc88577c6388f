import OnePass.Assembly.Line

/-! # Emission of code

The emitter is an append-only record of lines together with what the lines depend on: the source
position they are attributed to, the labels of the constructs that are still open, and the pool of
string constants. The pool keeps no labels: a constant is never moved or taken out, so its label is
its place among the constants.
-/
namespace OnePass

/-- The distinct string constants in the order of their first use. The constant at index `i` has the
label number `i + 1`. -/
structure StringPool where
  literals : List String := []
  deriving DecidableEq, Repr

namespace StringPool

def size (pool : StringPool) : Nat := pool.literals.length

def isEmpty (pool : StringPool) : Bool := pool.literals.isEmpty

def label? (pool : StringPool) (literal : String) : Option DataLabel :=
  (pool.literals.idxOf? literal).map fun i => .literal (i + 1)

def intern (pool : StringPool) (literal : String) : DataLabel × StringPool :=
  match pool.label? literal with
  | some label => (label, pool)
  | none => (.literal (pool.size + 1), ⟨pool.literals ++ [literal]⟩)

def entries (pool : StringPool) : List (DataLabel × String) :=
  pool.literals.zipIdx.map fun (literal, i) => (.literal (i + 1), literal)

end StringPool

structure Emitter where
  emitted : Array Emission := #[]
  /-- The position of the token consumed most recently. -/
  position : Option Position := none
  /-- The numbers of the open constructs, innermost first. -/
  labels : List Nat := []
  /-- How many label numbers have been handed out. -/
  labelCount : Nat := 0
  strings : StringPool := {}
  deriving DecidableEq, Repr

namespace Emitter

def moveTo (e : Emitter) (position : Position) : Emitter :=
  { e with position := some position }

def emit (e : Emitter) (segment : Segment) (line : Line) : Emitter :=
  { e with emitted := e.emitted.push ⟨segment, line, e.position⟩ }

def instruction (e : Emitter) (i : Instruction) : Emitter :=
  e.emit .text (.instruction i)

def label (e : Emitter) (l : CodeLabel) : Emitter :=
  e.emit .text (.label l)

def openLabel (e : Emitter) : Nat × Emitter :=
  let number := e.labelCount + 1
  (number, { e with labels := number :: e.labels, labelCount := number })

def closeLabel (e : Emitter) : Option Nat × Emitter :=
  (e.labels.head?, { e with labels := e.labels.tail })

def currentLabel? (e : Emitter) : Option Nat :=
  e.labels.head?

/-- The label of the string constant, which is defined in the data when it is first seen. -/
def intern (e : Emitter) (literal : String) : DataLabel × Emitter :=
  let (label, strings) := e.strings.intern literal
  match e.strings.label? literal with
  | some _ => (label, e)
  | none => (label, { e with strings }.emit .data (.definition label literal))

end Emitter

end OnePass
