import OnePass.Assembly.Instruction

/-! # Lines of assembly

A line keeps its structure until the program is rendered. Lines that come from outside the compiler
are taken verbatim.
-/
namespace OnePass

inductive Directive where
  | globalMain | externPrintf | dataSection | textSection
  deriving DecidableEq, Repr

def Directive.render : Directive → String
  | globalMain => ".global main"
  | externPrintf => ".extern printf"
  | dataSection => ".data"
  | textSection => ".text"

inductive Line where
  | instruction (i : Instruction)
  | label (l : CodeLabel)
  | directive (d : Directive)
  /-- A string in the program's data, as it is spelt in the source, quotes included. -/
  | definition (label : DataLabel) (literal : String)
  | verbatim (text : String)
  deriving DecidableEq, Repr

def Line.render : Line → String
  | instruction i => "\t" ++ i.render
  | label l => l.render ++ ":"
  | directive d => "\t" ++ d.render
  | definition l literal => l.render ++ ":\t.asciz " ++ literal
  | verbatim text => text

namespace Line

def ofInstructionText (text : String) : Line :=
  verbatim ("\t" ++ text)

def ofLabelName (name : String) : Line :=
  verbatim (name ++ ":")

end Line

inductive Segment where
  | text
  | data
  deriving DecidableEq, Repr

/-- A line as it leaves the compiler: where it belongs, and the position of the source construct
that produced it. -/
structure Emission where
  segment : Segment
  line : Line
  position : Option Position
  deriving DecidableEq, Repr

end OnePass
