import OnePass.Assembly.Line

/-! # Targets of a compilation

A target takes the emitted lines in their order. The place of a line within its segment never
changes; its number in the rendered output is known only when all lines are there, because the data
segment comes first.
-/
namespace OnePass

structure Location where
  segment : Segment
  index : Nat
  deriving DecidableEq, Repr

class Target (τ : Type) where
  empty : τ
  /-- Takes one more line and says where it went. -/
  push : τ → Emission → Location × τ
  /-- Called when no line is left. -/
  finish : τ → τ
  /-- The number, from one, of the line at the location in the rendered output. -/
  lineNumber : τ → Location → Nat

def Target.ofEmissions (τ : Type) [Target τ] (emissions : List Emission) : τ :=
  Target.finish (emissions.foldl (fun t e => (Target.push t e).2) Target.empty)

structure Assembly where
  data : Array Line := #[]
  text : Array Line := #[]
  deriving DecidableEq, Repr

namespace Assembly

def segment (a : Assembly) : Segment → Array Line
  | .data => a.data
  | .text => a.text

def add (a : Assembly) : Segment → Line → Assembly
  | .data, line => { a with data := a.data.push line }
  | .text, line => { a with text := a.text.push line }

def lines (a : Assembly) : List String :=
  (a.data.toList ++ a.text.toList).map Line.render

def render (a : Assembly) : String :=
  String.join (a.lines.map (· ++ "\n"))

def lineNumber (a : Assembly) : Location → Nat
  | ⟨.data, index⟩ => index + 1
  | ⟨.text, index⟩ => a.data.size + index + 1

instance : Target Assembly where
  empty := {}
  push a e := (⟨e.segment, (a.segment e.segment).size⟩, a.add e.segment e.line)
  finish a := a
  lineNumber := lineNumber

end Assembly

structure Recording where
  pushed : Array Emission := #[]
  finished : Bool := false
  deriving DecidableEq, Repr

instance : Target Recording where
  empty := {}
  push r e := (⟨e.segment, r.pushed.size⟩, { r with pushed := r.pushed.push e })
  finish r := { r with finished := true }
  lineNumber _ location := location.index + 1

end OnePass
