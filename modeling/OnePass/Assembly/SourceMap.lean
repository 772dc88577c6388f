import OnePass.Assembly.Target
import OnePass.Text.Lines
import Std.Data.TreeMap

/-! # Source maps

A source map wraps a target and remembers, for each line with a known source position, where it
went. When the target is finished the places become line numbers of the rendered output.
-/
namespace OnePass

structure SourceMap (τ : Type) where
  compiled : τ
  /-- The lines with a position that were taken since the map was last made. -/
  pending : List (Location × Position) := []
  /-- From output line numbers to source positions. -/
  positions : Std.TreeMap Nat Position := {}

namespace SourceMap

variable {τ : Type}

def position? (m : SourceMap τ) (line : Nat) : Option Position :=
  m.positions[line]?

section Target

variable [Target τ]

def push (m : SourceMap τ) (e : Emission) : Location × SourceMap τ :=
  let (location, compiled) := Target.push m.compiled e
  let pending := match e.position with
    | some p => (location, p) :: m.pending
    | none => m.pending
  (location, { m with compiled, pending })

/-- Makes the map from the lines taken since the last time, in place of the earlier map. -/
def finish (m : SourceMap τ) : SourceMap τ where
  compiled := Target.finish m.compiled
  pending := []
  positions := m.pending.foldr
    (fun (location, p) map => map.insert (Target.lineNumber m.compiled location) p) {}

instance : Target (SourceMap τ) where
  empty := { compiled := Target.empty }
  push := push
  finish := finish
  lineNumber m := Target.lineNumber m.compiled

end Target

def annotate (width : Nat) (line : String) : Option Position → String
  | some p => Text.padRight line width ++ "@ " ++ p.render
  | none => line

/-- The rendered program with a comment behind every line whose source position is known. The
comments begin four columns behind the longest line, measured in bytes. -/
def annotated (m : SourceMap Assembly) : String :=
  let lines := Text.lines m.compiled.render
  let width := (lines.map String.utf8ByteSize).foldl max 0 + 4
  String.join (lines.zipIdx.map fun (line, i) => annotate width line (m.position? (i + 1)) ++ "\n")

end SourceMap

end OnePass
