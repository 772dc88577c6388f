import OnePass.Assembly.SourceMap
import OnePass.Session.Moves

/-! # Compilation

The entry points of the library. A program is compiled in one run, and its lines go into the target
while the run goes on.
-/
namespace OnePass

variable {distance : String → String → Nat} [NameDistance distance]

/-- What happens before the first token of the program is read. -/
structure Preamble where
  /-- Names that count as declared, with the positions of their declarations. -/
  declared : List (String × Position) := []
  /-- How many lexemes are read and dropped. -/
  skipped : Nat := 0
  deriving DecidableEq, Repr

namespace Compiling

/-- Declares a name in advance. A name that is declared already stays as it is. -/
def predeclare (name : String) (position : Position) : Compiling Unit := do
  let id ← withSymbols (·.reference ⟨name, .identifier, position⟩)
  modify fun s =>
    match s.workspace.symbols.declare id position with
    | .ok (_, symbols) => { s with workspace.symbols := symbols }
    | .error _ => s

def skip : Nat → Compiling Unit
  | 0 => pure ()
  | n + 1 => do
    let _ ← readLexeme
    skip n

def prepare (preamble : Preamble) : Compiling Unit := do
  preamble.declared.forM fun (name, position) => predeclare name position
  skip preamble.skipped

end Compiling

section Target

variable {τ : Type} [Target τ]

/-- Gives a target the lines that have been emitted behind the first so many. -/
def Emitter.fill (e : Emitter) (given : Nat) (t : τ) : τ :=
  (e.emitted.extract given).foldl (fun t e => (Target.push t e).2) t

/-- Moves until the control stack is empty, with a target that has taken the first so many lines. It
takes the lines of a move before the next move is made. -/
def Compiling.runInto : Nat → Nat → τ → Compiling τ
  | 0, _, t => do
    unless (← get).control.isEmpty do
      broken "step budget exhausted"
    return t
  | fuel + 1, given, t => do
    if (← get).control.isEmpty then
      return t
    else
      move
      let e := (← get).workspace.emitter
      runInto fuel e.emitted.size (e.fill given t)

def Compiling.programInto (τ : Type) [Target τ] : Compiling τ := do
  start
  let t ← runInto (moveBudget (← get).lexer.upcoming.length) 0 Target.empty
  logFinished
  return Target.finish t

end Target

def outcome (preamble : Preamble) (input : Input) : EStateM.Result Diagnostic Session Unit :=
  (do Compiling.prepare preamble; Compiling.program : Compiling Unit) (Session.ofInput input)

def outcomeInto (τ : Type) [Target τ] (preamble : Preamble) (input : Input) :
    EStateM.Result Diagnostic Session τ :=
  (do Compiling.prepare preamble; Compiling.programInto τ : Compiling τ) (Session.ofInput input)

def compileAfter (τ : Type) [Target τ] (preamble : Preamble) (input : Input) :
    Except Diagnostic τ :=
  match outcomeInto τ preamble input with
  | .ok t _ => .ok t
  | .error d _ => .error d

def compile (τ : Type) [Target τ] (input : Input) : Except Diagnostic τ :=
  compileAfter τ {} input

/-- The events of a compilation, up to its failure if it fails. -/
def trace (preamble : Preamble) (input : Input) : List TraceEvent :=
  match outcome preamble input with
  | .ok _ s | .error _ s => s.events.toList

def compileText (source : String) : Except Diagnostic String :=
  (compile Assembly (.ofText source)).map Assembly.render

end OnePass
