import OnePass.Lexer
import OnePass.Trace
import OnePass.Workspace

/-! # Sessions

A session owns everything that changes while a program is compiled. No syntax tree is built: values
wait on the operand stack, operators on the operator stack and open constructs on the label stack
until the action that uses them is reached.
-/
namespace OnePass

variable {distance : String → String → Nat} [NameDistance distance]

structure Operand where
  symbol : SymbolId
  position : Position
  deriving DecidableEq, Repr

/-- The state of a compilation. Stacks have their top first. -/
structure Session where
  lexer : Lexer
  /-- The next token; until one has been read, the end of an empty input. -/
  lookahead : Lexeme := .atEnd {}
  control : List GrammarSymbol := []
  operands : List Operand := []
  operators : List Operator := []
  workspace : Workspace := {}
  events : Array TraceEvent := #[]
  deriving DecidableEq, Repr

/-- A computation on a session that may stop with a diagnostic. The session survives the failure. -/
abbrev Compiling := EStateM Diagnostic Session

namespace Session

def ofInput (input : Input) : Session :=
  { lexer := .ofInput input }

def record (s : Session) (e : TraceEvent) : Session :=
  { s with events := s.events.push e }

/-- Notes a lexeme that was read: a name is registered at its first sight. -/
def noteLexeme (s : Session) (l : Lexeme) : Session :=
  let noted :=
    if l.kind = .identifier then
      { s with workspace.symbols := (s.workspace.symbols.reference l).2 }
    else s
  noted.record (.ofLexeme l)

/-- The position of the token matched most recently, or of the next one before any was. -/
def position (s : Session) : Position :=
  s.workspace.emitter.position.getD s.lookahead.position

def isDrained (s : Session) : Bool :=
  s.operands.isEmpty && s.operators.isEmpty && s.workspace.emitter.labels.isEmpty

end Session

namespace Compiling

def log (e : TraceEvent) : Compiling Unit :=
  modify fun s => s.record e

def broken {α : Type} (reason : String) : Compiling α :=
  throw (.internal reason)

/-! ## Tokens -/

def readLexeme : Compiling Lexeme := fun s =>
  match Lexer.next s.lexer with
  | .ok l lexer => .ok l ({ s with lexer }.noteLexeme l)
  | .error d lexer => .error d { s with lexer }

/-- Reads the next lookahead. The end of the input is never passed. -/
def advance : Compiling Unit := do
  if (← get).lookahead.kind ≠ .endOfInput then
    let l ← readLexeme
    modify fun s => { s with lookahead := l }

/-! ## Operands, operators and labels -/

def pushOperand (o : Operand) : Compiling Unit :=
  modify fun s => { s with operands := o :: s.operands }

def popOperand : Compiling Operand := do
  match (← get).operands with
  | o :: rest =>
    modify fun s => { s with operands := rest }
    return o
  | [] => broken "operand stack is empty"

def pushOperator (op : Operator) : Compiling Unit :=
  modify fun s => { s with operators := op :: s.operators }

def popOperator : Compiling Operator := do
  match (← get).operators with
  | op :: rest =>
    modify fun s => { s with operators := rest }
    return op
  | [] => broken "operator stack is empty"

def openLabel : Compiling Unit :=
  modify fun s => { s with workspace.emitter := s.workspace.emitter.openLabel.2 }

def closeLabel : Compiling Unit := do
  match (← get).workspace.emitter.currentLabel? with
  | some _ => modify fun s => { s with workspace.emitter := s.workspace.emitter.closeLabel.2 }
  | none => broken "label stack is empty"

def currentLabel : Compiling Nat := do
  match (← get).workspace.emitter.currentLabel? with
  | some n => return n
  | none => broken "label stack is empty"

/-! ## Symbols and registers -/

def withSymbols (operation : SymbolTable → SymbolId × SymbolTable) : Compiling SymbolId :=
  modifyGet fun s =>
    let (id, symbols) := operation s.workspace.symbols
    (id, { s with workspace.symbols := symbols })

def temporary : Compiling Operand := do
  let id ← withSymbols SymbolTable.anonymous
  return ⟨id, (← get).position⟩

def acquire (o : Operand) : Compiling Register := fun s =>
  match s.workspace.choose o.symbol o.position with
  | .error d => .error d s
  | .ok choice =>
    let acquired := { s with workspace := s.workspace.commit o.symbol choice }
    match choice with
    | .held r => .ok r acquired
    | .fresh r _ => .ok r (acquired.record (.registerBound r o.symbol))

def consume (o : Operand) : Compiling Unit := do
  log (.registerReleased o.symbol)
  modify fun s => { s with workspace := s.workspace.consume o.symbol }

def clearRegisters : Compiling Unit := do
  log (.registersCleared (← get).workspace.registers.occupied)
  modify fun s => { s with workspace := s.workspace.releaseAll }

/-! ## Lines -/

def emit (segment : Segment) (line : Line) : Compiling Unit :=
  modify fun s => { s with workspace.emitter := s.workspace.emitter.emit segment line }

def instruction (i : Instruction) : Compiling Unit :=
  emit .text (.instruction i)

def label (l : CodeLabel) : Compiling Unit :=
  emit .text (.label l)

end Compiling

end OnePass
