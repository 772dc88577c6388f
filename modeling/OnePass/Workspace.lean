import OnePass.Diagnostic
import OnePass.Emitter
import OnePass.Symbols

/-! # Values in registers

A symbol is loaded when a register is first acquired for it. The binding is recorded twice, in the
bank and in the symbol, and both change together.
-/
namespace OnePass

variable {distance : String → String → Nat} [NameDistance distance]

structure Workspace where
  symbols : SymbolTable := {}
  registers : RegisterBank SymbolId := {}
  emitter : Emitter := {}
  deriving DecidableEq, Repr

namespace Workspace

def undefined (w : Workspace) (id : SymbolId) (position : Position) : Diagnostic :=
  let name := (w.symbols.symbol id).name?.getD "<temporary>"
  .located (.undefinedVariable name (w.symbols.suggest name)) position

def bind (w : Workspace) (id : SymbolId) (r : Register) : Workspace :=
  { w with symbols := w.symbols.setRegister id (some r), registers := w.registers.bind r id }

def instruction (w : Workspace) (i : Instruction) : Workspace :=
  { w with emitter := w.emitter.instruction i }

/-- How the value of a symbol gets into a register. -/
inductive Load where
  /-- An intermediate value is computed in its register. -/
  | computed
  | number (digits : String)
  | constant (literal : String)
  | slot (number : Nat)
  deriving DecidableEq, Repr

/-- The load of a symbol. A variable without a slot has none. -/
def loadOf (w : Workspace) (id : SymbolId) (position : Position) : Except Diagnostic Load :=
  let symbol := w.symbols.symbol id
  match symbol.lexeme with
  | none => .ok .computed
  | some lexeme =>
    match lexeme.kind with
    | .number => .ok (.number lexeme.text)
    | .stringConst => .ok (.constant lexeme.text)
    | _ =>
      match symbol.slot? with
      | some slot => .ok (.slot slot)
      | none => .error (w.undefined id position)

def load (w : Workspace) (r : Register) : Load → Workspace
  | .computed => w
  | .number digits => w.instruction (.loadNumber r digits)
  | .constant literal =>
    let (label, emitter) := w.emitter.intern literal
    { w with emitter }.instruction (.loadAddress r label)
  | .slot number => w.instruction (.loadVariable r number)

/-- The register that a symbol will have: the one it has, or a free one with a load. -/
inductive Acquisition where
  | held (r : Register)
  | fresh (r : Register) (load : Load)
  deriving DecidableEq, Repr

def Acquisition.register : Acquisition → Register
  | held r => r
  | fresh r _ => r

/-- Chooses the register of the symbol, the lowest free one if it has none. All that can fail is
decided here, before anything changes. -/
def choose (w : Workspace) (id : SymbolId) (position : Position) :
    Except Diagnostic Acquisition :=
  match (w.symbols.symbol id).register with
  | some r => .ok (.held r)
  | none =>
    match w.registers.firstFree? with
    | none => .error (.located (.registersExhausted registerCount) position)
    | some r => (w.loadOf id position).map (.fresh r)

def commit (w : Workspace) (id : SymbolId) : Acquisition → Workspace
  | .held _ => w
  | .fresh r load => (w.load r load).bind id r

def acquire (w : Workspace) (id : SymbolId) (position : Position) :
    Except Diagnostic (Register × Workspace) :=
  (w.choose id position).map fun choice => (choice.register, w.commit id choice)

def release (w : Workspace) (id : SymbolId) : Workspace :=
  { w with symbols := w.symbols.setRegister id none, registers := w.registers.release id }

def releaseAll (w : Workspace) : Workspace :=
  { w with
    symbols := w.registers.held.foldl (fun table id => table.setRegister id none) w.symbols
    registers := {} }

/-- Frees the register and, unless it belongs to a variable, the symbol itself. -/
def consume (w : Workspace) (id : SymbolId) : Workspace :=
  let released := w.release id
  { released with symbols := released.symbols.discard id }

end Workspace

end OnePass
