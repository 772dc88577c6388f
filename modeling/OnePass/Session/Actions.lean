import OnePass.Session.Basic

/-! # Actions

The code of each action. An action takes its operands from the stacks, which the tokens matched
before it have filled. A value occupies a register only from the moment it is used.
-/
namespace OnePass

variable {distance : String → String → Nat} [NameDistance distance]

namespace Compiling

def prologueLines : List (Segment × Line) :=
  [(.data, .directive .globalMain), (.data, .directive .externPrintf),
    (.data, .directive .dataSection),
    (.data, .definition .integerFormat "\"%d\""), (.data, .definition .stringFormat "\"%s\""),
    (.text, .directive .textSection), (.text, .label .main),
    (.text, .instruction .saveFrame), (.text, .instruction .enterFrame)]

def epilogueLines : List (Segment × Line) :=
  [(.text, .instruction .clearResult), (.text, .instruction .leaveFrame),
    (.text, .instruction .returnToCaller)]

def emitAll (lines : List (Segment × Line)) : Compiling Unit :=
  lines.forM fun (segment, line) => emit segment line

def epilogue : Compiling Unit := do
  if (← get).isDrained then emitAll epilogueLines
  else broken "values left on the parser stacks"

def declare : Compiling Unit := do
  let o ← popOperand
  let symbols := (← get).workspace.symbols
  match symbols.declare o.symbol o.position with
  | .error previous =>
    let name := (symbols.symbol o.symbol).name?.getD ""
    throw (.located (.redeclaration name previous) o.position)
  | .ok (slot, symbols) =>
    modify fun s => { s with workspace.symbols := symbols }
    log (.slotDeclared slot)
    instruction .reserveSlot

/-- Stores a value in a variable. The variable is checked before the value is loaded. -/
def store : Compiling Unit := do
  let value ← popOperand
  let target ← popOperand
  if (← popOperator) ≠ .assign then
    broken "store without an assignment"
  let workspace := (← get).workspace
  match (workspace.symbols.symbol target.symbol).slot? with
  | none => throw (workspace.undefined target.symbol target.position)
  | some slot =>
    let r ← acquire value
    instruction (.storeVariable r slot)
    consume value
    consume target

/-- Applies a binary operator. The operands are loaded left before right and free their registers
before the result takes one. A comparison has no result: it branches past the construct's body. -/
def compute : Compiling Unit := do
  let op ← popOperator
  let right ← popOperand
  let left ← popOperand
  let a ← acquire left
  let b ← acquire right
  consume left
  consume right
  match op with
  | .comparison op =>
    let construct ← currentLabel
    instruction (.compare a b)
    instruction (.branchUnless op (.endOf construct))
  | .arithmetic op =>
    let result ← temporary
    let r ← acquire result
    instruction (.arithmetic op r a b)
    pushOperand result
  | .assign => broken "assignment used as a binary operator"

def sign : Compiling Unit := do
  let op ← popOperator
  let operand ← popOperand
  match op with
  | .arithmetic .add => pushOperand operand
  | .arithmetic .subtract =>
    let a ← acquire operand
    consume operand
    let result ← temporary
    let r ← acquire result
    instruction (.negate r a)
    pushOperand result
  | _ => broken "sign applied with a non-additive operator"

def callPrint : Compiling Unit := do
  let value ← popOperand
  let r ← acquire value
  instruction .saveScratch
  instruction (.passArgument r)
  instruction .callPrintf
  instruction .restoreScratch
  consume value

def perform : Action → Compiling Unit
  | .prologue => emitAll prologueLines
  | .epilogue => epilogue
  | .declare => declare
  | .store => store
  | .compute => compute
  | .sign => sign
  | .integerFormat => instruction (.selectFormat .integerFormat)
  | .stringFormat => instruction (.selectFormat .stringFormat)
  | .callPrint => callPrint
  | .openLabels => openLabel
  | .closeLabels => closeLabel
  | .placeBegin => do label (.beginOf (← currentLabel))
  | .placeEnd => do label (.endOf (← currentLabel))
  | .jumpBegin => do instruction (.branch (.beginOf (← currentLabel)))
  | .jumpEnd => do instruction (.branch (.endOf (← currentLabel)))
  | .clearRegisters => clearRegisters
  | .pushOperator => pure ()

end Compiling

end OnePass
