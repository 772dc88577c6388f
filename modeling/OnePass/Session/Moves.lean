import OnePass.Grammar.Language
import OnePass.Session.Actions

/-! # Compiling in one pass

The control stack holds terminals, nonterminals and actions. A terminal on top is matched against
the lookahead, a nonterminal is replaced by the rule that the parse table selects, and an action
generates code.
-/
namespace OnePass

variable {distance : String → String → Nat} [NameDistance distance]

namespace Compiling

def shift (l : Lexeme) : Compiling Unit := do
  match l.kind with
  | .identifier =>
    let id ← withSymbols (·.reference l)
    pushOperand ⟨id, l.position⟩
  | .number =>
    let id ← withSymbols (·.literal l)
    pushOperand ⟨id, l.position⟩
  | .stringConst =>
    modify fun s => { s with workspace.emitter := (s.workspace.emitter.intern l.text).2 }
    let id ← withSymbols (·.literal l)
    pushOperand ⟨id, l.position⟩
  | .additiveOp | .multiplicativeOp | .relationalOp | .assignOp =>
    match Operator.ofText? l.text with
    | some op => pushOperator op
    | none => broken "operator token with unknown text"
  | _ => pure ()

def matchTerminal (expected : Terminal) : Compiling Unit := do
  let l := (← get).lookahead
  if l.kind ≠ expected then
    throw (.located (.unexpectedToken expected l.kind l.text) l.position)
  modify fun s => { s with workspace.emitter := s.workspace.emitter.moveTo l.position }
  log (.terminalMatched expected l.text)
  shift l
  advance

def expand (n : Nonterminal) : Compiling Unit := do
  let l := (← get).lookahead
  match languageTable.rule? n l.kind with
  | some rule =>
    log (.ruleExpanded rule)
    modify fun s => { s with control := rule.rhs ++ s.control }
  | none =>
    throw (.located (.noRule n l.kind l.text (languageTable.expected n)) l.position)

def step : GrammarSymbol → Compiling Unit
  | .terminal t => matchTerminal t
  | .nonterminal n => expand n
  | .action a => do
    log (.actionTaken a)
    perform a

def move : Compiling Unit := do
  match (← get).control with
  | [] => pure ()
  | symbol :: rest =>
    modify fun s => { s with control := rest }
    step symbol

def run : Nat → Compiling Unit
  | 0 => do
    unless (← get).control.isEmpty do
      broken "step budget exhausted"
  | fuel + 1 => do
    unless (← get).control.isEmpty do
      move
      run fuel

/-- How many moves a program needs at most when that many characters are left behind the first
token. Between one token and the next the parser makes no more moves than rules have put symbols on
the stack, and a token pays for fewer than 32 of them. -/
def moveBudget (pending : Nat) : Nat :=
  32 * (pending + 1) + 8

def initialControl : List GrammarSymbol :=
  [Action.prologue, language.start, Terminal.endOfInput, Action.epilogue]

def start : Compiling Unit := do
  let l ← readLexeme
  modify fun s => { s with lookahead := l, control := initialControl }

def logFinished : Compiling Unit := do
  let w := (← get).workspace
  log (.compilationFinished w.symbols.declared w.symbols.size w.emitter.labelCount
    w.emitter.strings.size)

def program : Compiling Unit := do
  start
  run (moveBudget (← get).lexer.upcoming.length)
  logFinished

end Compiling

end OnePass
