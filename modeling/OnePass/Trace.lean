import OnePass.Assembly.Instruction
import OnePass.Grammar.Basic
import OnePass.Symbols

/-! # Traces

What a compilation did, as a sequence of events. Every event has a message and named values, all of
them texts.
-/
namespace OnePass

inductive TraceEvent where
  | lexemeAccepted (lexeme : Lexeme)
  | inputEnded (position : Position)
  | terminalMatched (terminal : Terminal) (text : String)
  | ruleExpanded (rule : Rule)
  | actionTaken (action : Action)
  | slotDeclared (slot : Nat)
  | registerBound (register : Register) (symbol : SymbolId)
  | registerReleased (symbol : SymbolId)
  | registersCleared (occupied : Nat)
  | compilationFinished (declared symbols labels strings : Nat)
  deriving DecidableEq, Repr

namespace TraceEvent

def stage : TraceEvent → String
  | lexemeAccepted _ | inputEnded _ => "lexing"
  | _ => "parsing"

def level : TraceEvent → String
  | compilationFinished .. => "DEBUG"
  | _ => "TRACE"

def message : TraceEvent → String
  | lexemeAccepted _ => "accept lexeme"
  | inputEnded _ => "end of input"
  | terminalMatched .. => "match"
  | ruleExpanded _ => "expand"
  | actionTaken _ => "action"
  | slotDeclared _ => "declare"
  | registerBound .. => "bind register"
  | registerReleased _ => "release register"
  | registersCleared _ => "release all registers"
  | compilationFinished .. => "compilation finished"

def values : TraceEvent → List (String × String)
  | lexemeAccepted l =>
    [("kind", l.kind.name), ("text", l.text), ("position", l.position.render)]
  | inputEnded p => [("position", p.render)]
  | terminalMatched t text => [("terminal", t.describe), ("text", text)]
  | ruleExpanded r => [("production", r.describe)]
  | actionTaken a => [("action", a.describe)]
  | slotDeclared slot => [("slot", toString slot), ("offset", toString (frameOffset slot))]
  | registerBound r id => [("register", r.render), ("symbol", id.render)]
  | registerReleased id => [("symbol", id.render)]
  | registersCleared n => [("occupied", toString n)]
  | compilationFinished declared symbols labels strings =>
    [("variables", toString declared), ("symbols", toString symbols),
      ("labels", toString labels), ("strings", toString strings)]

def ofLexeme (l : Lexeme) : TraceEvent :=
  if l.kind = .endOfInput then inputEnded l.position else lexemeAccepted l

end TraceEvent

end OnePass
