import OnePass.Token

/-! # Grammars with actions

A rule mixes terminals, nonterminals and actions. Actions take no part in derivations: they stand
where code is generated while a program is parsed.
-/
namespace OnePass

inductive Nonterminal where
  | program | statement | elseClause | statementList | separatedList
  | printExpression | booleanExpression | expression | addition | term | multiplication
  | factor | signedTerm
  deriving DecidableEq, Repr, Inhabited

namespace Nonterminal

def all : List Nonterminal :=
  [program, statement, elseClause, statementList, separatedList, printExpression,
    booleanExpression, expression, addition, term, multiplication, factor, signedTerm]

theorem mem_all (n : Nonterminal) : n ∈ all := by cases n <;> decide

def describe : Nonterminal → String
  | program => "program"
  | statement => "statement"
  | elseClause => "else clause"
  | statementList => "statement list"
  | separatedList => "separated list"
  | printExpression => "print expression"
  | booleanExpression => "boolean expression"
  | expression => "expression"
  | addition => "addition"
  | term => "term"
  | multiplication => "multiplication"
  | factor => "factor"
  | signedTerm => "signed term"

end Nonterminal

/-- The points of a rule at which code is generated. -/
inductive Action where
  | prologue | epilogue | declare | store | compute | sign
  | integerFormat | stringFormat | callPrint
  | openLabels | closeLabels | placeBegin | placeEnd | jumpBegin | jumpEnd
  | clearRegisters | pushOperator
  deriving DecidableEq, Repr, Inhabited

namespace Action

def all : List Action :=
  [prologue, epilogue, declare, store, compute, sign, integerFormat, stringFormat, callPrint,
    openLabels, closeLabels, placeBegin, placeEnd, jumpBegin, jumpEnd, clearRegisters, pushOperator]

def describe : Action → String
  | prologue => "PROLOGUE"
  | epilogue => "EPILOGUE"
  | declare => "DECLARE"
  | store => "STORE"
  | compute => "COMPUTE"
  | sign => "SIGN"
  | integerFormat => "PRINT_IFMT"
  | stringFormat => "PRINT_SFMT"
  | callPrint => "PRINT_PRINTF"
  | openLabels => "GEN_LABELS"
  | closeLabels => "POP_LABELS"
  | placeBegin => "BEGIN_LABEL"
  | placeEnd => "END_LABEL"
  | jumpBegin => "GOTO_BEGIN"
  | jumpEnd => "GOTO_END"
  | clearRegisters => "CLEAR_REGS"
  | pushOperator => "PUSH_OP"

end Action

inductive GrammarSymbol where
  | terminal (t : Terminal)
  | nonterminal (n : Nonterminal)
  | action (a : Action)
  deriving DecidableEq, Repr

namespace GrammarSymbol

instance : Coe Terminal GrammarSymbol := ⟨terminal⟩
instance : Coe Nonterminal GrammarSymbol := ⟨nonterminal⟩
instance : Coe Action GrammarSymbol := ⟨action⟩

def isAction : GrammarSymbol → Bool
  | action _ => true
  | _ => false

def describe : GrammarSymbol → String
  | terminal t => t.describe
  | nonterminal n => "<" ++ n.describe ++ ">"
  | action a => a.describe

end GrammarSymbol

structure Rule where
  lhs : Nonterminal
  rhs : List GrammarSymbol
  deriving DecidableEq, Repr

namespace Rule

/-- What the rule derives: its right-hand side without the actions. -/
def derivation (r : Rule) : List GrammarSymbol :=
  r.rhs.filter fun s => !s.isAction

def isEmpty (r : Rule) : Bool :=
  r.rhs.isEmpty

def describe (r : Rule) : String :=
  let body := if r.isEmpty then "ε" else String.intercalate " " (r.rhs.map GrammarSymbol.describe)
  "<" ++ r.lhs.describe ++ "> -> " ++ body

end Rule

structure Grammar where
  start : Nonterminal
  rules : List Rule
  deriving DecidableEq, Repr

end OnePass
