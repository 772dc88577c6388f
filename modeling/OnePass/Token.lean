import OnePass.Position

/-! # Tokens

The terminal alphabet of the language, the operators behind four of its terminals, and lexemes:
classified pieces of source text with the position of their first character.
-/
namespace OnePass

inductive Terminal where
  | variableWord | printWord | ifWord | thenWord | elseWord | whileWord | doWord
  | beginWord | endWord
  | identifier | number | stringConst
  | assignOp | additiveOp | multiplicativeOp | relationalOp
  | separator | leftParen | rightParen
  | endOfInput
  deriving DecidableEq, Repr, Inhabited

namespace Terminal

/-- Every terminal, in the order in which sets of terminals are listed. -/
def all : List Terminal :=
  [variableWord, printWord, ifWord, thenWord, elseWord, whileWord, doWord, beginWord, endWord,
    identifier, number, stringConst, assignOp, additiveOp, multiplicativeOp, relationalOp,
    separator, leftParen, rightParen, endOfInput]

theorem mem_all (t : Terminal) : t ∈ all := by cases t <;> decide

def name : Terminal → String
  | variableWord => "Variable"
  | printWord => "Print"
  | ifWord => "If"
  | thenWord => "Then"
  | elseWord => "Else"
  | whileWord => "While"
  | doWord => "Do"
  | beginWord => "Begin"
  | endWord => "End"
  | identifier => "Identifier"
  | number => "Number"
  | stringConst => "StringConst"
  | assignOp => "AssignmentOp"
  | additiveOp => "AdditiveOp"
  | multiplicativeOp => "MultiplicativeOp"
  | relationalOp => "RelationalOp"
  | separator => "StatementSep"
  | leftParen => "LeftParen"
  | rightParen => "RightParen"
  | endOfInput => "EndOfInput"

/-- What messages call the terminal. A terminal with a single spelling is quoted. -/
def describe : Terminal → String
  | variableWord => "'variable'"
  | printWord => "'print'"
  | ifWord => "'if'"
  | thenWord => "'then'"
  | elseWord => "'else'"
  | whileWord => "'while'"
  | doWord => "'do'"
  | beginWord => "'begin'"
  | endWord => "'end'"
  | identifier => "identifier"
  | number => "number"
  | stringConst => "string constant"
  | assignOp => "':='"
  | additiveOp => "additive operator"
  | multiplicativeOp => "multiplicative operator"
  | relationalOp => "relational operator"
  | separator => "';'"
  | leftParen => "'('"
  | rightParen => "')'"
  | endOfInput => "end of input"

end Terminal

/-- The reserved texts with their terminals. Spelling is exact, case included. -/
def reservedTexts : List (String × Terminal) :=
  [("variable", .variableWord), ("print", .printWord), ("if", .ifWord), ("then", .thenWord),
    ("else", .elseWord), ("while", .whileWord), ("do", .doWord), ("begin", .beginWord),
    ("end", .endWord),
    ("+", .additiveOp), ("-", .additiveOp), ("*", .multiplicativeOp), ("/", .multiplicativeOp),
    ("<", .relationalOp), ("<=", .relationalOp), ("<>", .relationalOp), ("=", .relationalOp),
    (">", .relationalOp), (">=", .relationalOp),
    (":=", .assignOp), (";", .separator), ("(", .leftParen), (")", .rightParen)]

def reserved? (text : String) : Option Terminal :=
  reservedTexts.lookup text

inductive Arithmetic where
  | add | subtract | multiply | divide
  deriving DecidableEq, Repr

inductive Comparison where
  | equal | notEqual | less | lessEqual | greater | greaterEqual
  deriving DecidableEq, Repr

inductive Operator where
  | arithmetic (op : Arithmetic)
  | comparison (op : Comparison)
  | assign
  deriving DecidableEq, Repr

namespace Operator

def spellings : List (String × Operator) :=
  [("+", .arithmetic .add), ("-", .arithmetic .subtract), ("*", .arithmetic .multiply),
    ("/", .arithmetic .divide),
    ("=", .comparison .equal), ("<>", .comparison .notEqual), ("<", .comparison .less),
    ("<=", .comparison .lessEqual), (">", .comparison .greater), (">=", .comparison .greaterEqual),
    (":=", .assign)]

def ofText? (text : String) : Option Operator :=
  spellings.lookup text

def text : Operator → String
  | arithmetic .add => "+"
  | arithmetic .subtract => "-"
  | arithmetic .multiply => "*"
  | arithmetic .divide => "/"
  | comparison .equal => "="
  | comparison .notEqual => "<>"
  | comparison .less => "<"
  | comparison .lessEqual => "<="
  | comparison .greater => ">"
  | comparison .greaterEqual => ">="
  | assign => ":="

def isRelational : Operator → Bool
  | comparison _ => true
  | _ => false

theorem ofText?_text (op : Operator) : ofText? op.text = some op := by
  rcases op with op | op | _ <;> (try cases op) <;> rfl

end Operator

structure Lexeme where
  text : String
  kind : Terminal
  position : Position
  deriving DecidableEq, Repr

namespace Lexeme

def atEnd (position : Position) : Lexeme :=
  ⟨"", .endOfInput, position⟩

def describe (l : Lexeme) : String :=
  if l.kind = .endOfInput then "end of input" else "'" ++ l.text ++ "'"

end Lexeme

end OnePass
