import OnePass.Grammar.Basic
import OnePass.Input
import OnePass.Text.Quoted

/-! # Diagnostics

Every failure of a compilation is one diagnostic: its cause and, if known, the source position. The
wording is in one place, `Cause.message`, and the class of failure in another, `Cause.category`.
-/
namespace OnePass

inductive Cause where
  | unexpectedCharacter (c : Char)
  | unterminatedComment
  | unterminatedString
  /-- A number of 2^32 or more. -/
  | numberOutOfRange (digits : String)
  /-- The input ended inside a lexeme that is neither a comment nor a string. -/
  | unexpectedEndOfInput
  | unexpectedToken (expected found : Terminal) (text : String)
  /-- No rule of the nonterminal begins with, or may vanish before, the token found. -/
  | noRule (nonterminal : Nonterminal) (found : Terminal) (text : String)
      (expected : List Terminal)
  | undefinedVariable (name : String) (suggestion : Option String)
  | redeclaration (name : String) (previous : Position)
  | registersExhausted (available : Nat)
  | readFailure (reason : ReadFailure)
  /-- A stack was used out of order. -/
  | internal (reason : String)
  deriving DecidableEq, Repr

namespace Cause

def isLexical : Cause → Bool
  | unexpectedCharacter _ | unterminatedComment | unterminatedString | numberOutOfRange _
  | unexpectedEndOfInput => true
  | _ => false

def isSyntax : Cause → Bool
  | unexpectedToken .. | noRule .. => true
  | _ => false

def category : Cause → String
  | unexpectedCharacter _ | unterminatedComment | unterminatedString | numberOutOfRange _
  | unexpectedEndOfInput => "lexical error"
  | unexpectedToken .. | noRule .. => "syntax error"
  | undefinedVariable .. => "undefined variable"
  | redeclaration .. => "duplicate declaration"
  | registersExhausted _ => "register exhaustion"
  | readFailure _ => "io error"
  | internal _ => "internal error"

/-- The items as `a`, `a or b` or `a, b, or c`. -/
def alternatives : List String → String
  | [] => "nothing"
  | [a] => a
  | [a, b] => a ++ " or " ++ b
  | a :: b :: rest =>
    String.intercalate ", " (a :: b :: rest).dropLast ++ ", or " ++ rest.getLastD b

def found (kind : Terminal) (text : String) : String :=
  Lexeme.describe ⟨text, kind, {}⟩

def message : Cause → String
  | unexpectedCharacter c => "unexpected character " ++ Text.quoted c
  | unterminatedComment => "comment is never closed"
  | unterminatedString => "string constant is never closed"
  | numberOutOfRange digits => "number " ++ digits ++ " does not fit into 32 bits"
  | unexpectedEndOfInput => "unexpected end of input"
  | unexpectedToken expected kind text =>
    "expected " ++ expected.describe ++ ", found " ++ found kind text
  | noRule nonterminal kind text expected =>
    "expected " ++ alternatives (expected.map Terminal.describe) ++ ", found " ++ found kind text ++
      " while parsing " ++ nonterminal.describe
  | undefinedVariable name (some suggestion) =>
    "variable " ++ name ++ " is not defined, did you mean " ++ suggestion ++ "?"
  | undefinedVariable name none => "variable " ++ name ++ " is not defined"
  | redeclaration name previous =>
    "variable " ++ name ++ " is already defined at line " ++ toString previous.line ++ " col " ++
      toString previous.column
  | registersExhausted available =>
    "no free registers, all " ++ toString available ++ " are in use"
  | readFailure reason => reason.message
  | internal reason => reason

end Cause

structure Diagnostic where
  cause : Cause
  position : Option Position
  deriving DecidableEq, Repr

namespace Diagnostic

def located (cause : Cause) (position : Position) : Diagnostic :=
  ⟨cause, some position⟩

/-- A stack used out of order, which has no position. -/
def internal (reason : String) : Diagnostic :=
  ⟨.internal reason, none⟩

def message (d : Diagnostic) : String :=
  let place := match d.position with
    | some p => " at line " ++ toString p.line ++ " col " ++ toString p.column
    | none => ""
  d.cause.category ++ place ++ ": " ++ d.cause.message

def source? (d : Diagnostic) : Option String :=
  match d.cause with
  | .readFailure reason => some reason.message
  | _ => none

end Diagnostic

end OnePass
