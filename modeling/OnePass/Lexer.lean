import OnePass.Diagnostic
import OnePass.Text.Alphabetic

/-! # The lexer

A deterministic automaton over the characters of the input. Blanks and comments leave it in the
start mode, so a lexeme begins where the start mode is left. A lexeme ends before the first
character that cannot extend it.

The lexer is pulled one lexeme at a time and keeps its state also when a pull fails. Only the text
gathered so far is lost then: the next pull goes on from the same mode and position.
-/
namespace OnePass

/-- What the characters since the start of a lexeme amount to. -/
inductive Lexer.Mode where
  | start
  | word
  | digits
  | colon
  | less
  | greater
  | comment
  | quoted
  | escaped
  /-- A lexeme that no further character can extend. -/
  | complete (kind : Terminal)
  deriving DecidableEq, Repr

structure Lexer where
  upcoming : List Input.Item
  position : Position := {}
  mode : Lexer.Mode := .start
  deriving DecidableEq, Repr

namespace Lexer

def isBlank (c : Char) : Bool :=
  c = ' ' || c = '\t' || c = '\r' || c = '\n'

def isWordChar (c : Char) : Bool :=
  c.isDigit || Text.isLetter c || c = '_'

namespace Mode

/-- The mode in which the character starts a lexeme or a comment, or is skipped. -/
def enter (c : Char) : Option Mode :=
  if isBlank c then some .start
  else if c.isDigit then some .digits
  else if Text.isLetter c then some .word
  else if c = '+' || c = '-' then some (.complete .additiveOp)
  else if c = '*' || c = '/' then some (.complete .multiplicativeOp)
  else if c = '(' then some (.complete .leftParen)
  else if c = ')' then some (.complete .rightParen)
  else if c = ';' then some (.complete .separator)
  else if c = '=' then some (.complete .relationalOp)
  else if c = '<' then some .less
  else if c = '>' then some .greater
  else if c = ':' then some .colon
  else if c = '\x7b' then some .comment
  else if c = '"' then some .quoted
  else none

def next : Mode → Char → Option Mode
  | start, c => enter c
  | word, c => if isWordChar c then some .word else none
  | digits, c => if c.isDigit then some .digits else none
  | colon, c => if c = '=' then some (.complete .assignOp) else none
  | less, c => if c = '=' || c = '>' then some (.complete .relationalOp) else none
  | greater, c => if c = '=' then some (.complete .relationalOp) else none
  | comment, c => some (if c = '\x7d' then .start else .comment)
  | quoted, c =>
    some (if c = '\\' then .escaped else if c = '"' then .complete .stringConst else .quoted)
  | escaped, _ => some .quoted
  | complete _, _ => none

/-- The terminal of a lexeme that ends in this mode, unless its text is reserved. -/
def terminal? : Mode → Option Terminal
  | word => some .identifier
  | digits => some .number
  | less | greater => some .relationalOp
  | complete kind => some kind
  | start | colon | comment | quoted | escaped => none

end Mode

def wordLimit : Nat := 4294967296

/-- The value of decimal digits, cut off at the word limit. -/
def wordValue (digits : List Char) : Nat :=
  digits.foldl (fun n c => min (10 * n + (c.toNat - '0'.toNat)) wordLimit) 0

def fitsWord (digits : List Char) : Bool :=
  wordValue digits < wordLimit

def classify (text : List Char) (kind : Terminal) (position : Position) :
    Except Diagnostic Lexeme :=
  let lexeme : Lexeme := ⟨String.ofList text, (reserved? (String.ofList text)).getD kind, position⟩
  if lexeme.kind = .number && !fitsWord text then
    .error (.located (.numberOutOfRange lexeme.text) position)
  else .ok lexeme

/-- Ends the lexeme read so far. The automaton is back at its start, whatever the outcome. -/
def close (reversed : List Char) (kind : Terminal) (start position : Position)
    (upcoming : List Input.Item) : EStateM.Result Diagnostic Lexer Lexeme :=
  match classify reversed.reverse kind start with
  | .ok lexeme => .ok lexeme { upcoming, position }
  | .error d => .error d { upcoming, position }

/-- What the end of the input means in a mode that no lexeme can end in. -/
def atEnd (mode : Mode) (start position : Position) : Except Diagnostic Lexeme :=
  match mode with
  | .start => .ok (.atEnd position)
  | .comment => .error (.located .unterminatedComment start)
  | .quoted | .escaped => .error (.located .unterminatedString start)
  | _ => .error (.located .unexpectedEndOfInput position)

/-- Reads up to the end of the next lexeme.

`last` is the character consumed most recently and `reversed` the text of the lexeme so far, last
character first; `start` is where the lexeme begins. A read failure leaves the last character to be
seen once more; before the first character of all it ends the input. -/
def scan (last : Option Char) (reversed : List Char) (start position : Position) (mode : Mode) :
    List Input.Item → EStateM.Result Diagnostic Lexer Lexeme
  | [] =>
    match mode.terminal? with
    | some kind => close reversed kind start position []
    | none =>
      match atEnd mode start position with
      | .ok lexeme => .ok lexeme { upcoming := [], position, mode }
      | .error d => .error d { upcoming := [], position, mode }
  | .failure reason :: rest =>
    let upcoming := match last with
      | some c => .char c :: rest
      | none => []
    .error (.located (.readFailure reason) position) { upcoming, position, mode }
  | .char c :: rest =>
    match mode.next c with
    | some mode' =>
      if mode = .start then scan (some c) [c] position (position.advance c) mode' rest
      else scan (some c) (c :: reversed) start (position.advance c) mode' rest
    | none =>
      match mode.terminal? with
      | some kind => close reversed kind start position (.char c :: rest)
      | none =>
        .error (.located (.unexpectedCharacter c) position)
          { upcoming := .char c :: rest, position, mode }

def next : EStateM Diagnostic Lexer Lexeme := fun l =>
  scan none [] l.position l.position l.mode l.upcoming

def ofInput (input : Input) : Lexer :=
  { upcoming := input.items }

def pulls : Nat → Lexer → List (Except Diagnostic Lexeme)
  | 0, _ => []
  | n + 1, l =>
    match next l with
    | .ok lexeme l' => .ok lexeme :: pulls n l'
    | .error d l' => .error d :: pulls n l'

def drain : Nat → Lexer → List (Except Diagnostic Lexeme)
  | 0, _ => []
  | fuel + 1, l =>
    match next l with
    | .ok lexeme l' =>
      if lexeme.kind = .endOfInput then [.ok lexeme] else .ok lexeme :: drain fuel l'
    | .error d _ => [.error d]

/-- The lexemes of the input, ended by the end-of-input lexeme or by a failure. Every other lexeme
takes at least one character, so there are no more of them than characters. -/
def lexemes (input : Input) : List (Except Diagnostic Lexeme) :=
  drain (input.items.length + 1) (ofInput input)

end Lexer

end OnePass
