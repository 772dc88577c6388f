import OnePass.Register
import OnePass.Text.EditDistance
import OnePass.Token

/-! # Symbols

A symbol is a variable, a literal or an intermediate value. Symbols live in one arena. Every use of
a name resolves to the symbol of its first use; literals and intermediate values have no name in the
table, and their places are used again once the value has been consumed. A variable gets its slot and
the position of its declaration at one time and keeps them, so both are one record, and there is
either of them only with the other.
-/
namespace OnePass

structure SymbolId where
  index : Nat
  deriving DecidableEq, Repr

def SymbolId.render (id : SymbolId) : String :=
  "SymbolId(" ++ toString id.index ++ ")"

structure Declaration where
  slot : Nat
  site : Position
  deriving DecidableEq, Repr

/-- A variable, a literal, or an intermediate value, which has no lexeme. -/
structure Symbol where
  lexeme : Option Lexeme := none
  declaration : Option Declaration := none
  register : Option Register := none
  deriving DecidableEq, Repr, Inhabited

namespace Symbol

def name? (s : Symbol) : Option String :=
  s.lexeme.map Lexeme.text

def slot? (s : Symbol) : Option Nat :=
  s.declaration.map Declaration.slot

end Symbol

/-- The arena, the names, the places to use again (most recent first), and the number of variables
declared so far. -/
structure SymbolTable where
  symbols : Array Symbol := #[]
  names : List (String × SymbolId) := []
  free : List SymbolId := []
  declared : Nat := 0
  deriving DecidableEq, Repr

namespace SymbolTable

def symbol (table : SymbolTable) (id : SymbolId) : Symbol :=
  table.symbols[id.index]?.getD {}

def update (table : SymbolTable) (id : SymbolId) (change : Symbol → Symbol) : SymbolTable :=
  { table with symbols := table.symbols.modify id.index change }

/-- Adds a symbol, at the place freed most recently if there is one. -/
def add (table : SymbolTable) (s : Symbol) : SymbolId × SymbolTable :=
  match table.free with
  | id :: rest => (id, { table with symbols := table.symbols.modify id.index fun _ => s, free := rest })
  | [] => (⟨table.symbols.size⟩, { table with symbols := table.symbols.push s })

def lookup (table : SymbolTable) (name : String) : Option SymbolId :=
  table.names.lookup name

def reference (table : SymbolTable) (lexeme : Lexeme) : SymbolId × SymbolTable :=
  match table.lookup lexeme.text with
  | some id => (id, table)
  | none =>
    let (id, table) := table.add { lexeme := some lexeme }
    (id, { table with names := (lexeme.text, id) :: table.names })

def literal (table : SymbolTable) (lexeme : Lexeme) : SymbolId × SymbolTable :=
  table.add { lexeme := some lexeme }

def anonymous (table : SymbolTable) : SymbolId × SymbolTable :=
  table.add {}

/-- Frees the place of a consumed literal or intermediate value. Variables are never freed. -/
def discard (table : SymbolTable) (id : SymbolId) : SymbolTable :=
  if (table.symbol id).lexeme.any fun l => l.kind = .identifier then table
  else { table.update id fun _ => {} with free := id :: table.free }

/-- Gives the symbol the next stack slot, or returns where it was declared before. -/
def declare (table : SymbolTable) (id : SymbolId) (site : Position) :
    Except Position (Nat × SymbolTable) :=
  match (table.symbol id).declaration with
  | some earlier => .error earlier.site
  | none =>
    let slot := table.declared + 1
    let table := table.update id fun s => { s with declaration := some ⟨slot, site⟩ }
    .ok (slot, { table with declared := slot })

def setRegister (table : SymbolTable) (id : SymbolId) (register : Option Register) : SymbolTable :=
  table.update id fun s => { s with register }

def size (table : SymbolTable) : Nat :=
  table.symbols.size - table.free.length

def isEmpty (table : SymbolTable) : Bool :=
  table.size = 0

def declaredNames (table : SymbolTable) : List String :=
  table.symbols.toList.filterMap fun s => if s.declaration.isSome then s.name? else none

section Suggestions

variable {distance : String → String → Nat}

/-- The first of the candidates with the least distance from `name`. -/
def closest [NameDistance distance] (name : String) : List String → Option String
  | [] => none
  | c :: rest =>
    match closest name rest with
    | none => some c
    | some best =>
      if distance name best < distance name c then some best else some c

/-- Whether a name is near enough to be meant: at most two edits away, and by fewer edits than it
has characters. -/
def isNear [NameDistance distance] (name candidate : String) : Bool :=
  let edits := distance name candidate
  edits ≤ 2 && edits < name.length

def suggest [NameDistance distance] (table : SymbolTable) (name : String) : Option String :=
  closest name (table.declaredNames.filter (isNear name))

end Suggestions

def ofLexemes (lexemes : List Lexeme) : SymbolTable :=
  lexemes.foldl (fun table l => if l.kind = .identifier then (table.reference l).2 else table) {}

end SymbolTable

end OnePass
