import OnePass.Token

/-! # Parse trees

The trees that programs denote. Every tree spells one sequence of tokens. A sequence can be spelt by
several trees, for two reasons: an `else` may belong to any `if` that is still open, and a sign may
cover a shorter or a longer part of the product behind it. A resolved tree gives the `else` to the
nearest `if` and the longest term to the sign.
-/
namespace OnePass

structure Token where
  kind : Terminal
  text : String
  deriving DecidableEq, Repr

def Lexeme.token (l : Lexeme) : Token := ⟨l.kind, l.text⟩

inductive Additive where
  | plus | minus
  deriving DecidableEq, Repr

inductive Multiplicative where
  | times | dividedBy
  deriving DecidableEq, Repr

def Additive.operation : Additive → Arithmetic
  | plus => .add
  | minus => .subtract

def Multiplicative.operation : Multiplicative → Arithmetic
  | times => .multiply
  | dividedBy => .divide

namespace Token

def additive (op : Additive) : Token :=
  ⟨.additiveOp, (Operator.arithmetic op.operation).text⟩

def multiplicative (op : Multiplicative) : Token :=
  ⟨.multiplicativeOp, (Operator.arithmetic op.operation).text⟩

def relational (op : Comparison) : Token :=
  ⟨.relationalOp, (Operator.comparison op).text⟩

end Token

mutual

/-- Terms joined by additive operators, grouped from the left. -/
inductive Expression where
  | single (term : Term)
  | chain (left : Expression) (op : Additive) (right : Term)

inductive Term where
  | single (factor : Factor)
  | chain (left : Term) (op : Multiplicative) (right : Factor)

inductive Factor where
  | var (name : String)
  | number (digits : String)
  | parens (inner : Expression)
  | signed (sign : Additive) (operand : Term)

end

structure Condition where
  left : Expression
  op : Comparison
  right : Expression

mutual

inductive Statement where
  | assign (name : String) (value : Expression)
  | ifThen (condition : Condition) (body : Statement)
  | ifElse (condition : Condition) (body other : Statement)
  | whileDo (condition : Condition) (body : Statement)
  | print (value : Expression)
  | printText (literal : String)
  | block (body : Sequence)
  | declare (name : String)
  | skip

inductive Sequence where
  | last (statement : Statement)
  | more (statement : Statement) (rest : Sequence)

end

/-! ## Spelling -/

mutual

def Expression.tokens : Expression → List Token
  | .single t => t.tokens
  | .chain e op t => e.tokens ++ .additive op :: t.tokens

def Term.tokens : Term → List Token
  | .single f => f.tokens
  | .chain t op f => t.tokens ++ .multiplicative op :: f.tokens

def Factor.tokens : Factor → List Token
  | .var x => [⟨.identifier, x⟩]
  | .number digits => [⟨.number, digits⟩]
  | .parens e => ⟨.leftParen, "("⟩ :: (e.tokens ++ [⟨.rightParen, ")"⟩])
  | .signed sign t => .additive sign :: t.tokens

end

def Condition.tokens (c : Condition) : List Token :=
  c.left.tokens ++ .relational c.op :: c.right.tokens

mutual

def Statement.tokens : Statement → List Token
  | .assign x e => ⟨.identifier, x⟩ :: ⟨.assignOp, ":="⟩ :: e.tokens
  | .ifThen c s => ⟨.ifWord, "if"⟩ :: (c.tokens ++ ⟨.thenWord, "then"⟩ :: s.tokens)
  | .ifElse c s t =>
    ⟨.ifWord, "if"⟩ :: (c.tokens ++ ⟨.thenWord, "then"⟩ ::
      (s.tokens ++ ⟨.elseWord, "else"⟩ :: t.tokens))
  | .whileDo c s => ⟨.whileWord, "while"⟩ :: (c.tokens ++ ⟨.doWord, "do"⟩ :: s.tokens)
  | .print e => ⟨.printWord, "print"⟩ :: e.tokens
  | .printText literal => [⟨.printWord, "print"⟩, ⟨.stringConst, literal⟩]
  | .block b => ⟨.beginWord, "begin"⟩ :: (b.tokens ++ [⟨.endWord, "end"⟩])
  | .declare x => [⟨.variableWord, "variable"⟩, ⟨.identifier, x⟩]
  | .skip => []

def Sequence.tokens : Sequence → List Token
  | .last s => s.tokens
  | .more s rest => s.tokens ++ ⟨.separator, ";"⟩ :: rest.tokens

end

/-! ## Ambiguity -/

def Factor.isSigned : Factor → Bool
  | signed .. => true
  | _ => false

/-- Whether a further factor behind the term could as well belong to a sign inside it. -/
def Term.endsSigned : Term → Bool
  | single f => f.isSigned
  | chain _ _ f => f.isSigned

/-- Whether an `else` behind the statement could belong to an `if` inside it. -/
def Statement.isOpen : Statement → Bool
  | .ifThen .. => true
  | .ifElse _ _ t => t.isOpen
  | .whileDo _ s => s.isOpen
  | _ => false

mutual

/-- Every sign covers the longest term behind it. -/
def Expression.Resolved : Expression → Prop
  | .single t => t.Resolved
  | .chain e _ t => e.Resolved ∧ t.Resolved

def Term.Resolved : Term → Prop
  | .single f => f.Resolved
  | .chain t _ f => t.Resolved ∧ t.endsSigned = false ∧ f.Resolved

def Factor.Resolved : Factor → Prop
  | .var _ => True
  | .number _ => True
  | .parens e => e.Resolved
  | .signed _ t => t.Resolved

end

def Condition.Resolved (c : Condition) : Prop :=
  c.left.Resolved ∧ c.right.Resolved

mutual

/-- Every `else` belongs to the nearest `if`, and every sign covers the longest term behind it. -/
def Statement.Resolved : Statement → Prop
  | .assign _ e => e.Resolved
  | .ifThen c s => c.Resolved ∧ s.Resolved
  | .ifElse c s t => c.Resolved ∧ s.Resolved ∧ s.isOpen = false ∧ t.Resolved
  | .whileDo c s => c.Resolved ∧ s.Resolved
  | .print e => e.Resolved
  | .printText _ => True
  | .block b => b.Resolved
  | .declare _ => True
  | .skip => True

def Sequence.Resolved : Sequence → Prop
  | .last s => s.Resolved
  | .more s rest => s.Resolved ∧ rest.Resolved

end

/-- The tree is the parse tree of the lexemes, the end of the input left out. -/
structure Sequence.Parses (tree : Sequence) (lexemes : List Lexeme) : Prop where
  spelling : tree.tokens = lexemes.map Lexeme.token
  resolved : tree.Resolved

/-! ## What expressions denote -/

/-- An expression without parentheses and positive signs. -/
inductive Expr where
  | number (digits : String)
  | var (name : String)
  | binary (op : Arithmetic) (left right : Expr)
  | negate (operand : Expr)
  deriving DecidableEq, Repr

def Expr.isLeaf : Expr → Bool
  | number _ | var _ => true
  | binary .. | negate _ => false

def Expr.vars : Expr → List String
  | number _ => []
  | var x => [x]
  | binary _ l r => l.vars ++ r.vars
  | negate e => e.vars

def Expr.withSign : Additive → Expr → Expr
  | .plus, e => e
  | .minus, e => negate e

mutual

def Expression.expr : Expression → Expr
  | .single t => t.expr
  | .chain e op t => .binary op.operation e.expr t.expr

def Term.expr : Term → Expr
  | .single f => f.expr
  | .chain t op f => .binary op.operation t.expr f.expr

def Factor.expr : Factor → Expr
  | .var x => .var x
  | .number digits => .number digits
  | .parens e => e.expr
  | .signed sign t => .withSign sign t.expr

end

mutual

def Statement.literals : Statement → List String
  | .printText literal => [literal]
  | .ifThen _ s => s.literals
  | .ifElse _ s t => s.literals ++ t.literals
  | .whileDo _ s => s.literals
  | .block b => b.literals
  | .assign .. => []
  | .print _ => []
  | .declare _ => []
  | .skip => []

def Sequence.literals : Sequence → List String
  | .last s => s.literals
  | .more s rest => s.literals ++ rest.literals

end

mutual

def Statement.declared : Statement → List String
  | .declare x => [x]
  | .ifThen _ s => s.declared
  | .ifElse _ s t => s.declared ++ t.declared
  | .whileDo _ s => s.declared
  | .block b => b.declared
  | .assign .. => []
  | .print _ => []
  | .printText _ => []
  | .skip => []

def Sequence.declared : Sequence → List String
  | .last s => s.declared
  | .more s rest => s.declared ++ rest.declared

end

end OnePass
