import OnePass.Proofs.Run
import OnePass.Proofs.Tree
import Mathlib.Logic.Function.Basic

/-! # What programs mean

A program is interpreted along its parse tree. Values are words of 32 bits, and arithmetic wraps; the
quotient of two words is a parameter. Comparisons are signed. A variable has a value before it is
assigned, and a declaration leaves the value as it is.
-/
namespace OnePass

def decimalValue (digits : List Char) : Nat :=
  digits.foldl (fun n c => 10 * n + (c.toNat - '0'.toNat)) 0

def decimalWord (digits : String) : BitVec 32 :=
  BitVec.ofNat 32 (decimalValue digits.toList)

inductive Printed where
  | number (value : BitVec 32)
  | text (literal : String)
  deriving DecidableEq, Repr

def Comparison.holds : Comparison → BitVec 32 → BitVec 32 → Bool
  | equal, a, b => a = b
  | notEqual, a, b => a ≠ b
  | less, a, b => a.slt b
  | lessEqual, a, b => a.sle b
  | greater, a, b => b.slt a
  | greaterEqual, a, b => b.sle a

structure Store where
  values : String → BitVec 32
  output : List Printed := []
  declarations : Nat := 0

namespace Store

def assign (σ : Store) (x : String) (value : BitVec 32) : Store :=
  { σ with values := Function.update σ.values x value }

def print (σ : Store) (shown : Printed) : Store :=
  { σ with output := σ.output ++ [shown] }

def declare (σ : Store) : Store :=
  { σ with declarations := σ.declarations + 1 }

end Store

section Evaluation

variable (quotient : BitVec 32 → BitVec 32 → BitVec 32) (values : String → BitVec 32)

def Arithmetic.apply : Arithmetic → BitVec 32 → BitVec 32 → BitVec 32
  | add, a, b => a + b
  | subtract, a, b => a - b
  | multiply, a, b => a * b
  | divide, a, b => quotient a b

mutual

def Expression.eval : Expression → BitVec 32
  | .single t => t.eval
  | .chain e op t => op.operation.apply quotient e.eval t.eval

def Term.eval : Term → BitVec 32
  | .single f => f.eval
  | .chain t op f => op.operation.apply quotient t.eval f.eval

def Factor.eval : Factor → BitVec 32
  | .var x => values x
  | .number digits => decimalWord digits
  | .parens e => e.eval
  | .signed .plus t => t.eval
  | .signed .minus t => -t.eval

end

def Condition.holds (c : Condition) : Bool :=
  c.op.holds (c.left.eval quotient values) (c.right.eval quotient values)

def Expr.eval : Expr → BitVec 32
  | number digits => decimalWord digits
  | var x => values x
  | binary op l r => op.apply quotient l.eval r.eval
  | negate e => -e.eval

mutual

theorem Expression.eval_expr : ∀ e : Expression, e.expr.eval quotient values = e.eval quotient values
  | .single t => t.eval_expr
  | .chain e op t => by
    simp only [Expression.expr, Expr.eval, Expression.eval, e.eval_expr, t.eval_expr]

theorem Term.eval_expr : ∀ t : Term, t.expr.eval quotient values = t.eval quotient values
  | .single f => f.eval_expr
  | .chain t op f => by
    simp only [Term.expr, Expr.eval, Term.eval, t.eval_expr, f.eval_expr]

theorem Factor.eval_expr : ∀ f : Factor, f.expr.eval quotient values = f.eval quotient values
  | .var _ => rfl
  | .number _ => rfl
  | .parens e => e.eval_expr
  | .signed .plus t => t.eval_expr
  | .signed .minus t => by
    simp only [Factor.expr, Expr.withSign, Expr.eval, Factor.eval, t.eval_expr]

end

end Evaluation

/-! ## Running a program -/

def Sequence.statements : Sequence → List Statement
  | .last s => [s]
  | .more s rest => s :: rest.statements

/-- A program on its way: the statements that are still to be carried out, and the store. -/
structure Activity where
  todo : List Statement
  store : Store

def Sequence.start (tree : Sequence) (values : String → BitVec 32) : Activity :=
  ⟨tree.statements, { values }⟩

/-- Carries out the first part of a statement. What is left of it comes before everything else. -/
def Statement.enter (quotient : BitVec 32 → BitVec 32 → BitVec 32) (σ : Store) :
    Statement → List Statement × Store
  | .assign x e => ([], σ.assign x (e.eval quotient σ.values))
  | .ifThen c s => (if c.holds quotient σ.values then [s] else [], σ)
  | .ifElse c s t => ([if c.holds quotient σ.values then s else t], σ)
  | .whileDo c s => (if c.holds quotient σ.values then [s, .whileDo c s] else [], σ)
  | .print e => ([], σ.print (.number (e.eval quotient σ.values)))
  | .printText literal => ([], σ.print (.text literal))
  | .block b => (b.statements, σ)
  | .declare _ => ([], σ.declare)
  | .skip => ([], σ)

namespace Activity

def next (quotient : BitVec 32 → BitVec 32 → BitVec 32) (c : Activity) : Option Activity :=
  match c.todo with
  | [] => none
  | s :: rest =>
    some ⟨(s.enter quotient c.store).1 ++ rest, (s.enter quotient c.store).2⟩

theorem next_eq_none {quotient : BitVec 32 → BitVec 32 → BitVec 32} {c : Activity} :
    c.next quotient = none ↔ c.todo = [] := by
  unfold next
  split <;> simp_all

end Activity

def Statement.uses : Statement → List String
  | .assign x e => x :: e.expr.vars
  | .ifThen c _ => c.left.expr.vars ++ c.right.expr.vars
  | .ifElse c _ _ => c.left.expr.vars ++ c.right.expr.vars
  | .whileDo c _ => c.left.expr.vars ++ c.right.expr.vars
  | .print e => e.expr.vars
  | .printText _ => []
  | .block _ => []
  | .declare _ => []
  | .skip => []

def Activity.uses (c : Activity) : List String :=
  match c.todo with
  | [] => []
  | s :: _ => s.uses

end OnePass
