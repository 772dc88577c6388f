import OnePass.Assembly.Line
import OnePass.Proofs.Tree

/-! # Translation of trees

The code of a program as a recursive function of its parse tree. The only state is the list of the
names declared so far, whose order numbers their slots, a counter of labels, and inside expressions
the number of intermediate results that wait in registers. The translation fails where a name is not
declared, is declared twice, or no register is left.
-/
namespace OnePass

def Register.above? (k : Nat) : Option Register :=
  if h : k < registerCount then some ⟨⟨k, h⟩⟩ else none

/-- The slot of a name, counted from one in the order of the declarations. -/
def slot? (declared : List String) (name : String) : Option Nat :=
  (declared.idxOf? name).map (· + 1)

def literalLabel? (literals : List String) (literal : String) : Option DataLabel :=
  (literals.idxOf? literal).map fun i => .literal (i + 1)

/-- What an operator finds when it is applied: a leaf that is not loaded yet, or an intermediate
result in a register. -/
inductive Value where
  | number (digits : String)
  | var (name : String)
  | text (literal : String)
  | temporary
  deriving DecidableEq, Repr

namespace Value

def held : Value → Nat
  | temporary => 1
  | _ => 0

def pending : List Value → Nat
  | [] => 0
  | v :: vs => v.held + pending vs

def load? (declared literals : List String) (r : Register) : Value → Option (List Instruction)
  | number digits => some [.loadNumber r digits]
  | var x => (slot? declared x).map fun slot => [.loadVariable r slot]
  | text literal => (literalLabel? literals literal).map fun label => [.loadAddress r label]
  | temporary => some []

def operand? (declared literals : List String) (k : Nat) (v : Value) :
    Option (List Instruction × Register) := do
  let r ← Register.above? k
  let load ← v.load? declared literals r
  return (load, r)

def shares : Value → Value → Bool
  | var x, var y => x = y
  | _, _ => false

/-- The registers of two operands above `k` others, and their loads, left before right. An
intermediate result is in its register already: the right one in the lower register if it is the
only one. -/
def operands? (declared literals : List String) (k : Nat) (left right : Value) :
    Option (List Instruction × Register × Register) := do
  let low ← Register.above? k
  if left.shares right then
    let load ← left.load? declared literals low
    return (load, low, low)
  else
    let high ← Register.above? (k + 1)
    if left ≠ temporary ∧ right = temporary then
      let load ← left.load? declared literals high
      return (load, high, low)
    else
      let first ← left.load? declared literals low
      let second ← right.load? declared literals high
      return (first ++ second, low, high)

end Value

namespace Expr

def value : Expr → Value
  | number digits => .number digits
  | var x => .var x
  | binary .. | negate _ => .temporary

/-- The code of an expression above `k` waiting results. A leaf has none until it is used. -/
def code (declared : List String) : Nat → Expr → Option (List Instruction)
  | _, number _ => some []
  | _, var _ => some []
  | k, negate e => do
    let code ← e.code declared k
    let (load, source) ← e.value.operand? declared [] k
    let target ← Register.above? k
    return code ++ load ++ [.negate target source]
  | k, binary op l r => do
    let left ← l.code declared k
    let right ← r.code declared (l.value.held + k)
    let (loads, a, b) ← Value.operands? declared [] k l.value r.value
    let target ← Register.above? k
    return left ++ right ++ loads ++ [.arithmetic op target a b]

end Expr

structure Progress where
  declared : List String := []
  labels : Nat := 0
  deriving DecidableEq, Repr

def instructions (is : List Instruction) : List Line :=
  is.map .instruction

@[simp] theorem length_instructions (is : List Instruction) :
    (instructions is).length = is.length :=
  List.length_map _

/-- The code of a condition, which branches past the body of its construct unless it holds. -/
def Condition.code (declared : List String) (construct : Nat) (c : Condition) :
    Option (List Line) := do
  let left ← c.left.expr.code declared 0
  let right ← c.right.expr.code declared c.left.expr.value.held
  let (loads, a, b) ← Value.operands? declared [] 0 c.left.expr.value c.right.expr.value
  return instructions
    (left ++ right ++ loads ++ [.compare a b, .branchUnless c.op (.endOf construct)])

def printCall (r : Register) : List Instruction :=
  [.saveScratch, .passArgument r, .callPrintf, .restoreScratch]

mutual

/-- The code of a statement. `literals` are the distinct string constants of the whole program, in
the order of their first appearance. -/
def Statement.code (literals : List String) : Statement → Progress → Option (List Line × Progress)
  | .assign x e, p => do
    let code ← e.expr.code p.declared 0
    let slot ← slot? p.declared x
    let (load, r) ← e.expr.value.operand? p.declared literals 0
    return (instructions (code ++ load ++ [.storeVariable r slot]), p)
  | .ifThen c s, p => do
    let n := p.labels + 1
    let condition ← c.code p.declared n
    let (body, q) ← s.code literals { p with labels := n }
    return (condition ++ body ++ [.instruction (.branch (.beginOf n)), .label (.endOf n)] ++
      [.label (.beginOf n)], q)
  | .ifElse c s t, p => do
    let n := p.labels + 1
    let condition ← c.code p.declared n
    let (body, q) ← s.code literals { p with labels := n }
    let (other, r) ← t.code literals q
    return (condition ++ body ++ [.instruction (.branch (.beginOf n)), .label (.endOf n)] ++
      other ++ [.label (.beginOf n)], r)
  | .whileDo c s, p => do
    let n := p.labels + 1
    let condition ← c.code p.declared n
    let (body, q) ← s.code literals { p with labels := n }
    return (.label (.beginOf n) :: condition ++ body ++
      [.instruction (.branch (.beginOf n)), .label (.endOf n)], q)
  | .print e, p => do
    let code ← e.expr.code p.declared 0
    let (load, r) ← e.expr.value.operand? p.declared literals 0
    return (instructions (code ++ .selectFormat .integerFormat :: load ++ printCall r), p)
  | .printText literal, p => do
    let (load, r) ← (Value.text literal).operand? p.declared literals 0
    return (instructions (.selectFormat .stringFormat :: load ++ printCall r), p)
  | .block b, p => b.code literals p
  | .declare x, p =>
    if x ∈ p.declared then none
    else some ([.instruction .reserveSlot], { p with declared := p.declared ++ [x] })
  | .skip, p => some ([], p)

def Sequence.code (literals : List String) : Sequence → Progress → Option (List Line × Progress)
  | .last s, p => s.code literals p
  | .more s rest, p => do
    let (first, q) ← s.code literals p
    let (others, r) ← rest.code literals q
    return (first ++ others, r)

end

def openingText : List Line :=
  [.directive .textSection, .label .main, .instruction .saveFrame, .instruction .enterFrame]

def closingText : List Line :=
  [.instruction .clearResult, .instruction .leaveFrame, .instruction .returnToCaller]

def Sequence.distinctLiterals (tree : Sequence) : List String :=
  tree.literals.eraseDups

def Sequence.text (tree : Sequence) : Option (List Line) := do
  let (code, _) ← tree.code tree.distinctLiterals {}
  return openingText ++ code ++ closingText

/-! ## Slots -/

theorem idxOf?_append_left {known more : List String} {literal : String}
    (hm : literal ∈ known) : (known ++ more).idxOf? literal = known.idxOf? literal := by
  induction known with
  | nil => cases hm
  | cons a known ih =>
    simp only [List.cons_append, List.idxOf?_cons]
    split
    · rfl
    · next hne =>
      rw [ih]
      grind

theorem slot?_of_extended {known declared : List String} {x : String} (h : known <+: declared)
    (hx : x ∈ known) : slot? known x = slot? declared x := by
  obtain ⟨more, rfl⟩ := h
  simp only [slot?, idxOf?_append_left hx]

theorem eq_of_slot? {declared : List String} {x y : String} {slot : Nat}
    (hx : slot? declared x = some slot) (hy : slot? declared y = some slot) : x = y := by
  obtain ⟨i, hi, rfl⟩ := Option.map_eq_some_iff.mp hx
  obtain ⟨j, hj, hij⟩ := Option.map_eq_some_iff.mp hy
  obtain rfl : j = i := Nat.succ.inj hij
  obtain ⟨_, hx, -⟩ := List.idxOf?_eq_some_iff.mp hi
  obtain ⟨_, hy, -⟩ := List.idxOf?_eq_some_iff.mp hj
  exact hx.symm.trans hy

/-! ## Operands -/

theorem Register.index_above {n : Nat} {r : Register} (h : above? n = some r) :
    r.index.val = n := by
  unfold above? at h
  split at h
  · cases h
    rfl
  · cases h

theorem Register.ne_of_above {n : Nat} {q r : Register} (hr : above? n = some r)
    (hq : q.index.val < n) : q ≠ r := by
  intro he
  rw [he, index_above hr] at hq
  omega

namespace Value

variable {declared literals : List String} {k : Nat} {left right : Value} {low high : Register}

theorem above?_of_operand? {value : Value} {x : List Instruction × Register}
    (h : value.operand? declared literals k = some x) : Register.above? k = some x.2 := by
  unfold operand? at h
  cases hr : Register.above? k with
  | none => simp [hr] at h
  | some r => cases hl : value.load? declared literals r <;> simp [hr, hl] at h; simp [← h]

theorem operands?_shared (h : left.shares right = true) :
    operands? declared literals k left right =
      (left.operand? declared literals k).bind fun x => some (x.1, x.2, x.2) := by
  unfold operands? operand?
  cases Register.above? k with
  | none => rfl
  | some low => cases hl : left.load? declared literals low <;> simp [h, hl]

@[simp] theorem load?_temporary (r : Register) :
    load? declared literals r .temporary = some [] := rfl

theorem operands?_left (hlow : Register.above? k = some low) :
    operands? declared literals k .temporary right =
      (right.operand? declared literals (k + 1)).bind fun y => some (y.1, low, y.2) := by
  unfold operands? operand?
  cases Register.above? (k + 1) with
  | none => simp [hlow, shares]
  | some high =>
    cases hl : right.load? declared literals high <;> simp [hlow, shares, hl]

theorem operands?_right (hlow : Register.above? k = some low) (hl : left ≠ temporary) :
    operands? declared literals k left .temporary =
      (left.operand? declared literals (k + 1)).bind fun x => some (x.1, x.2, low) := by
  have hs : left.shares .temporary = false := by cases left <;> rfl
  unfold operands? operand?
  cases Register.above? (k + 1) with
  | none => simp [hlow, hs]
  | some high => cases hload : left.load? declared literals high <;> simp [hlow, hs, hl, hload]

theorem operands?_leaves (hs : left.shares right = false) (hr : right ≠ temporary) :
    operands? declared literals k left right =
      (left.operand? declared literals k).bind fun x =>
        (right.operand? declared literals (k + 1)).bind fun y =>
          some (x.1 ++ y.1, x.2, y.2) := by
  unfold operands? operand?
  cases Register.above? k with
  | none => rfl
  | some low =>
    cases Register.above? (k + 1) with
    | none => cases hl : left.load? declared literals low <;> simp [hs, hl]
    | some high =>
      cases hl : left.load? declared literals low <;>
        cases hl' : right.load? declared literals high <;> simp [hs, hr, hl, hl']

end Value

theorem Expr.load?_value (declared literals : List String) (r : Register) (e : Expr) :
    e.value.load? declared literals r = e.value.load? declared [] r := by
  cases e <;> rfl

theorem Expr.operand?_value (declared literals : List String) (k : Nat) (e : Expr) :
    e.value.operand? declared literals k = e.value.operand? declared [] k := by
  simp only [Value.operand?, e.load?_value declared literals]

theorem Expr.operands?_value (declared literals : List String) (k : Nat) (l r : Expr) :
    Value.operands? declared literals k l.value r.value =
      Value.operands? declared [] k l.value r.value := by
  simp only [Value.operands?, l.load?_value declared literals, r.load?_value declared literals]

/-! ## The code of a construct from the code of its parts -/

theorem Expr.code_binary (declared : List String) (k : Nat) (op : Arithmetic) (l r : Expr) :
    (Expr.binary op l r).code declared k =
      (l.code declared k).bind fun left => (r.code declared (l.value.held + k)).bind fun right =>
        (Value.operands? declared [] k l.value r.value).bind fun x =>
          (Register.above? k).bind fun target =>
            some (left ++ right ++ x.1 ++ [.arithmetic op target x.2.1 x.2.2]) := by
  rw [Expr.code]
  rfl

theorem Expr.code_negate (declared : List String) (k : Nat) (e : Expr) :
    (Expr.negate e).code declared k =
      (e.code declared k).bind fun code => (e.value.operand? declared [] k).bind fun x =>
        (Register.above? k).bind fun target =>
          some (code ++ x.1 ++ [.negate target x.2]) := by
  rw [Expr.code]
  rfl

theorem Condition.code_eq (declared : List String) (n : Nat) (c : Condition) :
    c.code declared n =
      (c.left.expr.code declared 0).bind fun left =>
        (c.right.expr.code declared c.left.expr.value.held).bind fun right =>
          (Value.operands? declared [] 0 c.left.expr.value c.right.expr.value).bind fun x =>
            some (instructions (left ++ right ++ x.1 ++
              [.compare x.2.1 x.2.2, .branchUnless c.op (.endOf n)])) := rfl

section Code

variable (literals : List String) (p : Progress)

theorem Statement.code_assign (x : String) (e : Expression) :
    (Statement.assign x e).code literals p =
      (e.expr.code p.declared 0).bind fun code => (slot? p.declared x).bind fun slot =>
        (e.expr.value.operand? p.declared [] 0).bind fun y =>
          some (instructions (code ++ y.1 ++ [.storeVariable y.2 slot]), p) := by
  simp only [Statement.code, Expr.operand?_value]
  rfl

theorem Statement.code_print (e : Expression) :
    (Statement.print e).code literals p =
      (e.expr.code p.declared 0).bind fun code =>
        (e.expr.value.operand? p.declared [] 0).bind fun y =>
          some (instructions (code ++ .selectFormat .integerFormat :: y.1 ++ printCall y.2),
            p) := by
  simp only [Statement.code, Expr.operand?_value]
  rfl

theorem Statement.code_printText (literal : String) :
    (Statement.printText literal).code literals p =
      ((Value.text literal).operand? p.declared literals 0).bind fun y =>
        some (instructions (.selectFormat .stringFormat :: y.1 ++ printCall y.2), p) := by
  rw [Statement.code]
  rfl

theorem Statement.code_ifThen (c : Condition) (s : Statement) :
    (Statement.ifThen c s).code literals p =
      (c.code p.declared (p.labels + 1)).bind fun condition =>
        (s.code literals { p with labels := p.labels + 1 }).bind fun x =>
          some (condition ++ x.1 ++ [.instruction (.branch (.beginOf (p.labels + 1))),
            .label (.endOf (p.labels + 1))] ++ [.label (.beginOf (p.labels + 1))], x.2) := by
  rw [Statement.code]
  rfl

theorem Statement.code_ifElse (c : Condition) (s t : Statement) :
    (Statement.ifElse c s t).code literals p =
      (c.code p.declared (p.labels + 1)).bind fun condition =>
        (s.code literals { p with labels := p.labels + 1 }).bind fun x =>
          (t.code literals x.2).bind fun y =>
            some (condition ++ x.1 ++ [.instruction (.branch (.beginOf (p.labels + 1))),
              .label (.endOf (p.labels + 1))] ++ y.1 ++ [.label (.beginOf (p.labels + 1))],
              y.2) := by
  rw [Statement.code]
  rfl

theorem Statement.code_whileDo (c : Condition) (s : Statement) :
    (Statement.whileDo c s).code literals p =
      (c.code p.declared (p.labels + 1)).bind fun condition =>
        (s.code literals { p with labels := p.labels + 1 }).bind fun x =>
          some (.label (.beginOf (p.labels + 1)) :: condition ++ x.1 ++
            [.instruction (.branch (.beginOf (p.labels + 1))), .label (.endOf (p.labels + 1))],
            x.2) := by
  rw [Statement.code]
  rfl

theorem Sequence.code_more (s : Statement) (b : Sequence) :
    (Sequence.more s b).code literals p =
      (s.code literals p).bind fun x => (b.code literals x.2).bind fun y =>
        some (x.1 ++ y.1, y.2) := by
  rw [Sequence.code]
  rfl

end Code

/-! ## The parts of a construct that has code -/

section Parts

variable {literals : List String} {p : Progress} {x : List Line × Progress}

theorem Statement.parts_of_assign {name : String} {e : Expression}
    (h : (Statement.assign name e).code literals p = some x) :
    ∃ code slot y, e.expr.code p.declared 0 = some code ∧ slot? p.declared name = some slot ∧
      e.expr.value.operand? p.declared [] 0 = some y ∧
      x = (instructions (code ++ y.1 ++ [.storeVariable y.2 slot]), p) := by
  rw [Statement.code_assign] at h
  obtain ⟨code, hcode, h⟩ := Option.bind_eq_some_iff.mp h
  obtain ⟨slot, hslot, h⟩ := Option.bind_eq_some_iff.mp h
  obtain ⟨y, hy, h⟩ := Option.bind_eq_some_iff.mp h
  exact ⟨code, slot, y, hcode, hslot, hy, (Option.some.inj h).symm⟩

theorem Statement.parts_of_print {e : Expression}
    (h : (Statement.print e).code literals p = some x) :
    ∃ code y, e.expr.code p.declared 0 = some code ∧
      e.expr.value.operand? p.declared [] 0 = some y ∧
      x = (instructions (code ++ .selectFormat .integerFormat :: y.1 ++ printCall y.2), p) := by
  rw [Statement.code_print] at h
  obtain ⟨code, hcode, h⟩ := Option.bind_eq_some_iff.mp h
  obtain ⟨y, hy, h⟩ := Option.bind_eq_some_iff.mp h
  exact ⟨code, y, hcode, hy, (Option.some.inj h).symm⟩

theorem Statement.parts_of_printText {literal : String}
    (h : (Statement.printText literal).code literals p = some x) :
    ∃ r label, Register.above? 0 = some r ∧ literalLabel? literals literal = some label ∧
      x = (instructions (.selectFormat .stringFormat :: .loadAddress r label :: printCall r), p) := by
  rw [Statement.code_printText, Value.operand?] at h
  obtain ⟨y, hy, h⟩ := Option.bind_eq_some_iff.mp h
  obtain ⟨r, hr, hload⟩ := Option.bind_eq_some_iff.mp hy
  obtain ⟨load, hload, hpair⟩ := Option.bind_eq_some_iff.mp hload
  obtain ⟨label, hlabel, rfl⟩ := Option.map_eq_some_iff.mp hload
  cases hpair
  exact ⟨r, label, hr, hlabel, (Option.some.inj h).symm⟩

theorem Statement.parts_of_declare {name : String}
    (h : (Statement.declare name).code literals p = some x) :
    name ∉ p.declared ∧
      x = ([.instruction .reserveSlot], { p with declared := p.declared ++ [name] }) := by
  rw [Statement.code] at h
  split at h
  · cases h
  · next hnew => exact ⟨hnew, (Option.some.inj h).symm⟩

theorem Statement.parts_of_ifThen {c : Condition} {s : Statement}
    (h : (Statement.ifThen c s).code literals p = some x) :
    ∃ condition y, c.code p.declared (p.labels + 1) = some condition ∧
      s.code literals { p with labels := p.labels + 1 } = some y ∧
      x = (condition ++ y.1 ++ [.instruction (.branch (.beginOf (p.labels + 1))),
        .label (.endOf (p.labels + 1))] ++ [.label (.beginOf (p.labels + 1))], y.2) := by
  rw [Statement.code_ifThen] at h
  obtain ⟨condition, hc, h⟩ := Option.bind_eq_some_iff.mp h
  obtain ⟨y, hy, h⟩ := Option.bind_eq_some_iff.mp h
  exact ⟨condition, y, hc, hy, (Option.some.inj h).symm⟩

theorem Statement.parts_of_ifElse {c : Condition} {s t : Statement}
    (h : (Statement.ifElse c s t).code literals p = some x) :
    ∃ condition y z, c.code p.declared (p.labels + 1) = some condition ∧
      s.code literals { p with labels := p.labels + 1 } = some y ∧
      t.code literals y.2 = some z ∧
      x = (condition ++ y.1 ++ [.instruction (.branch (.beginOf (p.labels + 1))),
        .label (.endOf (p.labels + 1))] ++ z.1 ++ [.label (.beginOf (p.labels + 1))], z.2) := by
  rw [Statement.code_ifElse] at h
  obtain ⟨condition, hc, h⟩ := Option.bind_eq_some_iff.mp h
  obtain ⟨y, hy, h⟩ := Option.bind_eq_some_iff.mp h
  obtain ⟨z, hz, h⟩ := Option.bind_eq_some_iff.mp h
  exact ⟨condition, y, z, hc, hy, hz, (Option.some.inj h).symm⟩

theorem Statement.parts_of_whileDo {c : Condition} {s : Statement}
    (h : (Statement.whileDo c s).code literals p = some x) :
    ∃ condition y, c.code p.declared (p.labels + 1) = some condition ∧
      s.code literals { p with labels := p.labels + 1 } = some y ∧
      x = (.label (.beginOf (p.labels + 1)) :: condition ++ y.1 ++
        [.instruction (.branch (.beginOf (p.labels + 1))), .label (.endOf (p.labels + 1))],
        y.2) := by
  rw [Statement.code_whileDo] at h
  obtain ⟨condition, hc, h⟩ := Option.bind_eq_some_iff.mp h
  obtain ⟨y, hy, h⟩ := Option.bind_eq_some_iff.mp h
  exact ⟨condition, y, hc, hy, (Option.some.inj h).symm⟩

theorem Sequence.parts_of_more {s : Statement} {b : Sequence}
    (h : (Sequence.more s b).code literals p = some x) :
    ∃ y z, s.code literals p = some y ∧ b.code literals y.2 = some z ∧ x = (y.1 ++ z.1, z.2) := by
  rw [Sequence.code_more] at h
  obtain ⟨y, hy, h⟩ := Option.bind_eq_some_iff.mp h
  obtain ⟨z, hz, h⟩ := Option.bind_eq_some_iff.mp h
  exact ⟨y, z, hy, hz, (Option.some.inj h).symm⟩

end Parts

end OnePass
