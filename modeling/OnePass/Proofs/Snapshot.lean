import OnePass.Grammar.Language
import OnePass.Proofs.Translation

/-! # Snapshots

What matters of a session: the tokens to come, the control stack, and the values, operators and
labels that wait to be used, without the symbols and registers that represent them. A move on a
snapshot says what the move of the session amounts to.
-/
namespace OnePass

inductive Fault where
  | rejected
  /-- A stack does not hold what the move takes from it. -/
  | misused
  deriving DecidableEq, Repr

/-- The tokens begin with the lookahead. Stacks have their top first. -/
structure Snapshot where
  tokens : List Token
  control : List GrammarSymbol
  operands : List Value := []
  operators : List Operator := []
  labels : List Nat := []
  labelCount : Nat := 0
  literals : List String := []
  declared : List String := []
  /-- The lines of the data before the string constants. -/
  header : List Line := []
  text : List Line := []

def openingData : List Line :=
  [.directive .globalMain, .directive .externPrintf, .directive .dataSection,
    .definition .integerFormat "\"%d\"", .definition .stringFormat "\"%s\""]

def intern (literals : List String) (literal : String) : List String :=
  if literal ∈ literals then literals else literals ++ [literal]

theorem prefix_intern (literals : List String) (literal : String) :
    literals <+: intern literals literal := by
  unfold intern
  split
  · exact List.prefix_refl _
  · exact List.prefix_append _ _

theorem mem_intern (literals : List String) (literal : String) :
    literal ∈ intern literals literal := by
  unfold intern
  split
  · assumption
  · simp

namespace Snapshot

def emit (v : Snapshot) (lines : List Line) : Snapshot :=
  { v with text := v.text ++ lines }

/-- The outcome of a move whose only failure is a refusal. -/
def accept : Option Snapshot → Except Fault Snapshot
  | some v => .ok v
  | none => .error .rejected

/-! ## Actions -/

def declare (v : Snapshot) : Except Fault Snapshot :=
  match v.operands with
  | .var x :: rest => accept <|
    if x ∈ v.declared then none
    else some ({ v with operands := rest, declared := v.declared ++ [x] }.emit
      [.instruction .reserveSlot])
  | _ => .error .misused

def store (v : Snapshot) : Except Fault Snapshot :=
  match v.operators, v.operands with
  | .assign :: operators, value :: .var x :: rest => accept do
    let slot ← slot? v.declared x
    let (load, r) ← value.operand? v.declared v.literals (Value.pending rest)
    return emit { v with operators, operands := rest }
      (instructions (load ++ [.storeVariable r slot]))
  | _, _ => .error .misused

def compute (v : Snapshot) : Except Fault Snapshot :=
  match v.operators, v.operands with
  | .arithmetic op :: operators, right :: left :: rest => accept do
    let (loads, a, b) ← Value.operands? v.declared v.literals (Value.pending rest) left right
    let target ← Register.above? (Value.pending rest)
    return emit { v with operators, operands := .temporary :: rest }
      (instructions (loads ++ [.arithmetic op target a b]))
  | .comparison op :: operators, right :: left :: rest =>
    match v.labels with
    | construct :: _ => accept do
      let (loads, a, b) ← Value.operands? v.declared v.literals (Value.pending rest) left right
      return emit { v with operators, operands := rest }
        (instructions (loads ++ [.compare a b, .branchUnless op (.endOf construct)]))
    | [] => .error .misused
  | _, _ => .error .misused

def sign (v : Snapshot) : Except Fault Snapshot :=
  match v.operators, v.operands with
  | .arithmetic .add :: operators, _ :: _ => .ok { v with operators }
  | .arithmetic .subtract :: operators, operand :: rest => accept do
    let (load, source) ← operand.operand? v.declared v.literals (Value.pending rest)
    let target ← Register.above? (Value.pending rest)
    return emit { v with operators, operands := .temporary :: rest }
      (instructions (load ++ [.negate target source]))
  | _, _ => .error .misused

def callPrint (v : Snapshot) : Except Fault Snapshot :=
  match v.operands with
  | value :: rest => accept do
    let (load, r) ← value.operand? v.declared v.literals (Value.pending rest)
    return emit { v with operands := rest } (instructions (load ++ printCall r))
  | [] => .error .misused

def emitFor (v : Snapshot) (line : Nat → Line) : Except Fault Snapshot :=
  match v.labels with
  | construct :: _ => .ok (v.emit [line construct])
  | [] => .error .misused

def perform (v : Snapshot) : Action → Except Fault Snapshot
  | .prologue =>
    if v.literals = [] then
      .ok ({ v with header := v.header ++ openingData }.emit openingText)
    else .error .misused
  | .epilogue =>
    if v.operands = [] ∧ v.operators = [] ∧ v.labels = [] then .ok (v.emit closingText)
    else .error .misused
  | .declare => v.declare
  | .store => v.store
  | .compute => v.compute
  | .sign => v.sign
  | .integerFormat => .ok (v.emit [.instruction (.selectFormat .integerFormat)])
  | .stringFormat => .ok (v.emit [.instruction (.selectFormat .stringFormat)])
  | .callPrint => v.callPrint
  | .openLabels =>
    .ok { v with labels := (v.labelCount + 1) :: v.labels, labelCount := v.labelCount + 1 }
  | .closeLabels =>
    match v.labels with
    | _ :: labels => .ok { v with labels }
    | [] => .error .misused
  | .placeBegin => v.emitFor fun n => .label (.beginOf n)
  | .placeEnd => v.emitFor fun n => .label (.endOf n)
  | .jumpBegin => v.emitFor fun n => .instruction (.branch (.beginOf n))
  | .jumpEnd => v.emitFor fun n => .instruction (.branch (.endOf n))
  | .clearRegisters => if Value.pending v.operands = 0 then .ok v else .error .misused
  | .pushOperator => .ok v

/-! ## Moves -/

def shift (v : Snapshot) (t : Token) : Except Fault Snapshot :=
  match t.kind with
  | .identifier => .ok { v with operands := .var t.text :: v.operands }
  | .number => .ok { v with operands := .number t.text :: v.operands }
  | .stringConst =>
    .ok { v with
      operands := .text t.text :: v.operands
      literals := intern v.literals t.text }
  | .additiveOp | .multiplicativeOp | .relationalOp | .assignOp =>
    match Operator.ofText? t.text with
    | some op => .ok { v with operators := op :: v.operators }
    | none => .error .misused
  | _ => .ok v

/-- Goes on to the next token. Where none follows, the lexer has failed. -/
def advance (v : Snapshot) : Except Fault Snapshot :=
  match v.tokens with
  | t :: rest =>
    if t.kind = .endOfInput then .ok v
    else if rest = [] then .error .rejected
    else .ok { v with tokens := rest }
  | [] => .error .misused

def matchTerminal (v : Snapshot) (expected : Terminal) : Except Fault Snapshot :=
  match v.tokens with
  | t :: _ =>
    if t.kind = expected then do (← v.shift t).advance
    else .error .rejected
  | [] => .error .misused

def expand (v : Snapshot) (n : Nonterminal) : Except Fault Snapshot :=
  match v.tokens with
  | t :: _ =>
    match languageTable.rule? n t.kind with
    | some rule => .ok { v with control := rule.rhs ++ v.control }
    | none => .error .rejected
  | [] => .error .misused

def step (v : Snapshot) : GrammarSymbol → Except Fault Snapshot
  | .terminal t => v.matchTerminal t
  | .nonterminal n => v.expand n
  | .action a => v.perform a

/-- Moves along from a snapshot: to a later one, or to a refusal. -/
inductive Leads : Snapshot → Option Snapshot → Prop
  | here {v} : Leads v (some v)
  | move {v v' x rest outcome} : v.control = x :: rest →
    step { v with control := rest } x = .ok v' → Leads v' outcome → Leads v outcome
  | refused {v x rest} : v.control = x :: rest →
    step { v with control := rest } x = .error .rejected → Leads v none

theorem Leads.trans {v v' : Snapshot} {outcome : Option Snapshot} (h : Leads v (some v'))
    (h' : Leads v' outcome) : Leads v outcome := by
  generalize hm : some v' = middle at h
  induction h with
  | here =>
    cases hm
    exact h'
  | move hc hs _ ih => exact .move hc hs (ih hm)
  | refused => cases hm

/-- A refusal ends the moves; otherwise they go on from where they came to. -/
theorem Leads.bind {α : Type} {v : Snapshot} {x : Option α} {f : α → Snapshot}
    {g : α → Option Snapshot} (h : Leads v (x.map f)) (hg : ∀ a, x = some a → Leads (f a) (g a)) :
    Leads v (x.bind g) := by
  cases x with
  | none => exact h
  | some a => exact h.trans (hg a rfl)

theorem Leads.map {α : Type} {v : Snapshot} {x : Option α} {f f' : α → Snapshot}
    (h : Leads v (x.map f)) (hf : ∀ a, x = some a → Leads (f a) (some (f' a))) :
    Leads v (x.map f') := by
  rw [Option.map_eq_bind]
  exact h.bind hf

theorem Leads.bind_map {α β : Type} {v : Snapshot} {x : Option α} {g : α → Option β}
    {f : α → Snapshot} {f' : β → Snapshot} (h : Leads v (x.map f))
    (hg : ∀ a, x = some a → Leads (f a) ((g a).map f')) : Leads v ((x.bind g).map f') := by
  rw [Option.map_bind]
  exact h.bind hg

theorem Leads.accepted {v : Snapshot} {x : GrammarSymbol} {rest : List GrammarSymbol}
    {outcome : Option Snapshot} (hc : v.control = x :: rest)
    (hs : step { v with control := rest } x = accept outcome) : Leads v outcome := by
  cases outcome with
  | none => exact .refused hc hs
  | some v' => exact .move hc hs .here

end Snapshot

end OnePass
