import Mathlib.Data.List.Forall2
import OnePass.Proofs.Compilation
import OnePass.Proofs.ExpressionExecution
import OnePass.Proofs.Placement
import Std.Data.String.ToNat

/-! # Labels and branches of a program

Every `if` and every `while` is a construct, and the constructs are numbered in the order of their
words in the source. The lines of a program are arranged around the labels of its constructs: a loop
stands between its two labels, and so does the part of a choice behind its `else`. What is said of the
labels and branches of whole programs follows from this arrangement alone.
-/
namespace OnePass

section AnyDistance

variable {distance : String → String → Nat} [NameDistance distance]

/-! ## Tokens by their kinds -/

def ofKinds (kinds : List Terminal) (tokens : List Token) : List Token :=
  tokens.filter fun t => t.kind ∈ kinds

section Kinds

variable {kinds : List Terminal}

theorem ofKinds_append (xs ys : List Token) :
    ofKinds kinds (xs ++ ys) = ofKinds kinds xs ++ ofKinds kinds ys :=
  List.filter_append xs ys

theorem ofKinds_cons_of_mem {t : Token} (h : t.kind ∈ kinds) (ts : List Token) :
    ofKinds kinds (t :: ts) = t :: ofKinds kinds ts :=
  List.filter_cons_of_pos (by simpa using h)

theorem ofKinds_cons_of_not_mem {t : Token} (h : t.kind ∉ kinds) (ts : List Token) :
    ofKinds kinds (t :: ts) = ofKinds kinds ts :=
  List.filter_cons_of_neg (by simpa using h)

def expressionKinds : List Terminal :=
  [.identifier, .number, .leftParen, .rightParen, .additiveOp, .multiplicativeOp]

mutual

theorem Expression.kind_of_mem_tokens : ∀ (e : Expression), ∀ t ∈ e.tokens,
    t.kind ∈ expressionKinds
  | .single t => t.kind_of_mem_tokens
  | .chain e op t => by
    rw [Expression.tokens, List.forall_mem_append, List.forall_mem_cons]
    exact ⟨e.kind_of_mem_tokens, (by decide : Terminal.additiveOp ∈ expressionKinds),
      t.kind_of_mem_tokens⟩

theorem Term.kind_of_mem_tokens : ∀ (e : Term), ∀ t ∈ e.tokens, t.kind ∈ expressionKinds
  | .single f => f.kind_of_mem_tokens
  | .chain e op f => by
    rw [Term.tokens, List.forall_mem_append, List.forall_mem_cons]
    exact ⟨e.kind_of_mem_tokens, (by decide : Terminal.multiplicativeOp ∈ expressionKinds),
      f.kind_of_mem_tokens⟩

theorem Factor.kind_of_mem_tokens : ∀ (f : Factor), ∀ t ∈ f.tokens, t.kind ∈ expressionKinds
  | .var x => by simp [Factor.tokens, expressionKinds]
  | .number digits => by simp [Factor.tokens, expressionKinds]
  | .parens e => by
    rw [Factor.tokens, List.forall_mem_cons, List.forall_mem_append]
    exact ⟨by simp [expressionKinds], e.kind_of_mem_tokens, by simp [expressionKinds]⟩
  | .signed sign e => by
    rw [Factor.tokens, List.forall_mem_cons]
    exact ⟨(by decide : Terminal.additiveOp ∈ expressionKinds), e.kind_of_mem_tokens⟩

end

theorem Expression.ofKinds_tokens (h : ∀ kind ∈ kinds, kind ∉ expressionKinds) (e : Expression) :
    ofKinds kinds e.tokens = [] := by
  rw [ofKinds, List.filter_eq_nil_iff]
  intro t ht hmem
  exact h t.kind (by simpa using hmem) (e.kind_of_mem_tokens t ht)

end Kinds

def Lexer.tokens (input : Input) : List Token :=
  ((lexemes input).filterMap Except.toOption).map Lexeme.token

theorem Sequence.ParsesText.tokens_eq {tree : Sequence} {source : String}
    (h : tree.ParsesText source) :
    ∃ final : Token, final.kind = .endOfInput ∧
      Lexer.tokens (.ofText source) = tree.tokens ++ [final] := by
  obtain ⟨body, final, hl, hf, ht⟩ := h
  refine ⟨final.token, hf, ?_⟩
  have hyielded : ∀ xs : List Lexeme,
      (xs.map (Except.ok : Lexeme → Except Diagnostic Lexeme)).filterMap Except.toOption = xs := by
    intro xs
    induction xs with
    | nil => rfl
    | cons x xs ih => simpa [Except.toOption] using ih
  rw [Lexer.tokens, hl, hyielded, List.map_append, ht.spelling]
  rfl

theorem Sequence.ParsesText.ofKinds_eq {tree : Sequence} {source : String} {kinds : List Terminal}
    (h : tree.ParsesText source) (hend : .endOfInput ∉ kinds) :
    ofKinds kinds (Lexer.tokens (.ofText source)) = ofKinds kinds tree.tokens := by
  obtain ⟨final, hf, htokens⟩ := h.tokens_eq
  rw [htokens, ofKinds_append, ofKinds_cons_of_not_mem (hf ▸ hend)]
  exact List.append_nil _

/-! ## Instructions of expressions -/

namespace Instruction

def isNumeric : Instruction → Bool
  | loadNumber .. | loadVariable .. | arithmetic .. | negate .. => true
  | _ => false

def isBranch : Instruction → Bool
  | branch _ | branchUnless .. => true
  | _ => false

theorem isBranch_of_isNumeric (i : Instruction) (h : i.isNumeric = true) : i.isBranch = false := by
  cases i <;> cases h <;> rfl

end Instruction

namespace Expr

variable {declared : List String} {k : Nat} {r : Register} {load : List Instruction}

theorem isNumeric_of_load? {e : Expr} (h : e.value.load? declared [] r = some load) :
    ∀ i ∈ load, i.isNumeric = true := by
  cases e with
  | number digits =>
    cases h
    simp [Instruction.isNumeric]
  | var x =>
    obtain ⟨slot, -, rfl⟩ := Option.map_eq_some_iff.mp h
    simp [Instruction.isNumeric]
  | binary | negate =>
    cases h
    simp

theorem isNumeric_of_operand? {e : Expr} {x : List Instruction × Register}
    (h : e.value.operand? declared [] k = some x) : ∀ i ∈ x.1, i.isNumeric = true :=
  isNumeric_of_load? (Value.exists_of_operand? h).2

theorem isNumeric_of_operands? {l r : Expr} {x : List Instruction × Register × Register}
    (h : Value.operands? declared [] k l.value r.value = some x) :
    ∀ i ∈ x.1, i.isNumeric = true := by
  obtain ⟨low, -, ⟨-, -, hload⟩ | ⟨high, -, ⟨-, -, -, hload⟩ | ⟨-, -, first, second, hfirst,
    hsecond, hx⟩⟩⟩ := Value.operands?_inv h
  · exact isNumeric_of_load? hload
  · exact isNumeric_of_load? hload
  · rw [hx, List.forall_mem_append]
    exact ⟨isNumeric_of_load? hfirst, isNumeric_of_load? hsecond⟩

theorem isNumeric_of_code {e : Expr} {code : List Instruction}
    (h : e.code declared k = some code) : ∀ i ∈ code, i.isNumeric = true := by
  induction e generalizing k code with
  | number | var =>
    cases h
    simp
  | negate e ih =>
    rw [code_negate] at h
    obtain ⟨first, hfirst, h⟩ := Option.bind_eq_some_iff.mp h
    obtain ⟨x, hx, h⟩ := Option.bind_eq_some_iff.mp h
    obtain ⟨target, -, h⟩ := Option.bind_eq_some_iff.mp h
    cases h
    rw [List.forall_mem_append, List.forall_mem_append]
    exact ⟨⟨ih hfirst, isNumeric_of_operand? hx⟩, by simp [Instruction.isNumeric]⟩
  | binary op l r ihl ihr =>
    rw [code_binary] at h
    obtain ⟨left, hleft, h⟩ := Option.bind_eq_some_iff.mp h
    obtain ⟨right, hright, h⟩ := Option.bind_eq_some_iff.mp h
    obtain ⟨x, hx, h⟩ := Option.bind_eq_some_iff.mp h
    obtain ⟨target, -, h⟩ := Option.bind_eq_some_iff.mp h
    cases h
    rw [List.forall_mem_append, List.forall_mem_append, List.forall_mem_append]
    exact ⟨⟨⟨ihl hleft, ihr hright⟩, isNumeric_of_operands? hx⟩, by simp [Instruction.isNumeric]⟩

/-- What holds of numeric instructions holds of the code of an expression and of its last load. -/
theorem forall_of_use {P : Instruction → Prop} {e : Expr} {code : List Instruction}
    {x : List Instruction × Register} (hP : ∀ i, i.isNumeric = true → P i)
    (hcode : e.code declared k = some code) (hx : e.value.operand? declared [] k = some x) :
    (∀ i ∈ code, P i) ∧ ∀ i ∈ x.1, P i := by
  constructor
  · intro i hi
    exact hP i (isNumeric_of_code hcode i hi)
  · intro i hi
    exact hP i (isNumeric_of_operand? hx i hi)

end Expr

/-- The code of a condition ends with its branch, and nothing before that branches. -/
theorem Condition.exists_test {declared : List String} {n : Nat} {c : Condition} {lines : List Line}
    (h : c.code declared n = some lines) :
    ∃ test, (∀ i ∈ test, i.isNumeric = true ∨ ∃ a b, i = .compare a b) ∧
      lines = instructions test ++ [.instruction (.branchUnless c.op (.endOf n))] := by
  rw [Condition.code_eq] at h
  obtain ⟨left, hleft, h⟩ := Option.bind_eq_some_iff.mp h
  obtain ⟨right, hright, h⟩ := Option.bind_eq_some_iff.mp h
  obtain ⟨x, hx, h⟩ := Option.bind_eq_some_iff.mp h
  cases h
  refine ⟨left ++ right ++ x.1 ++ [.compare x.2.1 x.2.2], ?_, by simp [instructions]⟩
  intro i hi
  rcases List.mem_append.mp hi with hi | hi
  · rcases List.mem_append.mp hi with hi | hi
    · rcases List.mem_append.mp hi with hi | hi
      · exact .inl (Expr.isNumeric_of_code hleft i hi)
      · exact .inl (Expr.isNumeric_of_code hright i hi)
    · exact .inl (Expr.isNumeric_of_operands? hx i hi)
  · exact .inr ⟨_, _, List.mem_singleton.mp hi⟩

/-! ## Arranged lines -/

inductive Construct where
  | choice (op : Comparison)
  | loop (op : Comparison)
  deriving DecidableEq, Repr

namespace Construct

def comparison : Construct → Comparison
  | choice op => op
  | loop op => op

def word : Construct → Token
  | choice _ => ⟨.ifWord, "if"⟩
  | loop _ => ⟨.whileWord, "while"⟩

def tokens (c : Construct) : List Token :=
  [c.word, .relational c.comparison]

end Construct

mutual

def Statement.constructs : Statement → List Construct
  | .ifThen c s => .choice c.op :: s.constructs
  | .ifElse c s t => .choice c.op :: (s.constructs ++ t.constructs)
  | .whileDo c s => .loop c.op :: s.constructs
  | .block b => b.constructs
  | .assign .. => []
  | .print _ => []
  | .printText _ => []
  | .declare _ => []
  | .skip => []

def Sequence.constructs : Sequence → List Construct
  | .last s => s.constructs
  | .more s rest => s.constructs ++ rest.constructs

end

def Line.isStraight : Line → Bool
  | instruction i => !i.isBranch
  | _ => false

/-- The lines of constructs that are numbered behind `n`, with straight lines around them. -/
inductive Arranged : Nat → List Construct → List Line → Prop
  | straight {n : Nat} {lines : List Line} : (∀ line ∈ lines, line.isStraight = true) →
    Arranged n [] lines
  | append {n : Nat} {cs ds : List Construct} {first rest : List Line} : Arranged n cs first →
    Arranged (n + cs.length) ds rest → Arranged n (cs ++ ds) (first ++ rest)
  | choice {n : Nat} {cs ds : List Construct} {op : Comparison} {test body other : List Line} :
    (∀ line ∈ test, line.isStraight = true) → Arranged (n + 1) cs body →
    Arranged (n + 1 + cs.length) ds other →
    Arranged n (.choice op :: (cs ++ ds))
      (test ++ .instruction (.branchUnless op (.endOf (n + 1))) :: (body ++
        .instruction (.branch (.beginOf (n + 1))) :: .label (.endOf (n + 1)) ::
          (other ++ [.label (.beginOf (n + 1))])))
  | loop {n : Nat} {cs : List Construct} {op : Comparison} {test body : List Line} :
    (∀ line ∈ test, line.isStraight = true) → Arranged (n + 1) cs body →
    Arranged n (.loop op :: cs)
      (.label (.beginOf (n + 1)) :: (test ++
        .instruction (.branchUnless op (.endOf (n + 1))) :: (body ++
          [.instruction (.branch (.beginOf (n + 1))), .label (.endOf (n + 1))])))

theorem isStraight_instructions {is : List Instruction} (h : ∀ i ∈ is, i.isBranch = false) :
    ∀ line ∈ instructions is, line.isStraight = true := by
  intro line hline
  obtain ⟨i, hi, rfl⟩ := List.mem_map.mp hline
  simp [Line.isStraight, h i hi]

theorem arranged_instructions {n : Nat} {is : List Instruction}
    (h : ∀ i ∈ is, i.isBranch = false) : Arranged n [] (instructions is) :=
  .straight (isStraight_instructions h)

theorem Condition.exists_straight {declared : List String} {n : Nat} {c : Condition}
    {lines : List Line} (h : c.code declared n = some lines) :
    ∃ test, (∀ line ∈ test, line.isStraight = true) ∧
      lines = test ++ [.instruction (.branchUnless c.op (.endOf n))] := by
  obtain ⟨test, htest, rfl⟩ := c.exists_test h
  refine ⟨_, isStraight_instructions ?_, rfl⟩
  intro i hi
  rcases htest i hi with hnumeric | ⟨a, b, rfl⟩
  · exact i.isBranch_of_isNumeric hnumeric
  · rfl

mutual

theorem Statement.arranged {literals : List String} : ∀ (s : Statement) {p : Progress}
    {x : List Line × Progress}, s.code literals p = some x →
    Arranged p.labels s.constructs x.1 ∧ x.2.labels = p.labels + s.constructs.length
  | .assign y e, p, x, h => by
    obtain ⟨code, slot, y, hcode, -, hy, rfl⟩ := Statement.parts_of_assign h
    refine ⟨arranged_instructions ?_, rfl⟩
    obtain ⟨hfirst, hload⟩ := Expr.forall_of_use Instruction.isBranch_of_isNumeric hcode hy
    rw [List.forall_mem_append, List.forall_mem_append]
    exact ⟨⟨hfirst, hload⟩, by simp [Instruction.isBranch]⟩
  | .print e, p, x, h => by
    obtain ⟨code, y, hcode, hy, rfl⟩ := Statement.parts_of_print h
    refine ⟨arranged_instructions ?_, rfl⟩
    obtain ⟨hfirst, hload⟩ := Expr.forall_of_use Instruction.isBranch_of_isNumeric hcode hy
    rw [List.forall_mem_append, List.forall_mem_append, List.forall_mem_cons]
    exact ⟨⟨hfirst, rfl, hload⟩, by simp [printCall, Instruction.isBranch]⟩
  | .printText literal, p, x, h => by
    obtain ⟨r, label, -, -, rfl⟩ := Statement.parts_of_printText h
    exact ⟨arranged_instructions (by simp [printCall, Instruction.isBranch]), rfl⟩
  | .declare y, p, x, h => by
    obtain ⟨-, rfl⟩ := Statement.parts_of_declare h
    exact ⟨.straight (by simp [Line.isStraight, Instruction.isBranch]), rfl⟩
  | .skip, p, x, h => by
    rw [Statement.code] at h
    cases h
    exact ⟨.straight (by simp), rfl⟩
  | .block b, p, x, h => b.arranged h
  | .ifThen c s, p, x, h => by
    obtain ⟨condition, y, hc, hy, rfl⟩ := Statement.parts_of_ifThen h
    obtain ⟨test, htest, rfl⟩ := c.exists_straight hc
    obtain ⟨hbody, hlabels⟩ := s.arranged hy
    replace hlabels : y.2.labels = p.labels + 1 + s.constructs.length := hlabels
    have hother : Arranged (p.labels + 1 + s.constructs.length) [] [] := .straight (by simp)
    have hchoice : Arranged p.labels (.choice c.op :: (s.constructs ++ [])) _ :=
      .choice htest hbody hother
    constructor
    · simpa [Statement.constructs] using hchoice
    · rw [hlabels, Statement.constructs, List.length_cons]
      omega
  | .ifElse c s t, p, x, h => by
    obtain ⟨condition, y, z, hc, hy, hz, rfl⟩ := Statement.parts_of_ifElse h
    obtain ⟨test, htest, rfl⟩ := c.exists_straight hc
    obtain ⟨hbody, hlabels⟩ := s.arranged hy
    obtain ⟨hother, hlabels'⟩ := t.arranged hz
    replace hlabels : y.2.labels = p.labels + 1 + s.constructs.length := hlabels
    rw [hlabels] at hother
    have hchoice : Arranged p.labels (.choice c.op :: (s.constructs ++ t.constructs)) _ :=
      .choice htest hbody hother
    constructor
    · simpa [Statement.constructs] using hchoice
    · rw [hlabels', hlabels, Statement.constructs, List.length_cons, List.length_append]
      omega
  | .whileDo c s, p, x, h => by
    obtain ⟨condition, y, hc, hy, rfl⟩ := Statement.parts_of_whileDo h
    obtain ⟨test, htest, rfl⟩ := c.exists_straight hc
    obtain ⟨hbody, hlabels⟩ := s.arranged hy
    replace hlabels : y.2.labels = p.labels + 1 + s.constructs.length := hlabels
    have hloop : Arranged p.labels (.loop c.op :: s.constructs) _ := .loop htest hbody
    constructor
    · simpa [Statement.constructs] using hloop
    · rw [hlabels, Statement.constructs, List.length_cons]
      omega

theorem Sequence.arranged {literals : List String} : ∀ (b : Sequence) {p : Progress}
    {x : List Line × Progress}, b.code literals p = some x →
    Arranged p.labels b.constructs x.1 ∧ x.2.labels = p.labels + b.constructs.length
  | .last s, p, x, h => s.arranged h
  | .more s b, p, x, h => by
    obtain ⟨y, z, hy, hz, rfl⟩ := Sequence.parts_of_more h
    obtain ⟨hfirst, hlabels⟩ := s.arranged hy
    obtain ⟨hrest, hlabels'⟩ := b.arranged hz
    rw [hlabels] at hrest
    constructor
    · exact .append hfirst hrest
    · rw [hlabels', hlabels, Sequence.constructs, List.length_append]
      omega

end

/-! ## Labels and branches of arranged lines -/

def Line.conditional? : Line → Option (Comparison × CodeLabel)
  | instruction (.branchUnless op l) => some (op, l)
  | _ => none

def Line.jump? : Line → Option CodeLabel
  | instruction (.branch l) => some l
  | _ => none

theorem Line.none_of_isStraight {line : Line} (h : line.isStraight = true) :
    line.label? = none ∧ line.conditional? = none ∧ line.jump? = none := by
  cases line with
  | label l => cases h
  | instruction i => cases i <;> cases h <;> exact ⟨rfl, rfl, rfl⟩
  | _ => exact ⟨rfl, rfl, rfl⟩

section Straight

variable {lines : List Line} (h : ∀ line ∈ lines, line.isStraight = true)
include h

theorem labelsIn_of_isStraight : labelsIn lines = [] :=
  List.filterMap_eq_nil_iff.mpr fun line hline => (Line.none_of_isStraight (h line hline)).1

theorem conditionals_of_isStraight : lines.filterMap Line.conditional? = [] :=
  List.filterMap_eq_nil_iff.mpr fun line hline => (Line.none_of_isStraight (h line hline)).2.1

theorem jumps_of_isStraight : lines.filterMap Line.jump? = [] :=
  List.filterMap_eq_nil_iff.mpr fun line hline => (Line.none_of_isStraight (h line hline)).2.2

end Straight

def labelsOf (n count : Nat) : List CodeLabel :=
  (List.range' (n + 1) count).flatMap fun i => [.beginOf i, .endOf i]

theorem labelsOf_append (n first rest : Nat) :
    labelsOf n first ++ labelsOf (n + first) rest = labelsOf n (first + rest) := by
  have hnext : n + first + 1 = n + 1 + first := by omega
  rw [labelsOf, labelsOf, labelsOf, ← List.flatMap_append, hnext, List.range'_append_1]

theorem labelsOf_succ (n count : Nat) :
    labelsOf n (count + 1) = .beginOf (n + 1) :: .endOf (n + 1) :: labelsOf (n + 1) count := rfl

namespace Arranged

variable {n : Nat} {cs : List Construct} {lines : List Line}

theorem labels_perm (h : Arranged n cs lines) : (labelsIn lines).Perm (labelsOf n cs.length) := by
  induction h with
  | straight hstraight =>
    rw [labelsIn_of_isStraight hstraight]
    exact .refl _
  | append _ _ ih ih' =>
    rw [labelsIn_append, List.length_append, ← labelsOf_append]
    exact ih.append ih'
  | @choice n cs ds op test body other htest _ _ ih ih' =>
    have hlabels : labelsIn (test ++ .instruction (.branchUnless op (.endOf (n + 1))) :: (body ++
        .instruction (.branch (.beginOf (n + 1))) :: .label (.endOf (n + 1)) ::
          (other ++ [.label (.beginOf (n + 1))]))) =
        labelsIn body ++ .endOf (n + 1) :: (labelsIn other ++ [.beginOf (n + 1)]) := by
      rw [labelsIn_append, labelsIn_of_isStraight htest]
      change labelsIn (body ++ _) = _
      rw [labelsIn_append]
      change _ ++ .endOf (n + 1) :: labelsIn (other ++ _) = _
      rw [labelsIn_append]
      rfl
    rw [hlabels, List.length_cons, labelsOf_succ, List.length_append, ← labelsOf_append]
    -- The end stands between the parts and the begin behind them, so both move to the front.
    calc labelsIn body ++ .endOf (n + 1) :: (labelsIn other ++ [.beginOf (n + 1)])
        _ = (labelsIn body ++ .endOf (n + 1) :: labelsIn other) ++ [.beginOf (n + 1)] := by simp
        List.Perm _ (.beginOf (n + 1) :: (labelsIn body ++ .endOf (n + 1) :: labelsIn other)) :=
          List.perm_append_singleton _ _
        List.Perm _ (.beginOf (n + 1) :: .endOf (n + 1) :: (labelsIn body ++ labelsIn other)) :=
          List.perm_middle.cons _
        List.Perm _ _ := ((ih.append ih').cons _).cons _
  | @loop n cs op test body htest _ ih =>
    have hlabels : labelsIn (.label (.beginOf (n + 1)) :: (test ++
        .instruction (.branchUnless op (.endOf (n + 1))) :: (body ++
          [.instruction (.branch (.beginOf (n + 1))), .label (.endOf (n + 1))]))) =
        .beginOf (n + 1) :: (labelsIn body ++ [.endOf (n + 1)]) := by
      change .beginOf (n + 1) :: labelsIn (test ++ _) = _
      rw [labelsIn_append, labelsIn_of_isStraight htest]
      change .beginOf (n + 1) :: labelsIn (body ++ _) = _
      rw [labelsIn_append]
      rfl
    rw [hlabels, List.length_cons, labelsOf_succ]
    exact ((List.perm_append_singleton _ _).trans (ih.cons _)).cons _

/-- The conditional branches leave the constructs in the order of their numbers. -/
theorem conditionals_eq (h : Arranged n cs lines) : lines.filterMap Line.conditional? =
    (cs.zipIdx (n + 1)).map fun (c, i) => (c.comparison, .endOf i) := by
  -- The branch of a construct comes before those of its parts, as its number does: no reordering.
  induction h with
  | straight hstraight => exact conditionals_of_isStraight hstraight
  | @append n cs ds first rest _ _ ih ih' =>
    have hnext : n + cs.length + 1 = n + 1 + cs.length := by omega
    rw [List.filterMap_append, ih, ih', List.zipIdx_append, List.map_append, hnext]
  | @choice n cs ds op test body other htest _ _ ih ih' =>
    have hnext : n + 1 + cs.length + 1 = n + 1 + 1 + cs.length := by omega
    have hend : [Line.label (.beginOf (n + 1))].filterMap Line.conditional? = [] := rfl
    rw [List.filterMap_append, conditionals_of_isStraight htest, List.zipIdx_cons,
      List.zipIdx_append, List.map_cons, List.map_append, ← ih, ← hnext, ← ih']
    change _ :: (body ++ _).filterMap Line.conditional? = _
    rw [List.filterMap_append]
    change _ :: (_ ++ (other ++ _).filterMap Line.conditional?) = _
    rw [List.filterMap_append, hend, List.append_nil]
    rfl
  | @loop n cs op test body htest _ ih =>
    have hend : [Line.instruction (.branch (.beginOf (n + 1))), .label (.endOf (n + 1))].filterMap
        Line.conditional? = [] := rfl
    change (test ++ _).filterMap Line.conditional? = _
    rw [List.filterMap_append, conditionals_of_isStraight htest, List.zipIdx_cons, List.map_cons,
      ← ih]
    change _ :: (body ++ _).filterMap Line.conditional? = _
    rw [List.filterMap_append, hend, List.append_nil]
    rfl

/-- Each construct is jumped to once, at its begin. -/
theorem jumps_perm (h : Arranged n cs lines) : (lines.filterMap Line.jump?).Perm
    ((List.range' (n + 1) cs.length).map .beginOf) := by
  induction h with
  | straight hstraight =>
    rw [jumps_of_isStraight hstraight]
    exact .refl _
  | @append n cs ds first rest _ _ ih ih' =>
    have hnext : n + cs.length + 1 = n + 1 + cs.length := by omega
    rw [List.filterMap_append, List.length_append, ← List.range'_append_1, List.map_append]
    rw [hnext] at ih'
    exact ih.append ih'
  | @choice n cs ds op test body other htest _ _ ih ih' =>
    have hnext : n + 1 + cs.length + 1 = n + 1 + 1 + cs.length := by omega
    have hend : [Line.label (.beginOf (n + 1))].filterMap Line.jump? = [] := rfl
    rw [hnext] at ih'
    rw [List.length_cons, List.range'_succ, List.length_append, ← List.range'_append_1,
      List.map_cons, List.map_append, List.filterMap_append, jumps_of_isStraight htest]
    change ((body ++ _).filterMap Line.jump?).Perm _
    rw [List.filterMap_append]
    change (_ ++ .beginOf (n + 1) :: (other ++ _).filterMap Line.jump?).Perm _
    rw [List.filterMap_append, hend, List.append_nil]
    exact List.perm_middle.trans ((ih.append ih').cons _)
  | @loop n cs op test body htest _ ih =>
    have hend : [Line.instruction (.branch (.beginOf (n + 1))), .label (.endOf (n + 1))].filterMap
        Line.jump? = [.beginOf (n + 1)] := rfl
    rw [List.length_cons, List.range'_succ, List.map_cons]
    change ((test ++ _).filterMap Line.jump?).Perm _
    rw [List.filterMap_append, jumps_of_isStraight htest]
    change ((body ++ _).filterMap Line.jump?).Perm _
    rw [List.filterMap_append, hend]
    exact (List.perm_append_singleton _ _).trans (ih.cons _)

theorem definition_notMem (h : Arranged n cs lines) (l : DataLabel) (literal : String) :
    .definition l literal ∉ lines := by
  induction h with
  | straight hstraight =>
    intro hmem
    cases hstraight _ hmem
  | append _ _ ih ih' => simp [ih, ih']
  | @choice n cs ds op test body other htest _ _ ih ih' =>
    have hnot : .definition l literal ∉ test := fun hmem => by cases htest _ hmem
    simp [ih, ih', hnot]
  | @loop n cs op test body htest _ ih =>
    have hnot : .definition l literal ∉ test := fun hmem => by cases htest _ hmem
    simp [ih, hnot]

end Arranged

/-! ## The lines that a construct spans -/

/-- The two labels of a construct with its number stand on these lines: a loop runs from its begin to
its end, and a choice has its end first, before the part behind the `else`. -/
def Construct.Spans (text : List Line) : Construct × Nat → Nat × Nat → Prop
  | (loop _, i), (first, last) => first < last ∧
    text[first]? = some (.label (.beginOf i)) ∧ text[last]? = some (.label (.endOf i))
  | (choice _, i), (first, last) => first < last ∧
    text[first]? = some (.label (.endOf i)) ∧ text[last]? = some (.label (.beginOf i))

/-- One interval lies inside the other, or they have no line in common. -/
def NestedOrApart (x y : Nat × Nat) : Prop :=
  x.2 < y.1 ∨ y.2 < x.1 ∨ (x.1 < y.1 ∧ y.2 < x.2) ∨ (y.1 < x.1 ∧ x.2 < y.2)

def shift (count : Nat) (x : Nat × Nat) : Nat × Nat :=
  (count + x.1, count + x.2)

theorem nestedOrApart_shift {count : Nat} {x y : Nat × Nat} (h : NestedOrApart x y) :
    NestedOrApart (shift count x) (shift count y) := by
  simp only [NestedOrApart, shift] at *
  omega

theorem getElem?_between {text : List Line} {i : Nat} {line : Line} (h : text[i]? = some line)
    (first rest : List Line) : (first ++ text ++ rest)[first.length + i]? = some line := by
  have hlt : i < text.length := (List.getElem?_eq_some_iff.mp h).1
  rw [List.append_assoc, List.getElem?_append_right (by omega), Nat.add_sub_cancel_left,
    List.getElem?_append_left hlt, h]

theorem Construct.Spans.between {text : List Line} {c : Construct × Nat} {x : Nat × Nat}
    (h : Construct.Spans text c x) (first rest : List Line) :
    Construct.Spans (first ++ text ++ rest) c (shift first.length x) := by
  obtain ⟨c, i⟩ := c
  have hlt : ∀ {a b : Nat}, a < b → first.length + a < first.length + b := by omega
  cases c <;>
    exact ⟨hlt h.1, getElem?_between h.2.1 first rest, getElem?_between h.2.2 first rest⟩

structure Extents (n : Nat) (cs : List Construct) (lines : List Line)
    (extents : List (Nat × Nat)) : Prop where
  spans : List.Forall₂ (Construct.Spans lines) (cs.zipIdx (n + 1)) extents
  within : ∀ x ∈ extents, x.2 < lines.length
  nested : extents.Pairwise NestedOrApart

namespace Extents

variable {n : Nat} {cs ds : List Construct} {lines first rest : List Line}
  {xs ys : List (Nat × Nat)}

theorem nil (n : Nat) (lines : List Line) : Extents n [] lines [] where
  spans := .nil
  within := by simp
  nested := .nil

theorem append (h : Extents n cs first xs) (h' : Extents (n + cs.length) ds rest ys) :
    Extents n (cs ++ ds) (first ++ rest) (xs ++ ys.map (shift first.length)) where
  spans := by
    have hnext : n + cs.length + 1 = n + 1 + cs.length := by omega
    have hrest := h'.spans
    rw [hnext] at hrest
    rw [List.zipIdx_append]
    refine List.rel_append (h.spans.imp ?_) (List.forall₂_map_right_iff.mpr (hrest.imp ?_))
    · intro c x hx
      simpa [shift] using hx.between [] rest
    · intro c x hx
      simpa using hx.between first []
  within := by
    intro x hx
    rw [List.length_append]
    rcases List.mem_append.mp hx with hx | hx
    · have := h.within x hx
      omega
    · obtain ⟨y, hy, rfl⟩ := List.mem_map.mp hx
      have := h'.within y hy
      simp only [shift]
      omega
  nested := by
    refine List.pairwise_append.mpr ⟨h.nested, ?_, ?_⟩
    · rw [List.pairwise_map]
      exact h'.nested.imp nestedOrApart_shift
    · intro x hx z hz
      obtain ⟨y, -, rfl⟩ := List.mem_map.mp hz
      have := h.within x hx
      left
      simp only [shift]
      omega

theorem cons {c : Construct} {x : Nat × Nat} (h : Extents (n + 1) cs lines xs)
    (hx : Construct.Spans lines (c, n + 1) x) (hlt : x.2 < lines.length)
    (hxs : ∀ y ∈ xs, NestedOrApart x y) : Extents n (c :: cs) lines (x :: xs) where
  spans := .cons hx h.spans
  within := List.forall_mem_cons.mpr ⟨hlt, h.within⟩
  nested := .cons hxs h.nested

end Extents

/-- Lines around the constructs leave them as they are, but for the count of those before. -/
theorem Extents.between {n : Nat} {cs : List Construct} {lines : List Line} {xs : List (Nat × Nat)}
    (h : Extents n cs lines xs) (first rest : List Line) :
    Extents n cs (first ++ (lines ++ rest)) (xs.map (shift first.length)) := by
  have hrest : Extents n cs (lines ++ rest) xs := by
    simpa using h.append (Extents.nil _ rest)
  simpa using (Extents.nil n first).append hrest

/-- The constructs in the body of a loop lie between its labels. -/
theorem Extents.loop {n : Nat} {cs : List Construct} {body : List Line} {xs : List (Nat × Nat)}
    (h : Extents (n + 1) cs body xs) (op : Comparison) (first rest : List Line) :
    ∃ ys, Extents n (.loop op :: cs) (.label (.beginOf (n + 1)) ::
      (first ++ (body ++ (rest ++ [.label (.endOf (n + 1))])))) ys := by
  have hbody := h.between (.label (.beginOf (n + 1)) :: first) (rest ++ [.label (.endOf (n + 1))])
  refine ⟨(0, first.length + (body.length + rest.length) + 1) :: _, .cons hbody
    ⟨Nat.succ_pos _, rfl, by simp⟩ ?_ ?_⟩
  · simp only [List.length_append, List.length_cons, List.length_nil]
    omega
  · intro z hz
    obtain ⟨y, hy, rfl⟩ := List.mem_map.mp hz
    have hlt := h.within y hy
    right; right; left
    simp only [shift, List.length_cons]
    omega

/-- The constructs in the first part of a choice end before its labels, and those behind the `else`
lie between them. -/
theorem Extents.choice {n : Nat} {cs ds : List Construct} {body other : List Line}
    {xs ys : List (Nat × Nat)} (h : Extents (n + 1) cs body xs)
    (h' : Extents (n + 1 + cs.length) ds other ys) (op : Comparison) (first rest : List Line) :
    ∃ zs, Extents n (.choice op :: (cs ++ ds)) (first ++ (body ++ (rest ++
      .label (.endOf (n + 1)) :: (other ++ [.label (.beginOf (n + 1))])))) zs := by
  have hbody := h.between first rest
  have hother := h'.between [.label (.endOf (n + 1))] [.label (.beginOf (n + 1))]
  have hparts := hbody.append hother
  rw [List.append_assoc, List.append_assoc] at hparts
  refine ⟨(first.length + (body.length + rest.length),
    first.length + (body.length + (rest.length + (other.length + 1)))) :: _, .cons hparts
    ⟨by omega, by simp, by simp⟩ ?_ ?_⟩
  · simp only [List.length_append, List.length_cons, List.length_nil]
    omega
  · intro z hz
    rcases List.mem_append.mp hz with hz | hz
    · obtain ⟨y, hy, rfl⟩ := List.mem_map.mp hz
      have hlt := h.within y hy
      right; left
      simp only [shift]
      omega
    · obtain ⟨_, hmem, rfl⟩ := List.mem_map.mp hz
      obtain ⟨y, hy, rfl⟩ := List.mem_map.mp hmem
      have hlt := h'.within y hy
      right; right; left
      simp only [shift, List.length_append, List.length_singleton]
      omega

theorem Arranged.exists_extents {n : Nat} {cs : List Construct} {lines : List Line}
    (h : Arranged n cs lines) : ∃ xs, Extents n cs lines xs := by
  induction h with
  | straight => exact ⟨[], .nil _ _⟩
  | append _ _ ih ih' =>
    obtain ⟨xs, hxs⟩ := ih
    obtain ⟨ys, hys⟩ := ih'
    exact ⟨_, hxs.append hys⟩
  | @choice n cs ds op test body other _ _ _ ih ih' =>
    obtain ⟨xs, hxs⟩ := ih
    obtain ⟨ys, hys⟩ := ih'
    have hchoice := hxs.choice hys op (test ++ [.instruction (.branchUnless op (.endOf (n + 1)))])
      [.instruction (.branch (.beginOf (n + 1)))]
    rw [List.append_assoc] at hchoice
    exact hchoice
  | @loop n cs op test body _ _ ih =>
    obtain ⟨xs, hxs⟩ := ih
    have hloop := hxs.loop op (test ++ [.instruction (.branchUnless op (.endOf (n + 1)))])
      [.instruction (.branch (.beginOf (n + 1)))]
    rw [List.append_assoc] at hloop
    exact hloop

/-! ## Constructs in the source -/

def constructKinds : List Terminal :=
  [.ifWord, .whileWord, .relationalOp]

theorem Expression.ofKinds_constructKinds (e : Expression) :
    ofKinds constructKinds e.tokens = [] :=
  e.ofKinds_tokens (by decide)

theorem Condition.ofKinds_constructKinds (c : Condition) :
    ofKinds constructKinds c.tokens = [.relational c.op] := by
  have hop : (Token.relational c.op).kind ∈ constructKinds := by
    simp [Token.relational, constructKinds]
  rw [Condition.tokens, ofKinds_append, ofKinds_cons_of_mem hop, c.left.ofKinds_constructKinds,
    c.right.ofKinds_constructKinds]
  rfl

mutual

/-- Every construct of a tree is spelt by its word and its relational operator, in this order. -/
theorem Statement.ofKinds_constructKinds : ∀ s : Statement,
    ofKinds constructKinds s.tokens = s.constructs.flatMap Construct.tokens
  | .assign x e => e.ofKinds_constructKinds
  | .ifThen c s => by
    rw [Statement.tokens, ofKinds_cons_of_mem (by decide), ofKinds_append,
      ofKinds_cons_of_not_mem (by decide), c.ofKinds_constructKinds, s.ofKinds_constructKinds]
    rfl
  | .ifElse c s t => by
    rw [Statement.tokens, ofKinds_cons_of_mem (by decide), ofKinds_append,
      ofKinds_cons_of_not_mem (by decide), ofKinds_append, ofKinds_cons_of_not_mem (by decide),
      c.ofKinds_constructKinds, s.ofKinds_constructKinds, t.ofKinds_constructKinds,
      ← List.flatMap_append]
    rfl
  | .whileDo c s => by
    rw [Statement.tokens, ofKinds_cons_of_mem (by decide), ofKinds_append,
      ofKinds_cons_of_not_mem (by decide), c.ofKinds_constructKinds, s.ofKinds_constructKinds]
    rfl
  | .print e => e.ofKinds_constructKinds
  | .printText _ => rfl
  | .block b => by
    rw [Statement.tokens, ofKinds_cons_of_not_mem (by decide), ofKinds_append,
      b.ofKinds_constructKinds]
    exact List.append_nil _
  | .declare _ => rfl
  | .skip => rfl

theorem Sequence.ofKinds_constructKinds : ∀ b : Sequence,
    ofKinds constructKinds b.tokens = b.constructs.flatMap Construct.tokens
  | .last s => s.ofKinds_constructKinds
  | .more s b => by
    rw [Sequence.tokens, ofKinds_append, ofKinds_cons_of_not_mem (by decide),
      s.ofKinds_constructKinds, b.ofKinds_constructKinds, Sequence.constructs, List.flatMap_append]

end

theorem ofKinds_words {tokens : List Token} {cs : List Construct}
    (h : ofKinds constructKinds tokens = cs.flatMap Construct.tokens) :
    ofKinds [.ifWord, .whileWord] tokens = cs.map Construct.word := by
  have hfilter : ofKinds [.ifWord, .whileWord] tokens =
      ofKinds [.ifWord, .whileWord] (ofKinds constructKinds tokens) := by
    rw [ofKinds, ofKinds, ofKinds, List.filter_filter]
    congr 1
    funext t
    by_cases ht : t.kind ∈ [Terminal.ifWord, .whileWord] <;> simp_all [constructKinds]
    rcases ht with ht | ht <;> simp [ht]
  rw [hfilter, h]
  clear hfilter h
  induction cs with
  | nil => rfl
  | cons c cs ih =>
    rw [List.flatMap_cons, ofKinds_append, ih]
    cases c <;> rfl

/-! ## Programs -/

theorem CodeLabel.render_injective : Function.Injective CodeLabel.render := by
  intro a b h
  have hchars := congrArg String.toList h
  cases a with
  | main =>
    cases b with
    | main => rfl
    | _ => simp [CodeLabel.render] at hchars
  | beginOf i =>
    cases b with
    | beginOf j => rw [Nat.repr_inj.mp ((String.append_right_inj _).mp h)]
    | _ => simp [CodeLabel.render] at hchars
  | endOf i =>
    cases b with
    | endOf j => rw [Nat.repr_inj.mp ((String.append_right_inj _).mp h)]
    | _ => simp [CodeLabel.render] at hchars

theorem mem_labelsOf {n count i : Nat} (hlt : n < i) (hle : i ≤ n + count) :
    CodeLabel.beginOf i ∈ labelsOf n count ∧ CodeLabel.endOf i ∈ labelsOf n count := by
  have hi : i ∈ List.range' (n + 1) count := List.mem_range'_1.mpr (by omega)
  exact ⟨List.mem_flatMap_of_mem hi (by simp), List.mem_flatMap_of_mem hi (by simp)⟩

structure Labelled (cs : List Construct) (text : List Line) : Prop where
  /-- The text defines `main` and the two labels of every construct, and nothing else. -/
  labels : (labelsIn text).Perm (.main :: labelsOf 0 cs.length)
  /-- No two definitions read alike. -/
  distinct : ((labelsIn text).map CodeLabel.render).Nodup
  /-- Every construct has one conditional branch, to its end, on its own comparison. -/
  conditional : text.filterMap Line.conditional? =
    (cs.zipIdx 1).map fun (c, i) => (c.comparison, .endOf i)
  /-- Every construct has one unconditional branch, to its begin. -/
  unconditional : (text.filterMap Line.jump?).Perm ((List.range' 1 cs.length).map .beginOf)
  /-- Every branch has a place to go to. -/
  defined : ∀ line ∈ text, ∀ l : CodeLabel,
    (∃ op, line.conditional? = some (op, l)) ∨ line.jump? = some l → l ∈ labelsIn text
  /-- Each construct spans the lines between its labels, and these intervals never overlap in part. -/
  nested : ∃ extents, List.Forall₂ (Construct.Spans text) (cs.zipIdx 1) extents ∧
    extents.Pairwise NestedOrApart
  definition_notMem : ∀ l literal, .definition l literal ∉ text

/-- The opening lines add `main` to the labels and nothing to the branches. -/
theorem filterMap_text {α : Type} (f : Line → Option α) (hclosing : closingText.filterMap f = [])
    (code : List Line) :
    (openingText ++ code ++ closingText).filterMap f =
      openingText.filterMap f ++ code.filterMap f := by
  rw [List.filterMap_append, List.filterMap_append, hclosing, List.append_nil]

theorem Sequence.labelled {literals : List String} {tree : Sequence} {x : List Line × Progress}
    (h : tree.code literals {} = some x) :
    Labelled tree.constructs (openingText ++ x.1 ++ closingText) := by
  have harranged : Arranged 0 tree.constructs x.1 := (tree.arranged h).1
  have hlabels : (labelsIn (openingText ++ x.1 ++ closingText)).Perm
      (.main :: labelsOf 0 tree.constructs.length) := by
    rw [labelsIn, filterMap_text Line.label? rfl]
    exact harranged.labels_perm.cons _
  have hconditional := (filterMap_text Line.conditional? rfl x.1).trans harranged.conditionals_eq
  have hjumps : ((openingText ++ x.1 ++ closingText).filterMap Line.jump?).Perm
      ((List.range' 1 tree.constructs.length).map .beginOf) := by
    rw [filterMap_text Line.jump? rfl]
    exact harranged.jumps_perm
  refine ⟨hlabels, ?_, hconditional, hjumps, ?_, ?_, ?_⟩
  · exact (Sequence.nodup_labelsIn_text h).map CodeLabel.render_injective
  · intro line hline l hl
    rw [hlabels.mem_iff]
    apply List.mem_cons_of_mem
    rcases hl with ⟨op, hl⟩ | hl
    · have hmem := List.mem_filterMap.mpr ⟨line, hline, hl⟩
      rw [hconditional] at hmem
      obtain ⟨⟨c, i⟩, hc, he⟩ := List.mem_map.mp hmem
      cases he
      have hbounds := List.mem_zipIdx hc
      exact (mem_labelsOf (by omega) (by omega)).2
    · have hmem := hjumps.mem_iff.mp (List.mem_filterMap.mpr ⟨line, hline, hl⟩)
      obtain ⟨i, hi, rfl⟩ := List.mem_map.mp hmem
      have hbounds := List.mem_range'_1.mp hi
      exact (mem_labelsOf (by omega) (by omega)).1
  · obtain ⟨xs, hxs⟩ := harranged.exists_extents
    have htext := hxs.between openingText closingText
    rw [← List.append_assoc] at htext
    exact ⟨_, htext.spans, htext.nested⟩
  · intro l literal
    simp [openingText, closingText, harranged.definition_notMem]

end AnyDistance

end OnePass
