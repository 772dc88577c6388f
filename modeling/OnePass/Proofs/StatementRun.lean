import Mathlib.Data.List.Induction
import Mathlib.Tactic.Common
import OnePass.Proofs.ExpressionRun
import OnePass.Session.Moves

/-! # Running through a program

From a snapshot whose tokens begin with a resolved statement, the moves emit the code of that
statement and stop in front of the token behind it; if the statement has no code, they end in a
refusal. An `if` without `else` is told from one with it by the token behind it.
-/
namespace OnePass

open Snapshot

def afterStatement : List Terminal :=
  [.elseWord, .endWord, .separator, .endOfInput]

theorem mem_afterExpression {t : Terminal} (h : t ∈ afterStatement) : t ∈ afterExpression := by
  simp only [afterStatement, afterExpression, List.mem_cons] at h ⊢
  tauto

def internAll (literals added : List String) : List String :=
  added.foldl intern literals

def Snapshot.executed (v : Snapshot) (added : List String) (control : List GrammarSymbol)
    (tokens : List Token) (result : List Line × Progress) : Snapshot :=
  emit
    { v with
      control
      tokens
      declared := result.2.declared
      labelCount := result.2.labels
      literals := internAll v.literals added }
    result.1

def Snapshot.progress (v : Snapshot) : Progress := ⟨v.declared, v.labelCount⟩

def Statement.Runs (s : Statement) : Prop :=
  ∀ (literals : List String) (v : Snapshot) (control : List GrammarSymbol) (u : Token)
    (rest : List Token),
    v.control = .nonterminal .statement :: control → v.tokens = s.tokens ++ u :: rest →
    u.kind ∈ afterStatement → (s.isOpen = true → u.kind ≠ .elseWord) →
    v.operands = [] → internAll v.literals s.literals <+: literals →
    Leads v ((s.code literals v.progress).map (v.executed s.literals control (u :: rest)))

/-- Running through the statements of a sequence, the first symbol of it being expanded. -/
def Sequence.Runs (b : Sequence) : Prop :=
  ∀ (literals : List String) (v : Snapshot) (control : List GrammarSymbol) (u : Token)
    (rest : List Token),
    v.control = .nonterminal .statement :: .nonterminal .separatedList :: control →
    v.tokens = b.tokens ++ u :: rest → u.kind ∈ [Terminal.endWord, .endOfInput] →
    v.operands = [] → internAll v.literals b.literals <+: literals →
    Leads v ((b.code literals v.progress).map (v.executed b.literals control (u :: rest)))

theorem Expression.leads {e : Expression} (h : e.Resolved) {v : Snapshot} {k : Nat}
    {control : List GrammarSymbol} {u : Token} {rest : List Token}
    (hk : Value.pending v.operands = k) (hc : v.control = .nonterminal .expression :: control)
    (ht : v.tokens = e.tokens ++ u :: rest) (hu : u.kind ∈ afterExpression) :
    Leads v ((e.expr.code v.declared k).map (v.evaluated e.expr control (u :: rest))) := by
  rw [← hk]
  exact (e.runs h).leads hc ht hu

/-! ## Conditions -/

theorem leads_comparison {v : Snapshot} {control : List GrammarSymbol}
    {operators : List Operator} {labels : List Nat} {n : Nat} {rest : List Value}
    {op : Comparison} {l r : Expr} (hc : v.control = .action .compute :: control)
    (ho : v.operators = .comparison op :: operators)
    (hv : v.operands = r.value :: l.value :: rest) (hl : v.labels = n :: labels) :
    Leads v ((Value.operands? v.declared [] (Value.pending rest) l.value r.value).bind fun x =>
      some (emit { v with control, operators, operands := rest }
        (instructions (x.1 ++ [.compare x.2.1 x.2.2, .branchUnless op (.endOf n)])))) := by
  refine .accepted hc ?_
  simp only [step, perform, compute, ho, hv, hl, Expr.operands?_value]
  rfl

theorem Condition.leads {c : Condition} (h : c.Resolved) {v : Snapshot}
    {control : List GrammarSymbol} {labels : List Nat} {n : Nat} {u : Token} {rest : List Token}
    (hc : v.control = .nonterminal .booleanExpression :: control)
    (ht : v.tokens = c.tokens ++ u :: rest) (hu : u.kind ∈ [Terminal.thenWord, .doWord])
    (ho : v.operands = []) (hl : v.labels = n :: labels) :
    Leads v ((c.code v.declared n).map fun code =>
      emit { v with control, tokens := u :: rest } code) := by
  obtain ⟨start, more, hstart, hk⟩ := c.left.exists_start
  have htokens : v.tokens =
      c.left.tokens ++ .relational c.op :: (c.right.tokens ++ u :: rest) := by
    rw [ht, Condition.tokens, List.append_assoc, List.cons_append]
  have hfirst : v.tokens =
      start :: (more ++ .relational c.op :: (c.right.tokens ++ u :: rest)) := by
    rw [htokens, hstart]
    rfl
  have hrule : ∀ t ∈ operandStarts, languageTable.rule? .booleanExpression t =
      some ⟨.booleanExpression, [Nonterminal.expression, Terminal.relationalOp,
        Action.pushOperator, Nonterminal.expression, Action.compute]⟩ := by decide
  have hright : u.kind ∈ afterExpression := by
    simp only [afterExpression, List.mem_cons] at hu ⊢
    tauto
  rw [Condition.code_eq]
  refine .expand _ ?_ hc hfirst (hrule _ hk)
  refine .bind_map (c.left.leads h.1 (by simp [ho, Value.pending]) rfl htokens
    (by simp [afterExpression, Token.relational])) fun left _ => ?_
  refine .matched ?_ rfl rfl (shift_relational c.op) (by simp [Token.relational]) (by simp)
  refine .action ?_ rfl rfl
  refine .bind_map (c.right.leads h.2 (by simp [evaluated, emit, ho, Value.pending]) rfl rfl hright)
    fun right _ => ?_
  refine Leads.of_eq (leads_comparison rfl rfl rfl hl) ?_
  simp [evaluated, emit, ho, Value.pending, map_bind_apply, -Option.map_bind]

/-! ## Stores and prints -/

theorem leads_store {v : Snapshot} {control : List GrammarSymbol} {operators : List Operator}
    {x : String} {rest : List Value} {e : Expr} (hc : v.control = .action .store :: control)
    (ho : v.operators = .assign :: operators) (hv : v.operands = e.value :: .var x :: rest) :
    Leads v ((slot? v.declared x).bind fun slot =>
      (e.value.operand? v.declared [] (Value.pending rest)).bind fun y =>
        some (emit { v with control, operators, operands := rest }
          (instructions (y.1 ++ [.storeVariable y.2 slot])))) := by
  refine .accepted hc ?_
  simp only [step, perform, store, ho, hv, Expr.operand?_value]
  rfl

theorem leads_print {v : Snapshot} {control : List GrammarSymbol} {value : Value}
    {rest : List Value} (hc : v.control = .action .callPrint :: control)
    (hv : v.operands = value :: rest) :
    Leads v ((value.operand? v.declared v.literals (Value.pending rest)).bind fun y =>
      some (emit { v with control, operands := rest }
        (instructions (y.1 ++ printCall y.2)))) := by
  refine .accepted hc ?_
  simp only [step, perform, callPrint, hv]
  rfl

/-! ## String constants -/

theorem prefix_internAll (literals added : List String) : literals <+: internAll literals added := by
  induction added generalizing literals with
  | nil => exact List.prefix_refl _
  | cons l added ih => exact (prefix_intern literals l).trans (ih _)

theorem internAll_append (literals xs ys : List String) :
    internAll literals (xs ++ ys) = internAll (internAll literals xs) ys :=
  List.foldl_append

theorem internAll_nil_eq (added : List String) : internAll [] added = added.eraseDups := by
  induction added using List.reverseRecOn with
  | nil => rfl
  | append_singleton xs x ih =>
    rw [internAll_append, ih, List.eraseDups_append]
    change intern _ x = _
    by_cases h : x ∈ xs <;> simp [intern, List.removeAll, h, List.mem_eraseDups, List.eraseDups_cons]

/-- A string constant keeps its label when further ones are added. -/
theorem operand?_text_of_extended (declared : List String) (k : Nat)
    {known literals : List String} {literal : String} (h : known <+: literals) (hm : literal ∈ known) :
    (Value.text literal).operand? declared known k =
      (Value.text literal).operand? declared literals k := by
  obtain ⟨more, rfl⟩ := h
  simp only [Value.operand?, Value.load?, literalLabel?, idxOf?_append_left hm]

/-! ## Where statements begin -/

def statementStarts : List Terminal :=
  [.variableWord, .printWord, .ifWord, .whileWord, .beginWord, .identifier]

theorem Statement.tokens_start (s : Statement) :
    s.tokens = [] ∨ ∃ t rest, s.tokens = t :: rest ∧ t.kind ∈ statementStarts := by
  cases s with
  | skip => exact .inl rfl
  | _ => exact .inr ⟨_, _, rfl, by simp [statementStarts]⟩

theorem Sequence.exists_start (b : Sequence) (u : Token) (rest : List Token) :
    ∃ t more, b.tokens ++ u :: rest = t :: more ∧ t.kind ∈ u.kind :: .separator :: statementStarts := by
  cases b with
  | last s =>
    obtain hs | ⟨t, more, hs, ht⟩ := s.tokens_start
    · exact ⟨u, rest, by simp [Sequence.tokens, hs], by simp⟩
    · exact ⟨t, more ++ u :: rest, by simp [Sequence.tokens, hs], by simp [ht]⟩
  | more s b =>
    obtain hs | ⟨t, more, hs, ht⟩ := s.tokens_start
    · exact ⟨⟨.separator, ";"⟩, b.tokens ++ u :: rest, by simp [Sequence.tokens, hs], by simp⟩
    · exact ⟨t, more ++ ⟨.separator, ";"⟩ :: b.tokens ++ u :: rest,
        by simp [Sequence.tokens, hs], by simp [ht]⟩

theorem rule?_statement_empty : ∀ t ∈ afterStatement, languageTable.rule? .statement t =
    some ⟨.statement, []⟩ := by
  decide

theorem rule?_elseClause_empty : ∀ t ∈ afterStatement, t ≠ .elseWord →
    languageTable.rule? .elseClause t = some ⟨.elseClause, []⟩ := by
  decide

theorem rule?_separatedList_empty : ∀ t ∈ [Terminal.endWord, .endOfInput],
    languageTable.rule? .separatedList t = some ⟨.separatedList, []⟩ := by
  decide

theorem rule?_statementList : ∀ t ∈ Terminal.endWord :: .separator :: statementStarts,
    languageTable.rule? .statementList t =
      some ⟨.statementList, [Nonterminal.statement, Nonterminal.separatedList]⟩ := by
  decide

theorem rule?_program : ∀ t ∈ Terminal.endOfInput :: .separator :: statementStarts,
    languageTable.rule? .program t =
      some ⟨.program, [Nonterminal.statement, Nonterminal.separatedList]⟩ := by
  decide

/-! ## Whole statements -/

/-- What stands behind the body of an `if` when its `else` has been dealt with. -/
theorem leads_closing {v : Snapshot} {control : List GrammarSymbol} {labels : List Nat} {n : Nat}
    (hc : v.control = .action .placeBegin :: .action .closeLabels :: .action .clearRegisters ::
      control)
    (hl : v.labels = n :: labels) (ho : v.operands = []) :
    Leads v (some (emit { v with control, labels } [.label (.beginOf n)])) := by
  have hplace : perform
      { v with control := .action .closeLabels :: .action .clearRegisters :: control } .placeBegin =
      .ok (emit { v with control := .action .closeLabels :: .action .clearRegisters :: control }
        [.label (.beginOf n)]) := by
    simp [perform, emitFor, hl]
  have hclose : perform
      (emit { v with control := .action .clearRegisters :: control } [.label (.beginOf n)])
      .closeLabels =
      .ok (emit { v with control := .action .clearRegisters :: control, labels }
        [.label (.beginOf n)]) := by
    simp [perform, emit, hl]
  refine .action (.action (.action .here rfl ?_) rfl hclose) hc hplace
  simp [perform, emit, ho, Value.pending]

theorem Statement.runs_assign (x : String) {e : Expression} (h : e.Resolved) :
    (Statement.assign x e).Runs := by
  intro literals v control u rest hc ht hu _ ho _
  rw [Statement.code_assign]
  refine .expand [Terminal.identifier, Terminal.assignOp, Nonterminal.expression,
    Action.store] ?_ hc ht (by rfl)
  refine .matched ?_ rfl ht rfl (by simp) (by simp)
  refine .matched ?_ rfl rfl rfl (by simp) (by simp)
  refine .bind_map (e.leads h (by simp [ho, Value.pending, Value.held]) rfl rfl
    (mem_afterExpression hu)) fun code _ => ?_
  refine Leads.of_eq (leads_store rfl rfl rfl) ?_
  simp [executed, evaluated, emit, ho, Value.pending, progress, Statement.literals, internAll,
    map_bind_apply, -Option.map_bind]

theorem Statement.runs_print {e : Expression} (h : e.Resolved) : (Statement.print e).Runs := by
  intro literals v control u rest hc ht hu _ ho _
  rw [Statement.code_print]
  obtain ⟨start, more, hstart, hk⟩ := e.exists_start
  have hrule : ∀ t ∈ operandStarts, languageTable.rule? .printExpression t =
      some ⟨.printExpression, [Nonterminal.expression, Action.integerFormat]⟩ := by decide
  refine .expand [Terminal.printWord, Nonterminal.printExpression, Action.callPrint] ?_ hc ht
    (by rfl)
  refine .matched ?_ rfl ht rfl (by simp) (by simp)
  refine .expand _ ?_ rfl (by rw [hstart]; rfl) (hrule _ hk)
  refine .bind_map (e.leads h (by simp [ho, Value.pending]) rfl rfl (mem_afterExpression hu))
    fun code _ => ?_
  refine .action ?_ rfl rfl
  refine Leads.of_eq (leads_print rfl rfl) ?_
  simp [executed, evaluated, emit, ho, Value.pending, progress, Statement.literals, internAll,
    Expr.operand?_value, instructions, map_bind_apply, -Option.map_bind]

theorem Statement.runs_printText (literal : String) : (Statement.printText literal).Runs := by
  intro literals v control u rest hc ht hu _ ho hlit
  rw [Statement.code_printText]
  refine .expand [Terminal.printWord, Nonterminal.printExpression, Action.callPrint] ?_ hc ht
    (by rfl)
  refine .matched ?_ rfl ht rfl (by simp) (by simp)
  refine .expand [Terminal.stringConst, Action.stringFormat] ?_ rfl rfl (by rfl)
  refine .matched ?_ rfl rfl rfl (by simp) (by simp)
  refine .action ?_ rfl rfl
  refine Leads.of_eq (leads_print rfl rfl) ?_
  have hlabel := operand?_text_of_extended v.declared 0 hlit (mem_intern v.literals literal)
  simp [executed, emit, ho, Value.pending, progress, Statement.literals, internAll,
    instructions, ← hlabel, map_bind_apply, -Option.map_bind]

theorem Statement.runs_declare (x : String) : (Statement.declare x).Runs := by
  intro literals v control u rest hc ht hu _ ho _
  refine .expand [Terminal.variableWord, Terminal.identifier, Action.declare] ?_ hc ht (by rfl)
  refine .matched ?_ rfl ht rfl (by simp) (by simp)
  refine .matched ?_ rfl rfl rfl (by simp) (by simp)
  refine Leads.of_eq (.accepted rfl rfl) ?_
  by_cases hx : x ∈ v.declared <;>
    simp [Statement.code, executed, emit, hx, ho, progress, Statement.literals, internAll]

theorem Statement.runs_skip : Statement.skip.Runs := by
  intro literals v control u rest hc ht hu _ ho _
  refine .expand [] ?_ hc ht (rule?_statement_empty _ hu)
  have htokens : v.tokens = u :: rest := ht
  refine Leads.of_eq .here ?_
  simp [Statement.code, executed, emit, htokens, progress, Statement.literals, internAll]

theorem Statement.runs_block {b : Sequence} (hb : b.Runs) : (Statement.block b).Runs := by
  intro literals v control u rest hc ht hu _ ho hlit
  have htokens : v.tokens =
      ⟨.beginWord, "begin"⟩ :: (b.tokens ++ ⟨.endWord, "end"⟩ :: u :: rest) := by
    simp [ht, Statement.tokens]
  obtain ⟨start, more, hstart, hk⟩ := b.exists_start ⟨.endWord, "end"⟩ (u :: rest)
  refine .expand [Terminal.beginWord, Nonterminal.statementList, Terminal.endWord] ?_ hc htokens
    (by rfl)
  refine .matched ?_ rfl htokens rfl (by simp) (by simp)
  refine .expand _ ?_ rfl hstart (rule?_statementList _ hk)
  refine .map (hb literals _ _ _ _ rfl rfl (by simp) ho hlit) fun result _ => ?_
  exact .matched .here rfl rfl rfl (by simp) (by simp)

theorem Statement.runs_ifThen {c : Condition} {s : Statement} (h : c.Resolved) (hs : s.Runs) :
    (Statement.ifThen c s).Runs := by
  intro literals v control u rest hc ht hu hopen ho hlit
  rw [Statement.code_ifThen]
  have hne : u.kind ≠ .elseWord := hopen rfl
  have htokens : v.tokens = ⟨.ifWord, "if"⟩ ::
      (c.tokens ++ ⟨.thenWord, "then"⟩ :: (s.tokens ++ u :: rest)) := by
    simp [ht, Statement.tokens]
  refine .expand [Terminal.ifWord, Action.openLabels, Nonterminal.booleanExpression,
    Terminal.thenWord, Nonterminal.statement, Action.jumpBegin, Action.placeEnd,
    Nonterminal.elseClause, Action.placeBegin, Action.closeLabels,
    Action.clearRegisters] ?_ hc htokens (by rfl)
  refine .matched ?_ rfl htokens rfl (by simp) (by simp)
  refine .action ?_ rfl rfl
  refine .bind_map (c.leads h rfl rfl (by simp) ho rfl) fun condition _ => ?_
  refine .matched ?_ rfl rfl rfl (by simp) (by simp)
  refine .bind_map (hs literals _ _ u rest rfl rfl hu (fun _ => hne) ho hlit)
    fun body _ => ?_
  refine .action ?_ rfl rfl
  refine .action ?_ rfl rfl
  refine .expand [] ?_ rfl rfl (rule?_elseClause_empty _ hu hne)
  refine Leads.of_eq (leads_closing rfl rfl ho) ?_
  simp [executed, emit, progress, Statement.literals]

theorem Statement.runs_ifElse {c : Condition} {s t : Statement} (h : c.Resolved) (hs : s.Runs)
    (hclosed : s.isOpen = false) (ht' : t.Runs) : (Statement.ifElse c s t).Runs := by
  intro literals v control u rest hc ht hu hopen ho hlit
  rw [Statement.code_ifElse]
  have htokens : v.tokens = ⟨.ifWord, "if"⟩ :: (c.tokens ++ ⟨.thenWord, "then"⟩ ::
      (s.tokens ++ ⟨.elseWord, "else"⟩ :: (t.tokens ++ u :: rest))) := by
    simp [ht, Statement.tokens]
  rw [Statement.literals, internAll_append] at hlit
  refine .expand [Terminal.ifWord, Action.openLabels, Nonterminal.booleanExpression,
    Terminal.thenWord, Nonterminal.statement, Action.jumpBegin, Action.placeEnd,
    Nonterminal.elseClause, Action.placeBegin, Action.closeLabels,
    Action.clearRegisters] ?_ hc htokens (by rfl)
  refine .matched ?_ rfl htokens rfl (by simp) (by simp)
  refine .action ?_ rfl rfl
  refine .bind_map (c.leads h rfl rfl (by simp) ho rfl) fun condition _ => ?_
  refine .matched ?_ rfl rfl rfl (by simp) (by simp)
  refine .bind_map (hs literals _ _ _ _ rfl rfl (by simp [afterStatement])
    (by simp [hclosed]) ho ((prefix_internAll _ _).trans hlit)) fun body _ => ?_
  refine .action ?_ rfl rfl
  refine .action ?_ rfl rfl
  refine .expand [Terminal.elseWord, Nonterminal.statement] ?_ rfl rfl (by rfl)
  refine .matched ?_ rfl rfl rfl (by simp) (by simp)
  refine .bind_map (ht' literals _ _ u rest rfl rfl hu hopen ho hlit)
    fun other _ => ?_
  refine Leads.of_eq (leads_closing rfl rfl ho) ?_
  simp [executed, emit, progress, Statement.literals, internAll_append]

theorem Statement.runs_whileDo {c : Condition} {s : Statement} (h : c.Resolved) (hs : s.Runs) :
    (Statement.whileDo c s).Runs := by
  intro literals v control u rest hc ht hu hopen ho hlit
  rw [Statement.code_whileDo]
  have htokens : v.tokens = ⟨.whileWord, "while"⟩ ::
      (c.tokens ++ ⟨.doWord, "do"⟩ :: (s.tokens ++ u :: rest)) := by
    simp [ht, Statement.tokens]
  refine .expand [Terminal.whileWord, Action.openLabels, Action.placeBegin,
    Action.clearRegisters, Nonterminal.booleanExpression, Terminal.doWord,
    Nonterminal.statement, Action.jumpBegin, Action.placeEnd, Action.closeLabels,
    Action.clearRegisters] ?_ hc htokens (by rfl)
  refine .matched ?_ rfl htokens rfl (by simp) (by simp)
  refine .action ?_ rfl rfl
  refine .action ?_ rfl rfl
  refine .action ?_ rfl (if_pos (by simp [emit, ho, Value.pending]))
  refine .bind_map (c.leads h rfl rfl (by simp) ho rfl) fun condition _ => ?_
  refine .matched ?_ rfl rfl rfl (by simp) (by simp)
  refine .bind_map (hs literals _ _ u rest rfl rfl hu hopen ho hlit) fun body _ => ?_
  refine .action ?_ rfl rfl
  refine .action ?_ rfl rfl
  refine .action ?_ rfl rfl
  refine .action .here rfl ?_
  simp [perform, executed, emit, ho, progress, Statement.literals, Value.pending]

theorem Sequence.runs_last {s : Statement} (hs : s.Runs) : (Sequence.last s).Runs := by
  intro literals v control u rest hc ht hu ho hlit
  have hu' : u.kind ∈ afterStatement := by
    simp only [afterStatement, List.mem_cons] at hu ⊢
    tauto
  have hne : u.kind ≠ .elseWord := by
    intro he
    simp [he] at hu
  change Leads v ((s.code literals v.progress).map _)
  refine .map (hs literals v _ u rest hc ht hu' (fun _ => hne) ho hlit) fun result _ => ?_
  exact .expand _ .here rfl rfl (rule?_separatedList_empty _ hu)

theorem Sequence.runs_more {s : Statement} {b : Sequence} (hs : s.Runs) (hb : b.Runs) :
    (Sequence.more s b).Runs := by
  intro literals v control u rest hc ht hu ho hlit
  have htokens : v.tokens = s.tokens ++ ⟨.separator, ";"⟩ :: (b.tokens ++ u :: rest) := by
    simp [ht, Sequence.tokens]
  rw [Sequence.literals, internAll_append] at hlit
  rw [Sequence.code_more]
  refine .bind_map (hs literals v _ _ _ hc htokens (by simp [afterStatement]) (by simp) ho
    ((prefix_internAll _ _).trans hlit)) fun first _ => ?_
  refine .expand [Terminal.separator, Nonterminal.statement, Nonterminal.separatedList] ?_ rfl rfl
    (by rfl)
  refine .matched ?_ rfl rfl rfl (by simp) (by simp)
  refine .bind_map (hb literals _ _ u rest rfl rfl hu ho hlit) fun others _ => ?_
  refine Leads.of_eq .here ?_
  simp [executed, emit, Sequence.literals, internAll_append]

mutual

theorem Statement.runs : ∀ s : Statement, s.Resolved → s.Runs
  | .assign x _, h => Statement.runs_assign x h
  | .ifThen _ s, h => Statement.runs_ifThen h.1 (s.runs h.2)
  | .ifElse _ s t, h => Statement.runs_ifElse h.1 (s.runs h.2.1) h.2.2.1 (t.runs h.2.2.2)
  | .whileDo _ s, h => Statement.runs_whileDo h.1 (s.runs h.2)
  | .print _, h => Statement.runs_print h
  | .printText literal, _ => Statement.runs_printText literal
  | .block b, h => Statement.runs_block (b.runs h)
  | .declare x, _ => Statement.runs_declare x
  | .skip, _ => Statement.runs_skip

theorem Sequence.runs : ∀ b : Sequence, b.Resolved → b.Runs
  | .last s, h => Sequence.runs_last (s.runs h)
  | .more s b, h => Sequence.runs_more (s.runs h.1) (b.runs h.2)

end

/-! ## Whole programs -/

def Sequence.initial (tree : Sequence) (u : Token) : Snapshot where
  tokens := tree.tokens ++ [u]
  control := Compiling.initialControl

def Sequence.final (tree : Sequence) (u : Token) (result : List Line × Progress) : Snapshot where
  tokens := [u]
  control := []
  labelCount := result.2.labels
  literals := tree.distinctLiterals
  declared := result.2.declared
  header := openingData
  text := openingText ++ result.1 ++ closingText

/-- The moves through a whole program emit its text, or end in a refusal if it has none. -/
theorem Sequence.leads {tree : Sequence} (h : tree.Resolved) {u : Token}
    (hu : u.kind = .endOfInput) :
    Leads (tree.initial u) ((tree.code tree.distinctLiterals {}).map (tree.final u)) := by
  obtain ⟨kind, text⟩ := u
  obtain rfl : kind = .endOfInput := hu
  obtain ⟨start, more, hstart, hk⟩ := tree.exists_start ⟨.endOfInput, text⟩ []
  have hliterals : internAll [] tree.literals = tree.distinctLiterals := internAll_nil_eq _
  refine .action ?_ rfl rfl
  refine .expand _ ?_ rfl hstart (rule?_program _ hk)
  refine .map (tree.runs h tree.distinctLiterals _ _ _ _ rfl rfl (by simp) rfl ?_)
    fun result _ => ?_
  · exact hliterals ▸ List.prefix_refl _
  refine .move rfl rfl ?_
  refine .action .here rfl ?_
  simp [perform, executed, emit, Sequence.final, initial, ← hliterals]

end OnePass
