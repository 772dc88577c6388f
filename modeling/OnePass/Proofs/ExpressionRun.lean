import OnePass.Proofs.Snapshot

/-! # Running through an expression

From a snapshot whose tokens begin with a resolved expression, the moves emit the code of that
expression, leave its value on the operand stack, and stop in front of the token behind it.
-/
namespace OnePass

open Snapshot

def afterExpression : List Terminal :=
  [.thenWord, .doWord, .relationalOp, .rightParen, .elseWord, .endWord, .separator, .endOfInput]

def afterTerm : List Terminal :=
  .additiveOp :: afterExpression

def operandStarts : List Terminal :=
  [.identifier, .number, .additiveOp, .leftParen]

theorem mem_afterTerm {t : Terminal} (h : t ∈ afterExpression) : t ∈ afterTerm :=
  List.mem_cons_of_mem _ h

/-- Maps what is bound, where `Option.map_bind` composes the map with the function. -/
theorem map_bind_apply {α β γ : Type} (g : β → γ) (x : Option α) (f : α → Option β) :
    (x.bind f).map g = x.bind fun a => (f a).map g :=
  Option.map_bind

namespace Snapshot

variable {v : Snapshot} {rest : List Token} {control : List GrammarSymbol}
  {outcome : Option Snapshot}

theorem Leads.of_eq {outcome' : Option Snapshot} (h : Leads v outcome)
    (he : outcome = outcome') : Leads v outcome' :=
  he ▸ h

theorem Leads.expand {n : Nonterminal} {t : Token} (rhs : List GrammarSymbol)
    (h : Leads { v with control := rhs ++ control } outcome)
    (hc : v.control = .nonterminal n :: control) (ht : v.tokens = t :: rest)
    (hr : languageTable.rule? n t.kind = some ⟨n, rhs⟩) : Leads v outcome := by
  refine .move hc ?_ h
  simp [step, Snapshot.expand, ht, hr]

theorem shift_tokens {v' : Snapshot} {t : Token} (h : v.shift t = .ok v') :
    v'.tokens = v.tokens := by
  unfold shift at h
  split at h
  case h_4 | h_5 | h_6 | h_7 =>
    split at h
    · cases h
      rfl
    · cases h
  all_goals
    cases h
    rfl

theorem Leads.matched {v' : Snapshot} {t : Token}
    (h : Leads { v' with tokens := rest } outcome)
    (hc : v.control = .terminal t.kind :: control) (ht : v.tokens = t :: rest)
    (hs : shift { v with control } t = .ok v')
    (he : t.kind ≠ .endOfInput) (hr : rest ≠ []) : Leads v outcome := by
  refine .move hc ?_ h
  have hv' : v'.tokens = t :: rest := (shift_tokens hs).trans ht
  rw [ht] at hs
  simp only [step, matchTerminal, ht, if_true, hs]
  change v'.advance = _
  simp [advance, hv', he, hr]

theorem Leads.action {v' : Snapshot} {a : Action} (h : Leads v' outcome)
    (hc : v.control = .action a :: control)
    (hp : perform { v with control } a = .ok v') : Leads v outcome :=
  .move hc hp h

@[simp] theorem shift_additive (op : Additive) :
    v.shift (.additive op) =
      .ok { v with operators := .arithmetic op.operation :: v.operators } := by
  simp [shift, Token.additive, Operator.ofText?_text]

@[simp] theorem shift_multiplicative (op : Multiplicative) :
    v.shift (.multiplicative op) =
      .ok { v with operators := .arithmetic op.operation :: v.operators } := by
  simp [shift, Token.multiplicative, Operator.ofText?_text]

@[simp] theorem shift_relational (op : Comparison) :
    v.shift (.relational op) = .ok { v with operators := .comparison op :: v.operators } := by
  simp [shift, Token.relational, Operator.ofText?_text]

end Snapshot

/-! ## The parts of an expression -/

def Snapshot.evaluated (v : Snapshot) (e : Expr) (control : List GrammarSymbol)
    (tokens : List Token) (code : List Instruction) : Snapshot :=
  emit { v with control, tokens, operands := e.value :: v.operands } (instructions code)

/-- Running through the expression up to where a further term could follow. -/
def Expression.Runs (e : Expression) : Prop :=
  ∀ (v : Snapshot) (control : List GrammarSymbol) (u : Token) (rest : List Token),
    v.control = .nonterminal .term :: .nonterminal .addition :: control →
    v.tokens = e.tokens ++ u :: rest → u.kind ∈ afterTerm →
    Leads v ((e.expr.code v.declared (Value.pending v.operands)).map
      (v.evaluated e.expr (.nonterminal .addition :: control) (u :: rest)))

def Term.Runs (t : Term) : Prop :=
  ∀ (v : Snapshot) (control : List GrammarSymbol) (u : Token) (rest : List Token),
    v.control = .nonterminal .factor :: .nonterminal .multiplication :: control →
    v.tokens = t.tokens ++ u :: rest → (t.endsSigned = true → u.kind ∈ afterTerm) →
    Leads v ((t.expr.code v.declared (Value.pending v.operands)).map
      (v.evaluated t.expr (.nonterminal .multiplication :: control) (u :: rest)))

def Factor.Runs (f : Factor) : Prop :=
  ∀ (v : Snapshot) (control : List GrammarSymbol) (u : Token) (rest : List Token),
    v.control = .nonterminal .factor :: control →
    v.tokens = f.tokens ++ u :: rest → (f.isSigned = true → u.kind ∈ afterTerm) →
    Leads v ((f.expr.code v.declared (Value.pending v.operands)).map
      (v.evaluated f.expr control (u :: rest)))

/-! ## Where expressions begin and end -/

mutual

theorem Expression.exists_start : ∀ e : Expression,
    ∃ t rest, e.tokens = t :: rest ∧ t.kind ∈ operandStarts
  | .single t => t.exists_start
  | .chain e op t => by
    obtain ⟨u, rest, hu, hk⟩ := e.exists_start
    exact ⟨u, rest ++ .additive op :: t.tokens, by simp [Expression.tokens, hu], hk⟩

theorem Term.exists_start : ∀ t : Term, ∃ u rest, t.tokens = u :: rest ∧ u.kind ∈ operandStarts
  | .single f => f.exists_start
  | .chain t op f => by
    obtain ⟨u, rest, hu, hk⟩ := t.exists_start
    exact ⟨u, rest ++ .multiplicative op :: f.tokens, by simp [Term.tokens, hu], hk⟩

theorem Factor.exists_start : ∀ f : Factor,
    ∃ u rest, f.tokens = u :: rest ∧ u.kind ∈ operandStarts
  | .var x => ⟨⟨.identifier, x⟩, [], rfl, by simp [operandStarts]⟩
  | .number digits => ⟨⟨.number, digits⟩, [], rfl, by simp [operandStarts]⟩
  | .parens e => ⟨⟨.leftParen, "("⟩, e.tokens ++ [⟨.rightParen, ")"⟩], rfl, by simp [operandStarts]⟩
  | .signed sign t => ⟨.additive sign, t.tokens, rfl, by simp [operandStarts, Token.additive]⟩

end

theorem rule?_expression : ∀ t ∈ operandStarts, languageTable.rule? .expression t =
    some ⟨.expression, [Nonterminal.term, Nonterminal.addition]⟩ := by
  decide

theorem rule?_term : ∀ t ∈ operandStarts, languageTable.rule? .term t =
    some ⟨.term, [Nonterminal.factor, Nonterminal.multiplication]⟩ := by
  decide

theorem rule?_addition_end : ∀ t ∈ afterExpression, languageTable.rule? .addition t =
    some ⟨.addition, []⟩ := by
  decide

theorem rule?_multiplication_end : ∀ t ∈ afterTerm, languageTable.rule? .multiplication t =
    some ⟨.multiplication, []⟩ := by
  decide

theorem Term.Runs.leads {t : Term} (h : t.Runs) {v : Snapshot} {control : List GrammarSymbol}
    {u : Token} {rest : List Token} (hc : v.control = .nonterminal .term :: control)
    (ht : v.tokens = t.tokens ++ u :: rest) (hu : u.kind ∈ afterTerm) :
    Leads v ((t.expr.code v.declared (Value.pending v.operands)).map
      (v.evaluated t.expr control (u :: rest))) := by
  obtain ⟨start, more, hstart, hk⟩ := t.exists_start
  have hfirst : v.tokens = start :: (more ++ u :: rest) := by rw [ht, hstart]; rfl
  refine .expand _ ?_ hc hfirst (rule?_term _ hk)
  refine .map (h _ control u rest rfl ht fun _ => hu) fun code _ => ?_
  exact .expand _ .here rfl rfl (rule?_multiplication_end _ hu)

theorem Expression.Runs.leads {e : Expression} (h : e.Runs) {v : Snapshot}
    {control : List GrammarSymbol} {u : Token} {rest : List Token}
    (hc : v.control = .nonterminal .expression :: control) (ht : v.tokens = e.tokens ++ u :: rest)
    (hu : u.kind ∈ afterExpression) :
    Leads v ((e.expr.code v.declared (Value.pending v.operands)).map
      (v.evaluated e.expr control (u :: rest))) := by
  obtain ⟨start, more, hstart, hk⟩ := e.exists_start
  have hfirst : v.tokens = start :: (more ++ u :: rest) := by rw [ht, hstart]; rfl
  refine .expand _ ?_ hc hfirst (rule?_expression _ hk)
  refine .map (h _ control u rest rfl ht (mem_afterTerm hu)) fun code _ => ?_
  exact .expand _ .here rfl rfl (rule?_addition_end _ hu)

/-! ## Operators -/

@[simp] theorem instructions_append (xs ys : List Instruction) :
    instructions (xs ++ ys) = instructions xs ++ instructions ys :=
  List.map_append

@[simp] theorem instructions_nil : instructions [] = [] := rfl

theorem leads_binary {v : Snapshot} {control : List GrammarSymbol} {operators : List Operator}
    {rest : List Value} {op : Arithmetic} {l r : Expr}
    (hc : v.control = .action .compute :: control)
    (ho : v.operators = .arithmetic op :: operators)
    (hv : v.operands = r.value :: l.value :: rest) :
    Leads v ((Value.operands? v.declared [] (Value.pending rest) l.value r.value).bind fun x =>
      (Register.above? (Value.pending rest)).bind fun target =>
        some (emit { v with control, operators, operands := .temporary :: rest }
          (instructions (x.1 ++ [.arithmetic op target x.2.1 x.2.2])))) := by
  refine .accepted hc ?_
  simp only [step, perform, compute, ho, hv, Expr.operands?_value]
  rfl

theorem leads_sign {v : Snapshot} {control : List GrammarSymbol} {operators : List Operator}
    {rest : List Value} {e : Expr} (hc : v.control = .action .sign :: control)
    (ho : v.operators = .arithmetic .subtract :: operators)
    (hv : v.operands = e.value :: rest) :
    Leads v ((e.value.operand? v.declared [] (Value.pending rest)).bind fun x =>
      (Register.above? (Value.pending rest)).bind fun target =>
        some (emit { v with control, operators, operands := .temporary :: rest }
          (instructions (x.1 ++ [.negate target x.2])))) := by
  refine .accepted hc ?_
  simp only [step, perform, Snapshot.sign, ho, hv, Expr.operand?_value]
  rfl

/-! ## Whole expressions -/

mutual

theorem Expression.runs : ∀ e : Expression, e.Resolved → e.Runs
  | .single t, h => by
    intro v control u rest hc ht hu
    exact (t.runs h).leads hc ht hu
  | .chain e op t, h => by
    intro v control u rest hc ht hu
    have htokens : v.tokens = e.tokens ++ .additive op :: (t.tokens ++ u :: rest) := by
      rw [ht, Expression.tokens, List.append_assoc, List.cons_append]
    have hop : (Token.additive op).kind ∈ afterTerm := by simp [afterTerm, Token.additive]
    rw [Expression.expr, Expr.code_binary]
    refine .bind_map (e.runs h.1 v control _ _ hc htokens hop) fun left _ => ?_
    refine .expand [Terminal.additiveOp, Action.pushOperator, Nonterminal.term,
      Action.compute, Nonterminal.addition] ?_ rfl rfl (by rfl)
    refine .matched ?_ rfl rfl (shift_additive op) (by simp [Token.additive]) (by simp)
    refine .action ?_ rfl rfl
    refine .bind_map ((t.runs h.2).leads rfl rfl hu) fun right _ => ?_
    refine Leads.of_eq (leads_binary rfl rfl rfl) ?_
    simp [evaluated, emit, Expr.value, map_bind_apply, -Option.map_bind]

theorem Term.runs : ∀ t : Term, t.Resolved → t.Runs
  | .single f, h => by
    intro v control u rest hc ht hu
    exact f.runs h v _ u rest hc ht hu
  | .chain t op f, h => by
    intro v control u rest hc ht hu
    have htokens : v.tokens = t.tokens ++ .multiplicative op :: (f.tokens ++ u :: rest) := by
      rw [ht, Term.tokens, List.append_assoc, List.cons_append]
    rw [Term.expr, Expr.code_binary]
    refine .bind_map (t.runs h.1 v control _ _ hc htokens (by simp [h.2.1])) fun left _ => ?_
    refine .expand [Terminal.multiplicativeOp, Action.pushOperator,
      Nonterminal.factor, Action.compute, Nonterminal.multiplication] ?_ rfl rfl (by rfl)
    refine .matched ?_ rfl rfl (shift_multiplicative op) (by simp [Token.multiplicative]) (by simp)
    refine .action ?_ rfl rfl
    refine .bind_map (f.runs h.2.2 _ _ u rest rfl rfl hu) fun right _ => ?_
    refine Leads.of_eq (leads_binary rfl rfl rfl) ?_
    simp [evaluated, emit, Expr.value, map_bind_apply, -Option.map_bind]

theorem Factor.runs : ∀ f : Factor, f.Resolved → f.Runs
  | .var x, _ => by
    intro v control u rest hc ht _
    refine .expand [Terminal.identifier] ?_ hc ht (by rfl)
    refine .matched ?_ rfl ht rfl (by simp) (by simp)
    refine Leads.of_eq .here ?_
    simp [evaluated, emit, Factor.expr, Expr.code, Expr.value]
  | .number digits, _ => by
    intro v control u rest hc ht _
    refine .expand [Terminal.number] ?_ hc ht (by rfl)
    refine .matched ?_ rfl ht rfl (by simp) (by simp)
    refine Leads.of_eq .here ?_
    simp [evaluated, emit, Factor.expr, Expr.code, Expr.value]
  | .parens e, h => by
    intro v control u rest hc ht _
    have htokens : v.tokens =
        ⟨.leftParen, "("⟩ :: (e.tokens ++ ⟨.rightParen, ")"⟩ :: u :: rest) := by
      simp [ht, Factor.tokens]
    refine .expand [Terminal.leftParen, Nonterminal.expression, Terminal.rightParen] ?_ hc htokens
      (by rfl)
    refine .matched ?_ rfl htokens rfl (by simp) (by simp)
    refine .map ((e.runs h).leads rfl rfl (by simp [afterExpression])) fun code _ => ?_
    exact .matched .here rfl rfl rfl (by simp) (by simp)
  | .signed sign t, h => by
    intro v control u rest hc ht hu
    refine .expand [Nonterminal.signedTerm] ?_ hc ht (by rfl)
    refine .expand [Terminal.additiveOp, Action.pushOperator, Nonterminal.term,
      Action.sign] ?_ rfl ht (by rfl)
    cases sign with
    | plus =>
      refine .matched ?_ rfl ht (shift_additive .plus) (by simp [Token.additive]) (by simp)
      refine .action ?_ rfl rfl
      refine .map ((t.runs h).leads rfl rfl (hu rfl)) fun code _ => ?_
      exact .action .here rfl rfl
    | minus =>
      rw [Factor.expr, Expr.withSign, Expr.code_negate]
      refine .matched ?_ rfl ht (shift_additive .minus) (by simp [Token.additive]) (by simp)
      refine .action ?_ rfl rfl
      refine .bind_map ((t.runs h).leads rfl rfl (hu rfl)) fun code _ => ?_
      refine Leads.of_eq (leads_sign rfl rfl rfl) ?_
      simp [evaluated, emit, Expr.value, map_bind_apply, -Option.map_bind]

end

end OnePass
