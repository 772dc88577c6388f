import OnePass.Proofs.Derivation
import OnePass.Proofs.Lexing

/-! # Every sentence has a parse tree

The grammar is ambiguous, so a derivation need not follow the resolved tree. From any derivation a
resolved tree of the same tokens is put together: a factor behind a signed one goes under the sign,
and an `else` behind an open statement goes to the `if` inside it.
-/
namespace OnePass

/-- A further factor goes under the sign at the end of the term, if there is one. -/
theorem Term.exists_extension (op : Multiplicative) {f : Factor} (hf : f.Resolved) :
    ∀ t : Term, t.Resolved →
      ∃ t' : Term, t'.Resolved ∧ t'.tokens = t.tokens ++ .multiplicative op :: f.tokens
  | .single (.signed sign t), ht => by
    obtain ⟨t', ht', htok⟩ := exists_extension op hf t ht
    exact ⟨.single (.signed sign t'), ht', by simp [Term.tokens, Factor.tokens, htok]⟩
  | .chain l o (.signed sign t), ht => by
    obtain ⟨t', ht', htok⟩ := exists_extension op hf t ht.2.2
    exact ⟨.chain l o (.signed sign t'), ⟨ht.1, ht.2.1, ht'⟩,
      by simp [Term.tokens, Factor.tokens, htok]⟩
  | .single (.var x), ht => ⟨.chain (.single (.var x)) op f, ⟨ht, rfl, hf⟩, rfl⟩
  | .single (.number d), ht => ⟨.chain (.single (.number d)) op f, ⟨ht, rfl, hf⟩, rfl⟩
  | .single (.parens e), ht => ⟨.chain (.single (.parens e)) op f, ⟨ht, rfl, hf⟩, rfl⟩
  | .chain l o (.var x), ht => ⟨.chain (.chain l o (.var x)) op f, ⟨ht, rfl, hf⟩, rfl⟩
  | .chain l o (.number d), ht => ⟨.chain (.chain l o (.number d)) op f, ⟨ht, rfl, hf⟩, rfl⟩
  | .chain l o (.parens e), ht => ⟨.chain (.chain l o (.parens e)) op f, ⟨ht, rfl, hf⟩, rfl⟩

/-- An `else` goes to the nearest `if` of an open statement. -/
theorem Statement.exists_attachment {t : Statement} (ht : t.Resolved) :
    ∀ s : Statement, s.Resolved → s.isOpen = true →
      ∃ s' : Statement, s'.Resolved ∧ s'.tokens = s.tokens ++ ⟨.elseWord, "else"⟩ :: t.tokens
  | .ifThen c s, hs, _ => by
    cases ho : s.isOpen with
    | false => exact ⟨.ifElse c s t, ⟨hs.1, hs.2, ho, ht⟩, by simp [Statement.tokens]⟩
    | true =>
      obtain ⟨s', hs', htok⟩ := exists_attachment ht s hs.2 ho
      exact ⟨.ifThen c s', ⟨hs.1, hs'⟩, by simp [Statement.tokens, htok]⟩
  | .ifElse c s u, hs, ho => by
    obtain ⟨u', hu', htok⟩ := exists_attachment ht u hs.2.2.2 ho
    exact ⟨.ifElse c s u', ⟨hs.1, hs.2.1, hs.2.2.1, hu'⟩, by simp [Statement.tokens, htok]⟩
  | .whileDo c s, hs, ho => by
    obtain ⟨s', hs', htok⟩ := exists_attachment ht s hs.2 ho
    exact ⟨.whileDo c s', ⟨hs.1, hs'⟩, by simp [Statement.tokens, htok]⟩

/-- The tokens form a resolved piece of a tree for the nonterminal. What an operator begins is a
way to continue the operand before it. -/
def Nonterminal.Covers : Nonterminal → List Token → Prop
  | program, w => ∃ b : Sequence, b.Resolved ∧ b.tokens = w
  | statement, w => ∃ s : Statement, s.Resolved ∧ s.tokens = w
  | elseClause, w => w = [] ∨ ∃ s : Statement, s.Resolved ∧ ⟨.elseWord, "else"⟩ :: s.tokens = w
  | statementList, w => ∃ b : Sequence, b.Resolved ∧ b.tokens = w
  | separatedList, w => w = [] ∨ ∃ b : Sequence, b.Resolved ∧ ⟨.separator, ";"⟩ :: b.tokens = w
  | printExpression, w =>
    (∃ e : Expression, e.Resolved ∧ e.tokens = w) ∨ ∃ literal, w = [⟨.stringConst, literal⟩]
  | booleanExpression, w => ∃ c : Condition, c.Resolved ∧ c.tokens = w
  | expression, w => ∃ e : Expression, e.Resolved ∧ e.tokens = w
  | addition, w => ∀ e : Expression, e.Resolved →
    ∃ e' : Expression, e'.Resolved ∧ e'.tokens = e.tokens ++ w
  | term, w => ∃ t : Term, t.Resolved ∧ t.tokens = w
  | multiplication, w => ∀ t : Term, t.Resolved →
    ∃ t' : Term, t'.Resolved ∧ t'.tokens = t.tokens ++ w
  | factor, w => ∃ f : Factor, f.Resolved ∧ f.tokens = w
  | signedTerm, w => ∃ sign, ∃ t : Term, t.Resolved ∧ .additive sign :: t.tokens = w

def GrammarSymbol.Covers : GrammarSymbol → List Token → Prop
  | terminal t, w => ∃ text, Token.Spelled ⟨t, text⟩ ∧ w = [⟨t, text⟩]
  | nonterminal n, w => n.Covers w
  | action _, w => w = []

def CoversAll : List GrammarSymbol → List Token → Prop
  | [], w => w = []
  | x :: rest, w => ∃ u v, w = u ++ v ∧ x.Covers u ∧ CoversAll rest v

theorem CoversAll.split {xs ys : List GrammarSymbol} {w : List Token}
    (h : CoversAll (xs ++ ys) w) : ∃ u v, w = u ++ v ∧ CoversAll xs u ∧ CoversAll ys v := by
  induction xs generalizing w with
  | nil => exact ⟨[], w, rfl, rfl, h⟩
  | cons x xs ih =>
    obtain ⟨u, v, rfl, hx, hv⟩ := h
    obtain ⟨u', v', rfl, hu', hv'⟩ := ih hv
    exact ⟨u ++ u', v', by simp, ⟨u, u', rfl, hx, hu'⟩, hv'⟩

@[simp] theorem coversAll_nil {w : List Token} : CoversAll [] w ↔ w = [] := Iff.rfl

@[simp] theorem coversAll_action {a : Action} {rest : List GrammarSymbol} {w : List Token} :
    CoversAll (.action a :: rest) w ↔ CoversAll rest w := by
  constructor
  · rintro ⟨u, v, rfl, rfl, hv⟩
    exact hv
  · exact fun h => ⟨[], w, rfl, rfl, h⟩

@[simp] theorem coversAll_terminal {t : Terminal} {rest : List GrammarSymbol} {w : List Token} :
    CoversAll (.terminal t :: rest) w ↔
      ∃ text v, w = ⟨t, text⟩ :: v ∧ Token.Spelled ⟨t, text⟩ ∧ CoversAll rest v := by
  constructor
  · rintro ⟨u, v, rfl, ⟨text, hs, rfl⟩, hv⟩
    exact ⟨text, v, rfl, hs, hv⟩
  · rintro ⟨text, v, rfl, hs, hv⟩
    exact ⟨[⟨t, text⟩], v, rfl, ⟨text, hs, rfl⟩, hv⟩

@[simp] theorem coversAll_nonterminal {n : Nonterminal} {rest : List GrammarSymbol}
    {w : List Token} :
    CoversAll (.nonterminal n :: rest) w ↔ ∃ u v, w = u ++ v ∧ n.Covers u ∧ CoversAll rest v :=
  Iff.rfl

theorem Token.Spelled.text_eq {kind : Terminal} {text : String} (word : String)
    (h : Token.Spelled ⟨kind, text⟩)
    (hk : kind ∉ [.identifier, .number, .stringConst])
    (hw : reservedTexts.filter (fun p => p.2 = kind) = [(word, kind)]) : text = word := by
  simp only [List.mem_cons, List.not_mem_nil, not_or, or_false] at hk
  have hm := h.mem hk.1 hk.2.1 hk.2.2
  have hf : (text, kind) ∈ reservedTexts.filter (fun p => p.2 = kind) :=
    List.mem_filter.mpr ⟨hm, by simp⟩
  rw [hw] at hf
  simpa using hf

section Rules

variable {w : List Token}

theorem covers_assignment
    (h : CoversAll [Terminal.identifier, Terminal.assignOp, Nonterminal.expression, Action.store] w) :
    Nonterminal.statement.Covers w := by
  simp only [coversAll_terminal, coversAll_nonterminal, coversAll_action, coversAll_nil] at h
  obtain ⟨x, _, rfl, -, word, _, rfl, hs, _, _, rfl, ⟨e, he, rfl⟩, rfl⟩ := h
  obtain rfl := hs.text_eq ":=" (by decide) (by decide)
  exact ⟨.assign x e, he, by simp [Statement.tokens]⟩

theorem covers_conditional
    (h : CoversAll [Terminal.ifWord, Action.openLabels, Nonterminal.booleanExpression,
      Terminal.thenWord, Nonterminal.statement, Action.jumpBegin, Action.placeEnd,
      Nonterminal.elseClause, Action.placeBegin, Action.closeLabels, Action.clearRegisters] w) :
    Nonterminal.statement.Covers w := by
  simp only [coversAll_terminal, coversAll_nonterminal, coversAll_action, coversAll_nil] at h
  obtain ⟨word, _, rfl, hif, _, _, rfl, ⟨c, hc, rfl⟩, word', _, rfl, hthen, _, _, rfl,
    ⟨s, hs, rfl⟩, _, _, rfl, helse, rfl⟩ := h
  obtain rfl := hif.text_eq "if" (by decide) (by decide)
  obtain rfl := hthen.text_eq "then" (by decide) (by decide)
  rcases helse with rfl | ⟨t, ht, rfl⟩
  · exact ⟨.ifThen c s, ⟨hc, hs⟩, by simp [Statement.tokens]⟩
  · cases ho : s.isOpen with
    | false => exact ⟨.ifElse c s t, ⟨hc, hs, ho, ht⟩, by simp [Statement.tokens]⟩
    | true =>
      obtain ⟨s', hs', htok⟩ := Statement.exists_attachment ht s hs ho
      exact ⟨.ifThen c s', ⟨hc, hs'⟩, by simp [Statement.tokens, htok]⟩

theorem covers_loop
    (h : CoversAll [Terminal.whileWord, Action.openLabels, Action.placeBegin,
      Action.clearRegisters, Nonterminal.booleanExpression, Terminal.doWord, Nonterminal.statement,
      Action.jumpBegin, Action.placeEnd, Action.closeLabels, Action.clearRegisters] w) :
    Nonterminal.statement.Covers w := by
  simp only [coversAll_terminal, coversAll_nonterminal, coversAll_action, coversAll_nil] at h
  obtain ⟨word, _, rfl, hwhile, _, _, rfl, ⟨c, hc, rfl⟩, word', _, rfl, hdo, _, _, rfl,
    ⟨s, hs, rfl⟩, rfl⟩ := h
  obtain rfl := hwhile.text_eq "while" (by decide) (by decide)
  obtain rfl := hdo.text_eq "do" (by decide) (by decide)
  exact ⟨.whileDo c s, ⟨hc, hs⟩, by simp [Statement.tokens]⟩

theorem covers_print
    (h : CoversAll [Terminal.printWord, Nonterminal.printExpression, Action.callPrint] w) :
    Nonterminal.statement.Covers w := by
  simp only [coversAll_terminal, coversAll_nonterminal, coversAll_action, coversAll_nil] at h
  obtain ⟨word, _, rfl, hprint, _, _, rfl, he, rfl⟩ := h
  obtain rfl := hprint.text_eq "print" (by decide) (by decide)
  rcases he with ⟨e, he, rfl⟩ | ⟨literal, rfl⟩
  · exact ⟨.print e, he, by simp [Statement.tokens]⟩
  · exact ⟨.printText literal, trivial, rfl⟩

theorem covers_block
    (h : CoversAll [Terminal.beginWord, Nonterminal.statementList, Terminal.endWord] w) :
    Nonterminal.statement.Covers w := by
  simp only [coversAll_terminal, coversAll_nonterminal, coversAll_nil] at h
  obtain ⟨word, _, rfl, hbegin, _, _, rfl, ⟨b, hb, rfl⟩, word', _, rfl, hend, rfl⟩ := h
  obtain rfl := hbegin.text_eq "begin" (by decide) (by decide)
  obtain rfl := hend.text_eq "end" (by decide) (by decide)
  exact ⟨.block b, hb, rfl⟩

theorem covers_declaration
    (h : CoversAll [Terminal.variableWord, Terminal.identifier, Action.declare] w) :
    Nonterminal.statement.Covers w := by
  simp only [coversAll_terminal, coversAll_action, coversAll_nil] at h
  obtain ⟨word, _, rfl, hword, x, _, rfl, -, rfl⟩ := h
  obtain rfl := hword.text_eq "variable" (by decide) (by decide)
  exact ⟨.declare x, trivial, rfl⟩

theorem covers_else (h : CoversAll [Terminal.elseWord, Nonterminal.statement] w) :
    Nonterminal.elseClause.Covers w := by
  simp only [coversAll_terminal, coversAll_nonterminal, coversAll_nil] at h
  obtain ⟨word, _, rfl, helse, _, _, rfl, ⟨s, hs, rfl⟩, rfl⟩ := h
  obtain rfl := helse.text_eq "else" (by decide) (by decide)
  exact Or.inr ⟨s, hs, by simp⟩

theorem covers_sequence
    (h : CoversAll [Nonterminal.statement, Nonterminal.separatedList] w) :
    ∃ b : Sequence, b.Resolved ∧ b.tokens = w := by
  simp only [coversAll_nonterminal, coversAll_nil] at h
  obtain ⟨_, _, rfl, ⟨s, hs, rfl⟩, _, _, rfl, rfl | ⟨b, hb, rfl⟩, rfl⟩ := h
  · exact ⟨.last s, hs, by simp [Sequence.tokens]⟩
  · exact ⟨.more s b, ⟨hs, hb⟩, by simp [Sequence.tokens]⟩

theorem covers_separated
    (h : CoversAll [Terminal.separator, Nonterminal.statement, Nonterminal.separatedList] w) :
    Nonterminal.separatedList.Covers w := by
  obtain ⟨word, v, rfl, hsep, hv⟩ := coversAll_terminal.mp h
  obtain rfl := hsep.text_eq ";" (by decide) (by decide)
  obtain ⟨b, hb, rfl⟩ := covers_sequence hv
  exact Or.inr ⟨b, hb, rfl⟩

theorem covers_condition
    (h : CoversAll [Nonterminal.expression, Terminal.relationalOp, Action.pushOperator,
      Nonterminal.expression, Action.compute] w) :
    Nonterminal.booleanExpression.Covers w := by
  simp only [coversAll_terminal, coversAll_nonterminal, coversAll_action, coversAll_nil] at h
  obtain ⟨_, _, rfl, ⟨l, hl, rfl⟩, text, _, rfl, hop, _, _, rfl, ⟨r, hr, rfl⟩, rfl⟩ := h
  obtain ⟨op, hop⟩ := hop.relational
  exact ⟨⟨l, op, r⟩, ⟨hl, hr⟩, by simp [Condition.tokens, hop]⟩

theorem covers_expression (h : CoversAll [Nonterminal.term, Nonterminal.addition] w) :
    Nonterminal.expression.Covers w := by
  simp only [coversAll_nonterminal, coversAll_nil] at h
  obtain ⟨_, _, rfl, ⟨t, ht, rfl⟩, _, _, rfl, hmore, rfl⟩ := h
  rw [List.append_nil]
  exact hmore (.single t) ht

theorem covers_addition
    (h : CoversAll [Terminal.additiveOp, Action.pushOperator, Nonterminal.term, Action.compute,
      Nonterminal.addition] w) :
    Nonterminal.addition.Covers w := by
  simp only [coversAll_terminal, coversAll_nonterminal, coversAll_action, coversAll_nil] at h
  obtain ⟨text, _, rfl, hop, _, _, rfl, ⟨t, ht, rfl⟩, _, _, rfl, hmore, rfl⟩ := h
  obtain ⟨op, hop⟩ := hop.additive
  intro e he
  obtain ⟨e', he', htok⟩ := hmore (.chain e op t) ⟨he, ht⟩
  exact ⟨e', he', by simp [htok, Expression.tokens, hop]⟩

theorem covers_term (h : CoversAll [Nonterminal.factor, Nonterminal.multiplication] w) :
    Nonterminal.term.Covers w := by
  simp only [coversAll_nonterminal, coversAll_nil] at h
  obtain ⟨_, _, rfl, ⟨f, hf, rfl⟩, _, _, rfl, hmore, rfl⟩ := h
  rw [List.append_nil]
  exact hmore (.single f) hf

theorem covers_multiplication
    (h : CoversAll [Terminal.multiplicativeOp, Action.pushOperator, Nonterminal.factor,
      Action.compute, Nonterminal.multiplication] w) :
    Nonterminal.multiplication.Covers w := by
  simp only [coversAll_terminal, coversAll_nonterminal, coversAll_action, coversAll_nil] at h
  obtain ⟨text, _, rfl, hop, _, _, rfl, ⟨f, hf, rfl⟩, _, _, rfl, hmore, rfl⟩ := h
  obtain ⟨op, hop⟩ := hop.multiplicative
  intro t ht
  obtain ⟨t', ht', htok'⟩ := Term.exists_extension op hf t ht
  obtain ⟨t'', ht'', htok''⟩ := hmore t' ht'
  exact ⟨t'', ht'', by simp [htok'', htok', hop]⟩

theorem covers_parens
    (h : CoversAll [Terminal.leftParen, Nonterminal.expression, Terminal.rightParen] w) :
    Nonterminal.factor.Covers w := by
  simp only [coversAll_terminal, coversAll_nonterminal, coversAll_nil] at h
  obtain ⟨word, _, rfl, hleft, _, _, rfl, ⟨e, he, rfl⟩, word', _, rfl, hright, rfl⟩ := h
  obtain rfl := hleft.text_eq "(" (by decide) (by decide)
  obtain rfl := hright.text_eq ")" (by decide) (by decide)
  exact ⟨.parens e, he, rfl⟩

theorem covers_signed
    (h : CoversAll [Terminal.additiveOp, Action.pushOperator, Nonterminal.term, Action.sign] w) :
    Nonterminal.signedTerm.Covers w := by
  simp only [coversAll_terminal, coversAll_nonterminal, coversAll_action, coversAll_nil] at h
  obtain ⟨text, _, rfl, hop, _, _, rfl, ⟨t, ht, rfl⟩, rfl⟩ := h
  obtain ⟨op, hop⟩ := hop.additive
  exact ⟨op, t, ht, by simp [hop]⟩

end Rules

theorem covers_of_rule {r : Rule} (hr : r ∈ languageRules) {w : List Token}
    (h : CoversAll r.rhs w) : r.lhs.Covers w := by
  simp only [languageRules, List.mem_cons, List.not_mem_nil, or_false] at hr
  rcases hr with rfl | rfl | rfl | rfl | rfl | rfl | rfl | rfl | rfl | rfl | rfl | rfl | rfl | rfl |
    rfl | rfl | rfl | rfl | rfl | rfl | rfl | rfl | rfl | rfl | rfl | rfl | rfl
  · exact covers_sequence h
  · exact covers_assignment h
  · exact covers_conditional h
  · exact covers_loop h
  · exact covers_print h
  · exact covers_block h
  · exact covers_declaration h
  · exact ⟨.skip, trivial, h.symm⟩
  · exact covers_else h
  · exact Or.inl h
  · exact covers_sequence h
  · exact covers_separated h
  · exact Or.inl h
  · obtain ⟨u, v, rfl, he, hv⟩ := coversAll_nonterminal.mp h
    obtain rfl : v = [] := coversAll_action.mp hv
    exact Or.inl (by rwa [List.append_nil])
  · obtain ⟨literal, v, rfl, -, hv⟩ := coversAll_terminal.mp h
    obtain rfl : v = [] := coversAll_action.mp hv
    exact Or.inr ⟨literal, rfl⟩
  · exact covers_condition h
  · exact covers_expression h
  · exact covers_addition h
  · obtain rfl : w = [] := h
    exact fun e he => ⟨e, he, by simp⟩
  · exact covers_term h
  · exact covers_multiplication h
  · obtain rfl : w = [] := h
    exact fun t ht => ⟨t, ht, by simp⟩
  · obtain ⟨x, v, rfl, -, rfl⟩ := coversAll_terminal.mp h
    exact ⟨.var x, trivial, rfl⟩
  · obtain ⟨digits, v, rfl, -, rfl⟩ := coversAll_terminal.mp h
    exact ⟨.number digits, trivial, rfl⟩
  · exact covers_parens h
  · obtain ⟨u, v, rfl, ⟨sign, t, ht, rfl⟩, rfl⟩ := coversAll_nonterminal.mp h
    exact ⟨.signed sign t, ht, by simp [Factor.tokens]⟩
  · exact covers_signed h

theorem coversAll_of_yields {symbols : List GrammarSymbol} {kinds : List Terminal}
    (h : language.Yields symbols kinds) {w : List Token} (hw : w.map Token.kind = kinds)
    (hs : ∀ t ∈ w, t.Spelled) : CoversAll symbols w := by
  induction h generalizing w with
  | done => exact List.map_eq_nil_iff.mp hw
  | terminal _ ih =>
    obtain ⟨⟨kind, text⟩, v, rfl, rfl, hv⟩ := List.map_eq_cons_iff.mp hw
    rw [List.forall_mem_cons] at hs
    exact coversAll_terminal.mpr ⟨text, v, rfl, hs.1, ih hv hs.2⟩
  | nonterminal hr _ ih =>
    obtain ⟨u, v, rfl, hu, hv⟩ := (ih hw hs).split
    exact ⟨u, v, rfl, covers_of_rule hr hu, hv⟩
  | action _ ih => exact coversAll_action.mpr (ih hw hs)

/-- Every sentence that is spelt as the lexer spells has a parse tree. -/
theorem exists_parse {lexemes : List Lexeme}
    (h : lexemes.map Lexeme.kind ∈ language.contextFree.language)
    (hs : ∀ l ∈ lexemes, l.token.Spelled) : ∃ tree : Sequence, tree.Parses lexemes := by
  have hy := Grammar.mem_language_iff_yields.mp h
  have hc := coversAll_of_yields hy (w := lexemes.map Lexeme.token)
    (by simp [Lexeme.token, Function.comp_def]) (by simpa using hs)
  obtain ⟨_, _, hw, ⟨tree, htree, rfl⟩, rfl⟩ := coversAll_nonterminal.mp hc
  exact ⟨tree, ⟨by simpa using hw.symm, htree⟩⟩

end OnePass
