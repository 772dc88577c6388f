import OnePass.Proofs.Declarations
import OnePass.Proofs.SyntaxErrors

/-! # Values that wait and the tokens they stand for

The values on the operand stack are intermediate results, or they stand for tokens that were
matched. While they wait no declaration is begun, so what the tokens before such a value declare is
what the symbol table records. A string constant waits alone, and so does a variable that is being
declared.
-/
namespace OnePass

variable {distance : String → String → Nat} [NameDistance distance]

/-! ## Values and the tokens they stand for -/

def Terminal.isValue : Terminal → Bool
  | .identifier | .number | .stringConst => true
  | _ => false

/-- The operand is at the position of the token and has its kind and text. A variable has the lexeme
it was first read as, so the lexemes need not be the same. -/
structure Operand.StandsFor (o : Operand) (table : SymbolTable) (x : Lexeme) : Prop where
  position : o.position = x.position
  lexeme : ∃ l, (table.symbol o.symbol).lexeme = some l ∧ l.kind = x.kind ∧ l.text = x.text

namespace SymbolTable

variable {table : SymbolTable} {id : SymbolId} {l : Lexeme}

theorem Tidy.occupied (h : table.Tidy) (hl : (table.symbol id).lexeme = some l) :
    table.Occupied id := by
  constructor
  · by_contra hc
    rw [symbol_of_not_contains hc] at hl
    cases hl
  · intro hf
    rw [h.empty id hf] at hl
    cases hl

theorem exists_lexeme_reference (ht : table.Tidy) (hn : table.Named) (hk : l.kind = .identifier) :
    ∃ m, ((table.reference l).2.symbol (table.reference l).1).lexeme = some m ∧
      m.kind = l.kind ∧ m.text = l.text := by
  unfold reference
  split
  · next id hid =>
    obtain ⟨m, hm, hmk, htext⟩ := hn _ id hid
    exact ⟨m, hm, hmk.trans hk.symm, htext⟩
  · refine ⟨l, ?_, rfl, rfl⟩
    refine (congrArg Symbol.lexeme ((added_add ht _).symbol _)).trans ?_
    rw [if_pos rfl]

theorem lexeme_literal (ht : table.Tidy) :
    ((table.literal l).2.symbol (table.literal l).1).lexeme = some l := by
  rw [literal, (added_add ht _).symbol, if_pos rfl]

end SymbolTable

namespace Compiling

variable {input : Input} {s s' : Session}

/-- A token that is a value pushes it, at its own position. -/
theorem operands_of_shift {l : Lexeme} (h : shift l s = .ok () s')
    (ht : s.workspace.symbols.Tidy) (hn : s.workspace.symbols.Named) :
    s'.operands = s.operands ∧ l.kind.isValue = false ∨
      ∃ o, s'.operands = o :: s.operands ∧ l.kind.isValue = true ∧
        o.StandsFor s'.workspace.symbols l := by
  generalize hx : shift l = x at h
  unfold shift at hx
  split at hx
  · next hk =>
    subst hx
    cases h
    exact .inr ⟨_, rfl, by rw [hk]; rfl, rfl, SymbolTable.exists_lexeme_reference ht hn hk⟩
  · next hk =>
    subst hx
    cases h
    exact .inr ⟨_, rfl, by rw [hk]; rfl, rfl, l, SymbolTable.lexeme_literal ht, rfl, rfl⟩
  · next hk =>
    subst hx
    cases h
    exact .inr ⟨_, rfl, by rw [hk]; rfl, rfl, l, SymbolTable.lexeme_literal ht, rfl, rfl⟩
  case h_4 | h_5 | h_6 | h_7 =>
    split at hx
    · subst hx
      cases h
      exact .inl ⟨rfl, by simp [*, Terminal.isValue]⟩
    · subst hx
      cases h
  · next hidentifier hnumber hstring _ _ _ _ =>
    subst hx
    cases h
    refine .inl ⟨rfl, ?_⟩
    cases hk : l.kind <;> first | rfl | simp_all

theorem operands_of_readLexeme {l : Lexeme} (h : readLexeme s = .ok l s') :
    s'.operands = s.operands := by
  unfold readLexeme at h
  split at h
  · cases h
    unfold Session.noteLexeme
    split <;> rfl
  · cases h

theorem symbols_of_start (h : start (.ofInput input) = .ok () s) :
    s.operands = [] ∧ s.workspace.symbols = SymbolTable.note {} s.lookahead := by
  obtain ⟨l, s₁, hread, hrest⟩ := exists_of_bind_ok h
  have hoperands := operands_of_readLexeme hread
  have hsymbols := symbols_of_readLexeme hread
  cases hrest
  exact ⟨hoperands, hsymbols⟩

theorem operands_of_advance (h : advance s = .ok () s') : s'.operands = s.operands := by
  rw [advance, bind_ok (get_ok s)] at h
  split_ifs at h
  · obtain ⟨l, s₁, hread, h⟩ := exists_of_bind_ok h
    cases h
    have hsame := operands_of_readLexeme hread
    exact hsame
  · cases h
    rfl

/-- A match adds symbols and pushes the value of its token, if it is one. -/
theorem operands_of_matchTerminal {t : Terminal} (h : matchTerminal t s = .ok () s')
    (ht : s.workspace.symbols.Tidy) (hn : s.workspace.symbols.Named) :
    s.workspace.symbols.Grows s'.workspace.symbols ∧
      (s'.operands = s.operands ∧ t.isValue = false ∨
        ∃ o, s'.operands = o :: s.operands ∧ t.isValue = true ∧
          o.StandsFor s'.workspace.symbols s.lookahead) := by
  obtain ⟨hk, _, s₂, rfl, hshift, hadvance⟩ := matchTerminal_ok h
  obtain ⟨_, _, _, _, hs₂, hshifts⟩ := shift_ok hshift
  have hgrows₂ : s.workspace.symbols.Grows s₂.workspace.symbols := by
    rw [hs₂]
    exact SymbolTable.grows_of_shifts hshifts
  have hgrows' : s₂.workspace.symbols.Grows s'.workspace.symbols := by
    rw [symbols_of_advance hadvance]
    split_ifs
    · exact .refl _
    · exact SymbolTable.grows_note _
  refine ⟨hgrows₂.trans hgrows', ?_⟩
  rw [operands_of_advance hadvance, ← hk]
  refine (operands_of_shift hshift ht hn).imp_right ?_
  rintro ⟨o, ho, hv, hposition, l, hl, hkind, htext⟩
  -- The next token is read into a table in which the place of the value is taken.
  have htidy := hgrows₂.tidy ht
  have hsame := (hgrows'.occupied htidy o.symbol (htidy.occupied hl)).2
  exact ⟨o, ho, hv, hposition, l, by rw [hsame, hl], hkind, htext⟩

/-- A move for a terminal or an action takes it from the control stack. -/
theorem control_of_move {x : GrammarSymbol} {rest : List GrammarSymbol}
    (hx : ∀ n, x ≠ .nonterminal n) (hc : s.control = x :: rest) (h : move s = .ok () s') :
    s'.control = rest := by
  cases pushes_of_move (by simp [hc]) h with
  | terminal ht _ hrest => exact hrest.trans (List.cons.inj (ht.symm.trans hc)).2
  | finish ht _ hrest => exact hrest.trans (List.cons.inj (ht.symm.trans hc)).2
  | nonterminal hn => exact absurd (List.cons.inj (hn.symm.trans hc)).1.symm (hx _)
  | action ha hrest => exact hrest.trans (List.cons.inj (ha.symm.trans hc)).2

theorem stringFormat_ok (h : perform .stringFormat s = .ok () s') :
    s'.operands = s.operands ∧ s'.workspace.symbols = s.workspace.symbols := by
  cases h
  exact ⟨rfl, rfl⟩

theorem operands_of_expand {n : Nonterminal} (h : expand n s = .ok () s') :
    s'.operands = s.operands := by
  rw [expand, bind_ok (get_ok _)] at h
  cases hr : languageTable.rule? n s.lookahead.kind with
  | none =>
    rw [hr] at h
    cases h
  | some r =>
    rw [hr] at h
    cases h
    rfl

end Compiling

variable {input : Input} {matched : List Lexeme} {s s' : Session} {v : Snapshot} {o : Operand}

theorem Represents.named (h : Represents s v) : s.workspace.symbols.Named := by
  obtain ⟨live, bank, hw, -⟩ := h
  intro x id hx
  obtain ⟨⟨p, hp⟩, -⟩ := hw.coherent.named x id hx
  exact ⟨_, hp, rfl, rfl⟩

theorem Represents.occupied (h : Represents s v) (ho : o ∈ s.operands) :
    s.workspace.symbols.Occupied o.symbol := by
  obtain ⟨live, bank, hw, -⟩ := h
  have hm : o.symbol ∈ live.map Prod.fst := hw.symbols ▸ List.mem_map_of_mem ho
  obtain ⟨hold, hlive, he⟩ := List.mem_map.mp hm
  rw [← he]
  exact ⟨hw.coherent.contains hold hlive, hw.coherent.taken hold hlive⟩

theorem SymbolTable.Tidy.steady {table : SymbolTable} (h : table.Tidy) : table.Steady := by
  intro id hid
  rw [h.empty id hid]

/-! ## How far a statement has come -/

/-- The operand stands for an identifier or a number. It is not declared there, and no declaration
is begun behind it. -/
structure Operand.Cites (o : Operand) (table : SymbolTable) (before : List Lexeme) (x : Lexeme)
    (after : List Lexeme) : Prop where
  stands : o.StandsFor table x
  kind : x.kind = .identifier ∨ x.kind = .number
  aside : ¬ Declaring before
  current : ∀ y ∈ after, y.kind ≠ .variableWord

def Operand.Traced (o : Operand) (table : SymbolTable) (matched : List Lexeme) : Prop :=
  (table.symbol o.symbol).lexeme = none ∨
    ∃ before x after, matched = before ++ x :: after ∧ o.Cites table before x after

theorem Operand.Traced.extend {table table' : SymbolTable} {more : List Lexeme}
    (h : o.Traced table matched) (hm : ∀ y ∈ more, y.kind ≠ .variableWord)
    (hl : ∀ l, (table'.symbol o.symbol).lexeme = some l →
      (table.symbol o.symbol).lexeme = some l) : o.Traced table' (matched ++ more) := by
  cases hlexeme : (table'.symbol o.symbol).lexeme with
  | none => exact .inl hlexeme
  | some l =>
    rcases h with hnone | ⟨before, x, after, rfl, hcites⟩
    · rw [hl l hlexeme] at hnone
      cases hnone
    · obtain ⟨m, hm', hsame⟩ := hcites.stands.lexeme
      rw [hl l hlexeme] at hm'
      cases hm'
      refine .inr ⟨before, x, after ++ more, by simp, ⟨hcites.stands.position, l, hlexeme, hsame⟩,
        hcites.kind, hcites.aside, ?_⟩
      intro y hy
      exact (List.mem_append.mp hy).elim (hcites.current y) (hm y)

theorem Operand.Traced.keep {table table' : SymbolTable} (h : o.Traced table matched)
    (hl : ∀ l, (table'.symbol o.symbol).lexeme = some l →
      (table.symbol o.symbol).lexeme = some l) : o.Traced table' matched := by
  have hnone : ∀ y ∈ ([] : List Lexeme), y.kind ≠ .variableWord := by simp
  have htraced := h.extend hnone hl
  rwa [List.append_nil] at htraced

/-- The symbol neither begins nor ends a declaration, and it neither announces nor is a string
constant. -/
def GrammarSymbol.isPlain : GrammarSymbol → Bool
  | .terminal .variableWord | .terminal .stringConst | .nonterminal .printExpression
  | .action .declare => false
  | _ => true

structure Calm (matched : List Lexeme) (rest : List GrammarSymbol) : Prop where
  plain : ∀ x ∈ rest, x.isPlain = true
  aside : ¬ Declaring matched

/-- How far the tokens have come in a declaration or in printing a string constant, and what waits
then. The declarations are made for the first of the two lists of tokens: the last token may be one
that is about to be declared. -/
inductive Underway (table : SymbolTable) :
    List Lexeme → List Lexeme → List GrammarSymbol → List Operand → Prop
  | between {matched control operands} : Calm matched control →
    (∀ o ∈ operands, o.Traced table matched) → Underway table matched matched control operands
  | declaration {matched rest} : Calm matched rest →
    Underway table matched matched
      (.terminal .variableWord :: .terminal .identifier :: .action .declare :: rest) []
  | name {matched rest} : (∀ x ∈ rest, x.isPlain = true) → Declaring matched →
    Underway table matched matched (.terminal .identifier :: .action .declare :: rest) []
  | declared {settled x rest o} : (∀ x ∈ rest, x.isPlain = true) → Declaring settled →
    x.kind = .identifier → o.StandsFor table x →
    Underway table settled (settled ++ [x]) (.action .declare :: rest) [o]
  | print {matched rest} : Calm matched rest →
    Underway table matched matched
      (.terminal .printWord :: .nonterminal .printExpression :: .action .callPrint :: rest) []
  | choice {matched rest} : Calm matched rest →
    Underway table matched matched (.nonterminal .printExpression :: .action .callPrint :: rest) []
  | string {matched rest} : Calm matched rest →
    Underway table matched matched
      (.terminal .stringConst :: .action .stringFormat :: .action .callPrint :: rest) []
  | format {matched rest o x} : Calm matched rest → x.kind = .stringConst → o.StandsFor table x →
    Underway table matched matched (.action .stringFormat :: .action .callPrint :: rest) [o]
  | call {matched rest o x} : Calm matched rest → x.kind = .stringConst → o.StandsFor table x →
    Underway table matched matched (.action .callPrint :: rest) [o]

def Session.Tracked (s : Session) (matched : List Lexeme) : Prop :=
  ∃ settled, Underway s.workspace.symbols settled matched s.control s.operands ∧
    s.workspace.symbols.Records (declarations Lexeme.kind settled)

theorem Calm.cons {x : GrammarSymbol} {rest : List GrammarSymbol} (h : Calm matched (x :: rest)) :
    x.isPlain = true ∧ Calm matched rest := by
  obtain ⟨hx, hrest⟩ := List.forall_mem_cons.mp h.plain
  exact ⟨hx, hrest, h.aside⟩

/-! ### Tokens -/

/-- A match of a plain token keeps what waits where it is. -/
theorem Calm.extend {rest : List GrammarSymbol} {more : List Lexeme} (h : Calm matched rest)
    (hm : ∀ y ∈ more, y.kind ≠ .variableWord) :
    Calm (matched ++ more) rest ∧
      declarations Lexeme.kind (matched ++ more) = declarations Lexeme.kind matched := by
  obtain ⟨hsame, hnot⟩ := declarations_append h.aside hm
  exact ⟨⟨h.plain, hnot⟩, hsame⟩

theorem Terminal.eq_of_isValue {t : Terminal} (hv : t.isValue = true)
    (hp : (GrammarSymbol.terminal t).isPlain = true) : t = .identifier ∨ t = .number := by
  cases t with
  | identifier => exact .inl rfl
  | number => exact .inr rfl
  | stringConst => cases hp
  | _ => cases hv

/-- A plain token that is a value can be cited behind the tokens before it. -/
theorem Calm.matchTerminal {table table' : SymbolTable} {taken : List Lexeme} {l : Lexeme}
    {rest : List GrammarSymbol} {operands operands' : List Operand}
    (h : Calm matched (.terminal l.kind :: rest)) (htraced : ∀ o ∈ operands, o.Traced table matched)
    (ht : taken = if l.kind = .endOfInput then [] else [l])
    (hkept : ∀ o ∈ operands, ∀ m, (table'.symbol o.symbol).lexeme = some m →
      (table.symbol o.symbol).lexeme = some m)
    (hpushed : operands' = operands ∧ l.kind.isValue = false ∨
      ∃ o, operands' = o :: operands ∧ l.kind.isValue = true ∧ o.StandsFor table' l) :
    Underway table' (matched ++ taken) (matched ++ taken) rest operands' ∧
      declarations Lexeme.kind (matched ++ taken) = declarations Lexeme.kind matched := by
  obtain ⟨hplain, hcalm⟩ := h.cons
  have htaken : ∀ y ∈ taken, y.kind ≠ .variableWord := by
    intro y hy hyk
    rw [ht] at hy
    split_ifs at hy
    · cases hy
    · obtain rfl := List.mem_singleton.mp hy
      rw [hyk] at hplain
      cases hplain
  obtain ⟨hcalm', hsame⟩ := hcalm.extend htaken
  refine ⟨.between hcalm' ?_, hsame⟩
  have hold : ∀ o ∈ operands, o.Traced table' (matched ++ taken) :=
    fun o ho => (htraced o ho).extend htaken (hkept o ho)
  rcases hpushed with ⟨rfl, -⟩ | ⟨o, rfl, hvalue, hstands⟩
  · exact hold
  · have hkind := Terminal.eq_of_isValue hvalue hplain
    have hend : l.kind ≠ .endOfInput := by
      intro hl
      rw [hl] at hvalue
      cases hvalue
    rw [if_neg hend] at ht
    have hcites : o.Cites table' matched l [] := ⟨hstands, hkind, hcalm.aside, by simp⟩
    exact List.forall_mem_cons.mpr ⟨.inr ⟨matched, l, [], by rw [ht], hcites⟩, hold⟩

/-- A matched token brings its statement forward and makes no declaration. -/
theorem Underway.matchTerminal {table table' : SymbolTable} {settled taken : List Lexeme}
    {l : Lexeme} {rest : List GrammarSymbol} {operands operands' : List Operand}
    (h : Underway table settled matched (.terminal l.kind :: rest) operands)
    (ht : taken = if l.kind = .endOfInput then [] else [l])
    (hkept : ∀ o ∈ operands, ∀ m, (table'.symbol o.symbol).lexeme = some m →
      (table.symbol o.symbol).lexeme = some m)
    (hpushed : operands' = operands ∧ l.kind.isValue = false ∨
      ∃ o, operands' = o :: operands ∧ l.kind.isValue = true ∧ o.StandsFor table' l) :
    ∃ settled', Underway table' settled' (matched ++ taken) rest operands' ∧
      declarations Lexeme.kind settled' = declarations Lexeme.kind settled := by
  generalize hk : l.kind = kind at h ht hpushed
  cases h with
  | between hcalm htraced =>
    subst hk
    exact ⟨_, hcalm.matchTerminal htraced ht hkept hpushed⟩
  | declaration hcalm =>
    obtain ⟨rfl, -⟩ := hpushed.resolve_right (by simp [Terminal.isValue])
    rw [if_neg (by decide)] at ht
    subst ht
    refine ⟨_, .name hcalm.plain (declaring_concat.mpr hk), ?_⟩
    exact declarations_concat_of_not fun hd => absurd hd hcalm.aside
  | name hplain hdeclaring =>
    obtain ⟨o, rfl, -, hstands⟩ := hpushed.resolve_left (by simp [Terminal.isValue])
    rw [if_neg (by decide)] at ht
    subst ht
    exact ⟨_, .declared hplain hdeclaring hk hstands, rfl⟩
  | print hcalm =>
    obtain ⟨rfl, -⟩ := hpushed.resolve_right (by simp [Terminal.isValue])
    rw [if_neg (by decide)] at ht
    have htaken : ∀ y ∈ taken, y.kind ≠ .variableWord := by simp [ht, hk]
    obtain ⟨hcalm', hsame⟩ := hcalm.extend htaken
    exact ⟨_, .choice hcalm', hsame⟩
  | string hcalm =>
    obtain ⟨o, rfl, -, hstands⟩ := hpushed.resolve_left (by simp [Terminal.isValue])
    rw [if_neg (by decide)] at ht
    have htaken : ∀ y ∈ taken, y.kind ≠ .variableWord := by simp [ht, hk]
    obtain ⟨hcalm', hsame⟩ := hcalm.extend htaken
    exact ⟨_, .format hcalm' hk hstands, hsame⟩

theorem Session.Tracked.matchTerminal {t : Terminal} {rest : List GrammarSymbol}
    (h : s.Tracked matched) (hr : Represents s v) (hc : s.control = .terminal t :: rest)
    (hm : Compiling.move s = .ok () s') : s'.Tracked (matched ++ s.taken) := by
  obtain ⟨settled, hunderway, hrecords⟩ := h
  have htaken : s.taken = if t = .endOfInput then [] else [s.lookahead] := by
    rw [Session.taken, hc]
  have hcontrol := Compiling.control_of_move (by simp) hc hm
  rw [Compiling.move_eq hc] at hm
  obtain ⟨rfl, -⟩ := Compiling.matchTerminal_ok hm
  obtain ⟨hgrows, hpushed⟩ := Compiling.operands_of_matchTerminal hm hr.tidy hr.named
  have hkept : ∀ o ∈ s.operands, ∀ m, (s'.workspace.symbols.symbol o.symbol).lexeme = some m →
      (s.workspace.symbols.symbol o.symbol).lexeme = some m := by
    intro o ho m hm
    have hsame := (hgrows.occupied hr.tidy o.symbol (hr.occupied ho)).2
    rwa [hsame] at hm
  rw [hc] at hunderway
  obtain ⟨settled', hunderway', hsame⟩ := hunderway.matchTerminal htaken hkept hpushed
  refine ⟨settled', ?_, ?_⟩
  · rw [hcontrol]
    exact hunderway'
  · rw [hsame]
    exact hgrows.records hr.tidy _ hrecords

/-! ### Rules -/

def declarationRule : Rule :=
  ⟨.statement, [Terminal.variableWord, Terminal.identifier, Action.declare]⟩

def printRule : Rule :=
  ⟨.statement, [Terminal.printWord, Nonterminal.printExpression, Action.callPrint]⟩

theorem isPlain_of_rule : ∀ r ∈ languageRules, r.lhs ≠ .printExpression →
    (∀ x ∈ r.rhs, x.isPlain = true) ∨ r = declarationRule ∨ r = printRule := by
  decide

theorem rhs_of_printExpression : ∀ r ∈ languageRules, r.lhs = .printExpression →
    (∀ x ∈ r.rhs, x.isPlain = true) ∨
      r.rhs = [.terminal .stringConst, .action .stringFormat] := by
  decide

theorem Calm.append {xs rest : List GrammarSymbol} (h : Calm matched rest)
    (hxs : ∀ x ∈ xs, x.isPlain = true) : Calm matched (xs ++ rest) := by
  refine ⟨fun x hx => ?_, h.aside⟩
  exact (List.mem_append.mp hx).elim (hxs x) (h.plain x)

/-- A rule leads into one of the statements that are followed, or past them. -/
theorem Underway.expand {table : SymbolTable} {settled : List Lexeme} {r : Rule}
    {rest : List GrammarSymbol} {operands : List Operand}
    (h : Underway table settled matched (.nonterminal r.lhs :: rest) operands)
    (hr : r ∈ languageRules) (hs : r.lhs = .statement → operands = []) :
    Underway table settled matched (r.rhs ++ rest) operands := by
  generalize hn : r.lhs = n at h hs
  cases h with
  | between hcalm htraced =>
    obtain ⟨hplain, hcalm'⟩ := hcalm.cons
    have hlhs : r.lhs ≠ .printExpression := by
      rw [hn]
      rintro rfl
      cases hplain
    rcases isPlain_of_rule r hr hlhs with hrhs | rfl | rfl
    · exact .between (hcalm'.append hrhs) htraced
    · rw [hs hn.symm]
      exact .declaration hcalm'
    · rw [hs hn.symm]
      exact .print hcalm'
  | choice hcalm =>
    rcases rhs_of_printExpression r hr hn with hrhs | hrhs
    · refine .between ?_ (by simp)
      refine Calm.append ⟨?_, hcalm.aside⟩ hrhs
      exact List.forall_mem_cons.mpr ⟨rfl, hcalm.plain⟩
    · rw [hrhs]
      exact .string hcalm

theorem Session.Tracked.expand {n : Nonterminal} {rest : List GrammarSymbol}
    (h : s.Tracked matched) (hr : Represents s v) (hsafe : v.Safe)
    (hc : s.control = .nonterminal n :: rest) (hm : Compiling.move s = .ok () s') :
    s'.Tracked (matched ++ s.taken) := by
  obtain ⟨settled, hunderway, hrecords⟩ := h
  have htaken : s.taken = [] := by rw [Session.taken, hc]
  cases Compiling.pushes_of_move (by simp [hc]) hm with
  | @nonterminal r rest' hx hrule hcontrol =>
    obtain ⟨rfl, rfl⟩ : r.lhs = n ∧ rest' = rest := by simpa [hc] using hx.symm
    have hempty : r.lhs = .statement → s.operands = [] := by
      intro hstatement
      have hdemands := hsafe.demands
      rw [← hr.control, hc, hstatement] at hdemands
      have hnone : v.operands = [] := hdemands.1
      have hlength := hr.length_operands
      rw [hnone] at hlength
      exact List.length_eq_zero_iff.mp hlength
    rw [Compiling.move_eq hc] at hm
    refine ⟨settled, ?_, ?_⟩
    · rw [Compiling.workspace_of_expand hm, Compiling.operands_of_expand hm, hcontrol, htaken,
        List.append_nil]
      rw [hc] at hunderway
      exact hunderway.expand (Compiling.mem_of_rule? hrule).1 hempty
    · rw [Compiling.workspace_of_expand hm]
      exact hrecords
  | terminal hx => cases (List.cons.inj (hx.symm.trans hc)).1
  | finish hx => cases (List.cons.inj (hx.symm.trans hc)).1
  | action hx => cases (List.cons.inj (hx.symm.trans hc)).1

/-! ### Actions -/

/-- A variable that waits is the one its name stands for. -/
theorem Represents.lookup_of_lexeme {l : Lexeme} (h : Represents s v) (ho : o ∈ s.operands)
    (hl : (s.workspace.symbols.symbol o.symbol).lexeme = some l) (hk : l.kind = .identifier) :
    s.workspace.symbols.lookup l.text = some o.symbol := by
  obtain ⟨live, bank, hw, -⟩ := h
  have hm : o.symbol ∈ live.map Prod.fst := hw.symbols ▸ List.mem_map_of_mem ho
  obtain ⟨⟨id, value⟩, hlive, rfl⟩ := List.mem_map.mp hm
  have hdenotes := hw.coherent.denotes _ hlive
  cases value with
  | var x =>
    obtain ⟨⟨p, hp⟩, -⟩ := hw.coherent.named x _ hdenotes
    rw [hl] at hp
    cases hp
    exact hdenotes
  | number digits =>
    obtain ⟨p, hp⟩ := hdenotes
    rw [hl] at hp
    cases hp
    cases hk
  | text literal =>
    obtain ⟨p, hp⟩ := hdenotes
    rw [hl] at hp
    cases hp
    cases hk
  | temporary =>
    have hnone : (s.workspace.symbols.symbol o.symbol).lexeme = none := hdenotes
    rw [hl] at hnone
    cases hnone

theorem Represents.exists_target {k : Demand} {value target : Operand} {rest : List Operand}
    (h : Represents s v) (hd : Action.store.demand k v.waiting)
    (ho : s.operands = value :: target :: rest) :
    ∃ l, (s.workspace.symbols.symbol target.symbol).lexeme = some l ∧ l.kind = .identifier := by
  obtain ⟨live, bank, hw, -⟩ := h
  obtain ⟨first, x, _, _, hv, -⟩ := hd
  have hsymbols := hw.symbols
  have hvalues : first :: .var x :: _ = live.map Prod.snd := hv.symm.trans hw.values
  rw [ho] at hsymbols
  cases live with
  | nil => cases hvalues
  | cons hold live =>
    cases live with
    | nil => cases hvalues
    | cons hold' live =>
      simp only [List.map_cons, List.cons.injEq] at hsymbols hvalues
      have hdenotes := hw.coherent.denotes hold' (.tail _ List.mem_cons_self)
      rw [← hvalues.2.1, ← hsymbols.2.1] at hdenotes
      obtain ⟨⟨p, hp⟩, -⟩ := hw.coherent.named x _ hdenotes
      exact ⟨_, hp, rfl⟩

def Session.acting (s : Session) (a : Action) (rest : List GrammarSymbol) : Session :=
  { s with control := rest }.record (.actionTaken a)

@[simp] theorem Session.operands_acting (s : Session) (a : Action) (rest : List GrammarSymbol) :
    (s.acting a rest).operands = s.operands := rfl

@[simp] theorem Session.workspace_acting (s : Session) (a : Action) (rest : List GrammarSymbol) :
    (s.acting a rest).workspace = s.workspace := rfl

theorem Compiling.move_action {a : Action} {rest : List GrammarSymbol}
    (hc : s.control = .action a :: rest) : move s = perform a (s.acting a rest) := by
  rw [move_eq hc]
  rfl

theorem Represents.settles {a : Action} {rest : List GrammarSymbol} (hr : Represents s v)
    (hsafe : v.Safe) (hc : s.control = .action a :: rest) (ha : a ≠ .declare) :
    Settles s (fun _ s' => s.Leaves s') (Compiling.move s) := by
  have hloading : s.Loading (s.acting a rest) :=
    ⟨fun _ ho => ho, .refl _, fun id r hid => (hr.banked.bound id r).mp hid⟩
  rw [Compiling.move_action hc]
  refine settles_perform hloading ha ?_
  rintro rfl value target operands ho
  have hdemands := hsafe.demands
  rw [← hr.control, hc] at hdemands
  exact hr.exists_target hdemands ho

/-- A string constant that is printed finds every register free. -/
theorem Represents.choose_string {l : Lexeme} (hr : Represents s v) (ho : s.operands = [o])
    (hl : (s.workspace.symbols.symbol o.symbol).lexeme = some l) (hk : l.kind = .stringConst) :
    ∃ choice, s.workspace.choose o.symbol o.position = .ok choice := by
  have hbanked := hr.banked
  have hempty : s.temporaries = [] := by simp [Session.temporaries, ho, hl]
  have hregisters := (hempty ▸ hbanked.stacked).eq_empty
  have hnone := hbanked.unbound o.symbol (by simp [hl])
  obtain ⟨r, hr⟩ := Option.isSome_iff_exists.mp
    (Workspace.firstFree?_isSome (RegisterBank.holder_empty (α := SymbolId) ⟨0⟩))
  refine ⟨.fresh r (.constant l.text), ?_⟩
  rw [Workspace.choose, hnone, hregisters, hr, Workspace.loadOf, hl]
  simp only [hk]
  rfl

theorem Compiling.callPrint_ok {choice : Workspace.Acquisition} (ho : s.operands = [o])
    (h : s.workspace.choose o.symbol o.position = .ok choice) :
    ∃ s', callPrint s = .ok () s' ∧ s'.operands = [] := by
  rw [callPrint, bind_ok (popOperand_ok ho)]
  cases choice with
  | held r =>
    have hacquire : acquire o { s with operands := [] } = .ok r { s with
        operands := []
        workspace := s.workspace.commit o.symbol (.held r) } := by
      simp only [acquire, h]
    rw [bind_ok hacquire]
    exact ⟨_, rfl, rfl⟩
  | fresh r load =>
    have hacquire : acquire o { s with operands := [] } = .ok r
        ({ s with
          operands := []
          workspace := s.workspace.commit o.symbol (.fresh r load) }.record
          (.registerBound r o.symbol)) := by
      simp only [acquire, h]
    rw [bind_ok hacquire]
    exact ⟨_, rfl, rfl⟩

theorem Session.Tracked.declare {settled : List Lexeme} {x : Lexeme} {rest : List GrammarSymbol}
    (hr : Represents s v) (hc : s.control = .action .declare :: rest) (ho : s.operands = [o])
    (hp : ∀ x ∈ rest, x.isPlain = true) (hd : Declaring settled) (hk : x.kind = .identifier)
    (hx : o.StandsFor s.workspace.symbols x)
    (hrecords : s.workspace.symbols.Records (declarations Lexeme.kind settled))
    (hm : Compiling.move s = .ok () s') : s'.Tracked (settled ++ [x]) := by
  have hcontrol := Compiling.control_of_move (by simp) hc hm
  obtain ⟨l, hl, hlk, htext⟩ := hx.lexeme
  have hmem : o ∈ s.operands := ho ▸ List.mem_cons_self
  have hlookup := hr.lookup_of_lexeme hmem hl (hlk.trans hk)
  rw [Compiling.move_action hc] at hm
  rcases declare_cases (s := s.acting .declare rest) ho with
    ⟨_, _, -, he⟩ | ⟨hnone, slot, s₁, he, hs⟩
  · rw [Compiling.perform, he] at hm
    cases hm
  · rw [Compiling.perform, he] at hm
    cases hm
    obtain ⟨hoperands, hsymbols⟩ := hs
    refine ⟨settled ++ [x], ?_, ?_⟩
    · rw [hoperands, hcontrol]
      exact .between ⟨hp, by simp [hk]⟩ (by simp)
    · rw [hsymbols, declarations_concat_of_declaring hd hk, hx.position]
      exact hrecords.declare (htext ▸ hlookup) (hr.occupied hmem).1 hnone

theorem Session.Tracked.perform {a : Action} {rest : List GrammarSymbol} (h : s.Tracked matched)
    (hr : Represents s v) (hsafe : v.Safe) (hc : s.control = .action a :: rest)
    (hm : Compiling.move s = .ok () s') : s'.Tracked (matched ++ s.taken) := by
  obtain ⟨settled, hunderway, hrecords⟩ := h
  have htaken : s.taken = [] := by rw [Session.taken, hc]
  have hcontrol := Compiling.control_of_move (by simp) hc hm
  rw [htaken, List.append_nil]
  have hleaves : a ≠ .declare → s.Leaves s' := by
    intro ha
    have hsettles := hr.settles hsafe hc ha
    rw [hm] at hsettles
    exact hsettles
  have hkept : a ≠ .declare → s'.workspace.symbols.Records (declarations Lexeme.kind settled) :=
    fun ha => hrecords.spares (hleaves ha).symbols hr.tidy.steady hr.named
  rw [hc] at hunderway
  generalize ho : s.operands = operands at hunderway
  cases hunderway with
  | between hcalm htraced =>
    obtain ⟨hplain, hcalm'⟩ := hcalm.cons
    have ha : a ≠ .declare := by
      rintro rfl
      cases hplain
    refine ⟨matched, ?_, hkept ha⟩
    rw [hcontrol]
    refine .between hcalm' fun o' ho' => ?_
    rcases (hleaves ha).operands o' ho' with hold | hresult
    · exact (htraced o' (ho ▸ hold)).keep ((hleaves ha).symbols.origin o'.symbol)
    · exact .inl hresult
  | declared hp hd hk hx => exact .declare hr hc ho hp hd hk hx hrecords hm
  | format hcalm hk hx =>
    refine ⟨matched, ?_, hkept (by decide)⟩
    rw [hcontrol]
    rw [Compiling.move_action hc] at hm
    obtain ⟨hoperands, hsymbols⟩ := Compiling.stringFormat_ok hm
    rw [hoperands, hsymbols, Session.operands_acting, Session.workspace_acting, ho]
    exact .call hcalm hk hx
  | call hcalm hk hx =>
    obtain ⟨l, hl, hlk, -⟩ := hx.lexeme
    obtain ⟨choice, hchoose⟩ := hr.choose_string ho hl (hlk.trans hk)
    obtain ⟨s₁, he, hoperands⟩ :=
      Compiling.callPrint_ok (s := s.acting .callPrint rest) ho hchoose
    refine ⟨matched, ?_, hkept (by decide)⟩
    rw [Compiling.move_action hc, Compiling.perform, he] at hm
    cases hm
    rw [hcontrol, hoperands]
    exact .between hcalm (by simp)

/-- At every state of a compilation the values that wait stand for tokens, and the declarations are
those of the tokens. -/
theorem Reached.tracked (h : Reached input matched s) : s.Tracked matched := by
  induction h with
  | @start s hs =>
    have hcontrol := (Compiling.start_ok hs).2
    obtain ⟨hoperands, hsymbols⟩ := Compiling.symbols_of_start hs
    refine ⟨[], ?_, ?_⟩
    · rw [hoperands, hcontrol]
      exact .between ⟨by decide, not_declaring_nil⟩ (by simp)
    · rw [hsymbols]
      have hgrows : SymbolTable.Grows {} (SymbolTable.note {} s.lookahead) :=
        SymbolTable.grows_note s.lookahead
      exact hgrows.records Coherent.empty.tidy [] SymbolTable.records_empty
  | @move matched s s' hreached hc hm ih =>
    obtain ⟨v, hr, hsafe⟩ := hreached.exists_safe
    obtain ⟨x, rest, hx⟩ := List.exists_cons_of_ne_nil hc
    cases x with
    | terminal t => exact ih.matchTerminal hr hx hm
    | nonterminal n => exact ih.expand hr hsafe hx hm
    | action a => exact ih.perform hr hsafe hx hm

end OnePass
