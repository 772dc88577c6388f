import OnePass.Proofs.Twins

/-! # Compilations in lockstep

From states that differ in names and positions only, every action and every move leads to such
states again, or fails in both for the same reason and at tokens that stand side by side.
-/
namespace OnePass

variable {distance : String → String → Nat} [NameDistance distance]

/-- The two lexers, each with its next token, go on with tokens that stand side by side until both
inputs end. -/
inductive Lexer.Paired (P : Pairing) : Lexeme → Lexer → Lexeme → Lexer → Prop
  | ended {x l x' l'} : (x, x') ∈ P.pairs → x.kind = .endOfInput → Paired P x l x' l'
  | more {x l x' l' y m y' m'} : (x, x') ∈ P.pairs → x.kind ≠ .endOfInput →
    Lexer.next l = .ok y m → Lexer.next l' = .ok y' m' → Paired P y m y' m' → Paired P x l x' l'

variable {P : Pairing}

theorem Lexer.Paired.mem {x x' : Lexeme} {l l' : Lexer} (h : Lexer.Paired P x l x' l') :
    (x, x') ∈ P.pairs := by
  cases h with
  | ended hx => exact hx
  | more hx => exact hx

structure Operand.Twin (P : Pairing) (o o' : Operand) : Prop where
  symbol : o.symbol = o'.symbol
  position : P.Aligned o.position o'.position

structure Session.Twin (P : Pairing) (s s' : Session) : Prop where
  tokens : Lexer.Paired P s.lookahead s.lexer s'.lookahead s'.lexer
  control : s.control = s'.control
  operands : List.Forall₂ (Operand.Twin P) s.operands s'.operands
  operators : s.operators = s'.operators
  workspace : s.workspace.Twin P s'.workspace

namespace Session.Twin

variable {s s' : Session}

theorem position (h : s.Twin P s') : P.Aligned s.position s'.position := by
  have hposition := h.workspace.emitter.position
  unfold Session.position
  generalize s.workspace.emitter.position = p, s'.workspace.emitter.position = p' at hposition
  cases hposition with
  | none => exact ⟨_, _, h.tokens.mem, rfl, rfl⟩
  | some hp => exact hp

theorem isDrained (h : s.Twin P s') : s.isDrained = s'.isDrained := by
  have hoperands : s.operands.isEmpty = s'.operands.isEmpty := by
    rw [Bool.eq_iff_iff, List.isEmpty_iff_length_eq_zero, List.isEmpty_iff_length_eq_zero,
      h.operands.length_eq]
  rw [Session.isDrained, Session.isDrained, hoperands, h.operators, h.workspace.emitter.labels]

theorem symbols (h : s.Twin P s') {table table' : SymbolTable} (ht : table.Twin P table') :
    Session.Twin P { s with workspace.symbols := table } { s' with workspace.symbols := table' } :=
  { h with workspace := { h.workspace with symbols := ht } }

theorem emitter (h : s.Twin P s') {e e' : Emitter} (he : e.Twin P e') :
    Session.Twin P { s with workspace.emitter := e } { s' with workspace.emitter := e' } :=
  { h with workspace := { h.workspace with emitter := he } }

end Session.Twin

namespace Compiling

inductive Agree (P : Pairing) {α β : Type} (R : α → β → Prop) :
    EStateM.Result Diagnostic Session α → EStateM.Result Diagnostic Session β → Prop
  | ok {a b s s'} : R a b → s.Twin P s' → Agree P R (.ok a s) (.ok b s')
  | error {d d' s s'} : d.Twin P d' → Agree P R (.error d s) (.error d' s')

/-- The computations have outcomes that are alike wherever the sessions are. -/
def Lockstep (P : Pairing) {α β : Type} (R : α → β → Prop) (x : Compiling α) (x' : Compiling β) :
    Prop :=
  ∀ s s', s.Twin P s' → Agree P R (x s) (x' s')

variable {α β γ δ : Type} {R : α → β → Prop} {S : γ → δ → Prop}

theorem lockstep_pure {a : α} {b : β} (h : R a b) : Lockstep P R (pure a) (pure b) :=
  fun _ _ hs => .ok h hs

theorem lockstep_throw {d d' : Diagnostic} (h : d.Twin P d') :
    Lockstep P R (throw d) (throw d') :=
  fun _ _ _ => .error h

theorem lockstep_broken (reason : String) : Lockstep P R (broken reason) (broken reason) :=
  lockstep_throw (.internal reason)

theorem Lockstep.bind {x : Compiling α} {x' : Compiling β} {f : α → Compiling γ}
    {f' : β → Compiling δ} (hx : Lockstep P R x x')
    (hf : ∀ a b, R a b → Lockstep P S (f a) (f' b)) : Lockstep P S (x >>= f) (x' >>= f') := by
  intro s s' hs
  have hagree := hx s s' hs
  generalize hr : x s = r, hr' : x' s' = r' at hagree
  cases hagree with
  | ok hab hs₁ =>
    rw [bind_ok hr, bind_ok hr']
    exact hf _ _ hab _ _ hs₁
  | error hd =>
    rw [bind_error hr, bind_error hr']
    exact .error hd

theorem lockstep_get : Lockstep P (Session.Twin P) get get :=
  fun _ _ hs => .ok hs hs

theorem lockstep_modify {f f' : Session → Session}
    (h : ∀ s s', s.Twin P s' → (f s).Twin P (f' s')) :
    Lockstep P Eq (modify f : Compiling Unit) (modify f') :=
  fun s s' hs => .ok rfl (h s s' hs)

/-! ## Parts of actions -/

theorem lockstep_log (e e' : TraceEvent) : Lockstep P Eq (log e) (log e') :=
  lockstep_modify fun _ _ hs => { hs with }

theorem lockstep_emit (segment : Segment) (line : Line) :
    Lockstep P Eq (emit segment line) (emit segment line) :=
  lockstep_modify fun _ _ hs => hs.emitter (hs.workspace.emitter.emit segment line)

theorem lockstep_emitAll (lines : List (Segment × Line)) :
    Lockstep P Eq (emitAll lines) (emitAll lines) := by
  induction lines with
  | nil => exact lockstep_pure rfl
  | cons line lines ih => exact (lockstep_emit _ _).bind fun _ _ _ => ih

theorem lockstep_pushOperand {o o' : Operand} (h : o.Twin P o') :
    Lockstep P Eq (pushOperand o) (pushOperand o') :=
  lockstep_modify fun _ _ hs => { hs with operands := .cons h hs.operands }

theorem lockstep_popOperand : Lockstep P (Operand.Twin P) popOperand popOperand := by
  refine lockstep_get.bind fun s s' hs => ?_
  have hoperands := hs.operands
  generalize s.operands = operands, s'.operands = operands' at hoperands
  cases hoperands with
  | nil => exact lockstep_broken _
  | cons ho hrest =>
    refine Lockstep.bind (lockstep_modify fun _ _ hs => ?_) fun _ _ _ => lockstep_pure ho
    exact { hs with operands := hrest }

theorem lockstep_pushOperator (op : Operator) :
    Lockstep P Eq (pushOperator op) (pushOperator op) :=
  lockstep_modify fun _ _ hs => { hs with operators := congrArg (op :: ·) hs.operators }

theorem lockstep_popOperator : Lockstep P Eq popOperator popOperator := by
  refine lockstep_get.bind fun s s' hs => ?_
  rw [← hs.operators]
  cases s.operators with
  | nil => exact lockstep_broken _
  | cons op rest =>
    refine Lockstep.bind (lockstep_modify fun _ _ hs => ?_) fun _ _ _ => lockstep_pure rfl
    exact { hs with operators := rfl }

theorem lockstep_currentLabel : Lockstep P Eq currentLabel currentLabel := by
  refine lockstep_get.bind fun s s' hs => ?_
  unfold Emitter.currentLabel?
  rw [← hs.workspace.emitter.labels]
  cases s.workspace.emitter.labels.head? with
  | none => exact lockstep_broken _
  | some n => exact lockstep_pure rfl

theorem lockstep_openLabel : Lockstep P Eq openLabel openLabel := by
  refine lockstep_modify fun s s' hs => hs.emitter ?_
  have he := hs.workspace.emitter
  unfold Emitter.openLabel
  rw [← he.labels, ← he.labelCount]
  exact { he with labels := rfl, labelCount := rfl }

theorem lockstep_closeLabel : Lockstep P Eq closeLabel closeLabel := by
  refine lockstep_get.bind fun s s' hs => ?_
  unfold Emitter.currentLabel?
  rw [← hs.workspace.emitter.labels]
  cases s.workspace.emitter.labels.head? with
  | none => exact lockstep_broken _
  | some n =>
    refine lockstep_modify fun _ _ hs => hs.emitter ?_
    have he := hs.workspace.emitter
    exact { he with labels := congrArg List.tail he.labels }

theorem lockstep_withSymbols {operation operation' : SymbolTable → SymbolId × SymbolTable}
    (h : ∀ table table', table.Twin P table' → (operation table).1 = (operation' table').1 ∧
      (operation table).2.Twin P (operation' table').2) :
    Lockstep P Eq (withSymbols operation) (withSymbols operation') := by
  intro s s' hs
  obtain ⟨hid, htable⟩ := h _ _ hs.workspace.symbols
  exact .ok hid (hs.symbols htable)

theorem lockstep_temporary : Lockstep P (Operand.Twin P) temporary temporary :=
  (lockstep_withSymbols fun _ _ h => h.anonymous).bind fun _ _ hid =>
    lockstep_get.bind fun _ _ hs => lockstep_pure ⟨hid, hs.position⟩

theorem lockstep_acquire {o o' : Operand} (h : o.Twin P o') :
    Lockstep P Eq (acquire o) (acquire o') := by
  intro s s' hs
  unfold acquire
  rw [← h.symbol]
  rcases hs.workspace.choose h.position o.symbol with
    ⟨choice, hchoose, hchoose'⟩ | ⟨d, d', hchoose, hchoose', hd⟩
  · rw [hchoose, hchoose']
    have hcommit := hs.workspace.commit o.symbol choice
    cases choice with
    | held r => exact .ok rfl { hs with workspace := hcommit }
    | fresh r load => exact .ok rfl { hs with workspace := hcommit }
  · rw [hchoose, hchoose']
    exact .error hd

theorem lockstep_consume {o o' : Operand} (h : o.Twin P o') :
    Lockstep P Eq (consume o) (consume o') := by
  unfold consume
  rw [← h.symbol]
  exact (lockstep_log _ _).bind fun _ _ _ =>
    lockstep_modify fun _ _ hs => { hs with workspace := hs.workspace.consume _ }

theorem lockstep_result (i : Register → Instruction) :
    let result : Compiling Unit := do
      let result ← temporary
      let r ← acquire result
      instruction (i r)
      pushOperand result
    Lockstep P Eq result result := by
  refine lockstep_temporary.bind fun _ _ ho => (lockstep_acquire ho).bind fun _ _ hr => ?_
  subst hr
  exact (lockstep_emit _ _).bind fun _ _ _ => lockstep_pushOperand ho

/-! ## Actions -/

theorem lockstep_declare : Lockstep P Eq declare declare := by
  refine lockstep_popOperand.bind fun o o' ho => lockstep_get.bind fun s s' hs => ?_
  dsimp only
  rw [← ho.symbol]
  rcases hs.workspace.symbols.declare o.symbol o.position o'.position with
    ⟨q, q', hdeclare, hdeclare'⟩ | ⟨slot, table, table', hdeclare, hdeclare', htable⟩
  · rw [hdeclare, hdeclare']
    exact lockstep_throw (Diagnostic.Twin.located rfl ho.position)
  · rw [hdeclare, hdeclare']
    exact (lockstep_modify fun _ _ hs => hs.symbols htable).bind fun _ _ _ =>
      (lockstep_log _ _).bind fun _ _ _ => lockstep_emit _ _

theorem lockstep_store : Lockstep P Eq store store := by
  refine lockstep_popOperand.bind fun value value' hv =>
    lockstep_popOperand.bind fun target target' ht => lockstep_popOperator.bind fun op op' ho => ?_
  subst ho
  by_cases hassign : op = .assign
  · subst hassign
    refine lockstep_get.bind fun s s' hs => ?_
    dsimp only
    rw [← ht.symbol, ← (hs.workspace.symbols.symbol target.symbol).slot]
    cases (s.workspace.symbols.symbol target.symbol).slot? with
    | none => exact lockstep_throw (Diagnostic.Twin.located rfl ht.position)
    | some slot =>
      refine (lockstep_acquire hv).bind fun _ _ hr => ?_
      subst hr
      exact (lockstep_emit _ _).bind fun _ _ _ => (lockstep_consume hv).bind fun _ _ _ =>
        lockstep_consume ht
  · simp only [ne_eq, hassign, not_false_eq_true, if_true]
    exact Lockstep.bind (R := fun _ _ => False) (lockstep_broken _) fun _ _ h => h.elim

theorem lockstep_compute : Lockstep P Eq compute compute := by
  refine lockstep_popOperator.bind fun op op' ho => lockstep_popOperand.bind fun _ _ hright =>
    lockstep_popOperand.bind fun _ _ hleft => (lockstep_acquire hleft).bind fun _ _ ha =>
      (lockstep_acquire hright).bind fun _ _ hb => (lockstep_consume hleft).bind fun _ _ _ =>
        (lockstep_consume hright).bind fun _ _ _ => ?_
  subst ho ha hb
  cases op with
  | comparison op =>
    refine lockstep_currentLabel.bind fun _ _ hn => ?_
    subst hn
    exact (lockstep_emit _ _).bind fun _ _ _ => lockstep_emit _ _
  | arithmetic op => exact lockstep_result _
  | assign => exact lockstep_broken _

theorem lockstep_sign : Lockstep P Eq sign sign := by
  refine lockstep_popOperator.bind fun op op' ho => lockstep_popOperand.bind fun _ _ hoperand => ?_
  subst ho
  split
  · exact lockstep_pushOperand hoperand
  · refine (lockstep_acquire hoperand).bind fun _ _ ha => ?_
    subst ha
    exact (lockstep_consume hoperand).bind fun _ _ _ => lockstep_result _
  · exact lockstep_broken _

theorem lockstep_callPrint : Lockstep P Eq callPrint callPrint := by
  refine lockstep_popOperand.bind fun _ _ hvalue => (lockstep_acquire hvalue).bind fun _ _ hr => ?_
  subst hr
  exact (lockstep_emit _ _).bind fun _ _ _ => (lockstep_emit _ _).bind fun _ _ _ =>
    (lockstep_emit _ _).bind fun _ _ _ => (lockstep_emit _ _).bind fun _ _ _ =>
      lockstep_consume hvalue

theorem lockstep_epilogue : Lockstep P Eq epilogue epilogue := by
  refine lockstep_get.bind fun s s' hs => ?_
  rw [← hs.isDrained]
  cases s.isDrained with
  | true => exact lockstep_emitAll _
  | false => exact lockstep_broken _

theorem lockstep_clearRegisters : Lockstep P Eq clearRegisters clearRegisters :=
  lockstep_get.bind fun _ _ _ => (lockstep_log _ _).bind fun _ _ _ =>
    lockstep_modify fun _ _ hs => { hs with workspace := hs.workspace.releaseAll }

theorem lockstep_emitFor (line : Nat → Line) :
    let emitted : Compiling Unit := do emit .text (line (← currentLabel))
    Lockstep P Eq emitted emitted := by
  refine lockstep_currentLabel.bind fun _ _ hn => ?_
  subst hn
  exact lockstep_emit _ _

theorem lockstep_perform (a : Action) : Lockstep P Eq (perform a) (perform a) := by
  cases a with
  | prologue => exact lockstep_emitAll _
  | epilogue => exact lockstep_epilogue
  | declare => exact lockstep_declare
  | store => exact lockstep_store
  | compute => exact lockstep_compute
  | sign => exact lockstep_sign
  | integerFormat | stringFormat => exact lockstep_emit _ _
  | callPrint => exact lockstep_callPrint
  | openLabels => exact lockstep_openLabel
  | closeLabels => exact lockstep_closeLabel
  | placeBegin | placeEnd | jumpBegin | jumpEnd => exact lockstep_emitFor _
  | clearRegisters => exact lockstep_clearRegisters
  | pushOperator => exact lockstep_pure rfl

/-! ## Moves -/

theorem lockstep_shift {l l' : Lexeme} (hl : (l, l') ∈ P.pairs) :
    Lockstep P Eq (shift l) (shift l') := by
  have hposition : P.Aligned l.position l'.position := ⟨l, l', hl, rfl, rfl⟩
  unfold shift
  rw [← P.kind_eq hl]
  split
  · next hk =>
    exact (lockstep_withSymbols fun _ _ h => h.reference hl hk).bind fun _ _ hid =>
      lockstep_pushOperand ⟨hid, hposition⟩
  · exact (lockstep_withSymbols fun _ _ h => h.literal hl).bind fun _ _ hid =>
      lockstep_pushOperand ⟨hid, hposition⟩
  · next hk =>
    rw [← P.text_eq hl (by simp [hk])]
    refine Lockstep.bind (lockstep_modify fun s s' hs => ?_) fun _ _ _ =>
      (lockstep_withSymbols fun _ _ h => h.literal hl).bind fun _ _ hid =>
        lockstep_pushOperand ⟨hid, hposition⟩
    exact hs.emitter (hs.workspace.emitter.intern l.text).2
  case h_4 hk | h_5 hk | h_6 hk | h_7 hk =>
    rw [← P.text_eq hl (by simp [hk])]
    cases Operator.ofText? l.text with
    | some op => exact lockstep_pushOperator op
    | none => exact lockstep_broken _
  · exact lockstep_pure rfl

theorem readLexeme_eq {s : Session} {y : Lexeme} {m : Lexer}
    (hn : Lexer.next s.lexer = .ok y m) : ∃ events, readLexeme s = .ok y { s with
      lexer := m
      workspace.symbols := s.workspace.symbols.note y
      events } := by
  rw [readLexeme, hn]
  unfold Session.noteLexeme SymbolTable.note
  dsimp only
  split_ifs
  · exact ⟨_, rfl⟩
  · exact ⟨_, rfl⟩

-- The sessions are no twins while the lexer is behind a token that is not the lookahead yet, so
-- reading and keeping the token is one step here.
theorem lockstep_advance : Lockstep P Eq advance advance := by
  intro s s' hs
  have htokens := hs.tokens
  generalize hx : s.lookahead = x, hx' : s'.lookahead = x', hl : s.lexer = l, hl' : s'.lexer = l'
    at htokens
  cases htokens with
  | ended hmem hend =>
    have hend' := (P.kind_eq hmem).symm.trans hend
    rw [advance, bind_ok (get_ok s), if_neg (by simp [hx, hend]), bind_ok (get_ok s'),
      if_neg (by simp [hx', hend'])]
    exact .ok rfl hs
  | more hmem hend hn hn' hrest =>
    have hend' := (P.kind_eq hmem) ▸ hend
    subst hx hx' hl hl'
    obtain ⟨events, he⟩ := readLexeme_eq hn
    obtain ⟨events', he'⟩ := readLexeme_eq hn'
    rw [advance, bind_ok (get_ok s), if_pos hend, bind_ok he, bind_ok (get_ok s'), if_pos hend',
      bind_ok he']
    have hnoted := hs.symbols (hs.workspace.symbols.note hrest.mem)
    exact .ok rfl { hnoted with tokens := hrest }

theorem lockstep_matchTerminal (t : Terminal) :
    Lockstep P Eq (matchTerminal t) (matchTerminal t) := by
  refine lockstep_get.bind fun s s' hs => ?_
  have hmem := hs.tokens.mem
  have hposition : P.Aligned s.lookahead.position s'.lookahead.position := ⟨_, _, hmem, rfl, rfl⟩
  dsimp only
  rw [← P.kind_eq hmem]
  by_cases hk : s.lookahead.kind = t
  · simp only [hk, ne_eq, not_true_eq_false, if_false]
    refine Lockstep.bind (lockstep_modify fun _ _ h => ?_) fun _ _ _ =>
      (lockstep_log _ _).bind fun _ _ _ => (lockstep_shift hmem).bind fun _ _ _ => lockstep_advance
    exact h.emitter { h.workspace.emitter with position := .some hposition }
  · simp only [hk, ne_eq, not_false_eq_true, if_true]
    exact Lockstep.bind (R := fun _ _ => False)
      (lockstep_throw (Diagnostic.Twin.located rfl hposition)) fun _ _ h => h.elim

theorem lockstep_expand (n : Nonterminal) : Lockstep P Eq (expand n) (expand n) := by
  refine lockstep_get.bind fun s s' hs => ?_
  have hmem := hs.tokens.mem
  dsimp only
  rw [← P.kind_eq hmem]
  cases languageTable.rule? n s.lookahead.kind with
  | some r =>
    refine (lockstep_log _ _).bind fun _ _ _ => lockstep_modify fun _ _ h => ?_
    exact { h with control := congrArg (r.rhs ++ ·) h.control }
  | none => exact lockstep_throw (Diagnostic.Twin.located rfl ⟨_, _, hmem, rfl, rfl⟩)

theorem lockstep_step (x : GrammarSymbol) : Lockstep P Eq (step x) (step x) := by
  cases x with
  | terminal t => exact lockstep_matchTerminal t
  | nonterminal n => exact lockstep_expand n
  | action a => exact (lockstep_log _ _).bind fun _ _ _ => lockstep_perform a

theorem lockstep_move : Lockstep P Eq move move := by
  refine lockstep_get.bind fun s s' hs => ?_
  rw [← hs.control]
  cases s.control with
  | nil => exact lockstep_pure rfl
  | cons x rest =>
    refine Lockstep.bind (lockstep_modify fun _ _ h => ?_) fun _ _ _ => lockstep_step x
    exact { h with control := rfl }

end Compiling

end OnePass
