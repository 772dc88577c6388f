import OnePass.Proofs.Provenance
import OnePass.Proofs.Slots
import OnePass.Proofs.Tracking

/-! # Slots are kept

In a compilation tokens add symbols, and actions add intermediate results, bind symbols to registers
and free the places of values that have been used. Only variables are declared, and only places of
other values are freed and filled again. So a slot stays with its variable through every operation,
whether the compilation ends well or fails.
-/
namespace OnePass

open Relation (ReflTransGen)
open Compiling (Reaches)

section AnyDistance

variable {distance : String → String → Nat} [NameDistance distance]

namespace SymbolTable

variable {table table' : SymbolTable} {id : SymbolId}

/-! ## Operations -/

inductive Adds (table : SymbolTable) : SymbolTable → Prop
  | reference (l : Lexeme) : Adds table (table.reference l).2
  | literal (l : Lexeme) : Adds table (table.literal l).2

inductive Reuses (table : SymbolTable) : SymbolTable → Prop
  | anonymous : Reuses table table.anonymous.2
  | setRegister (id : SymbolId) (r : Option Register) : Reuses table (table.setRegister id r)
  | discard (id : SymbolId) : Reuses table (table.discard id)

inductive Operates (table table' : SymbolTable) : Prop
  | adds : table.Adds table' → Operates table table'
  | reuses : table.Reuses table' → Operates table table'
  | declares {id : SymbolId} {site : Position} {slot : Nat} :
    table.declare id site = .ok (slot, table') → Operates table table'

/-- The first table becomes the second one by single operations, and what comes of each of them has
dense slots and retains the declarations of the first table. -/
def Passes (table table' : SymbolTable) : Prop :=
  ReflTransGen (fun t t' => t.Operates t' ∧ t'.Dense ∧ table.Retains t') table table'

theorem Passes.dense (h : table.Passes table') (hd : table.Dense) : table'.Dense := by
  rcases ReflTransGen.cases_tail h with rfl | ⟨t, -, -, hdense, -⟩
  · exact hd
  · exact hdense

theorem Passes.retains (h : table.Passes table') : table.Retains table' := by
  rcases ReflTransGen.cases_tail h with rfl | ⟨t, -, -, -, hretains⟩
  · exact .refl _
  · exact hretains

/-- Operations that make no declaration as long as an invariant holds pass through dense tables. -/
theorem passes_of_steps {step : SymbolTable → SymbolTable → Prop} {invariant : SymbolTable → Prop}
    (hstep : ∀ t t', invariant t → step t t' →
      t.Operates t' ∧ invariant t' ∧ t.SameDeclarations t')
    (hi : invariant table) (hd : table.Dense) (h : ReflTransGen step table table') :
    table.Passes table' := by
  have hall : invariant table' ∧ table.SameDeclarations table' ∧ table.Passes table' := by
    induction h with
    | refl => exact ⟨hi, .refl table, .refl⟩
    | tail _ hlast ih =>
      obtain ⟨hinvariant, hsame, hpasses⟩ := ih
      obtain ⟨hoperates, hinvariant', hsame'⟩ := hstep _ _ hinvariant hlast
      have hsame'' := hsame.trans hsame'
      exact ⟨hinvariant', hsame'', hpasses.tail ⟨hoperates, hsame''.dense hd, hsame''.retains⟩⟩
  exact hall.2.2

/-! ## Tokens -/

theorem Adds.tidy (h : table.Adds table') (ht : table.Tidy) : table'.Tidy := by
  cases h with
  | reference l => exact (grows_reference l).tidy ht
  | literal l => exact (grows_literal l).tidy ht

theorem Adds.sameDeclarations (h : table.Adds table') (ht : table.Tidy) :
    table.SameDeclarations table' := by
  cases h with
  | reference l => exact sameDeclarations_reference ht l
  | literal l => exact sameDeclarations_add ht rfl

theorem passes_of_adds (ht : table.Tidy) (hd : table.Dense)
    (h : ReflTransGen Adds table table') : table.Passes table' :=
  passes_of_steps (fun _ _ ht hadds => ⟨.adds hadds, hadds.tidy ht, hadds.sameDeclarations ht⟩)
    ht hd h

/-! ## Actions -/

/-- The places to use again hold no lexeme, and what is declared is an identifier. -/
structure Anchored (table : SymbolTable) : Prop where
  steady : table.Steady
  identifier : ∀ id d, (table.symbol id).declaration = some d →
    ∃ l, (table.symbol id).lexeme = some l ∧ l.kind = .identifier

theorem Reuses.spares (h : table.Reuses table') : table.Spares table' := by
  cases h with
  | anonymous => exact spares_anonymous
  | setRegister id r => exact spares_setRegister r
  | discard id => exact spares_discard

theorem Reuses.declared (h : table.Reuses table') : table'.declared = table.declared := by
  cases h with
  | anonymous =>
    unfold SymbolTable.anonymous add
    split <;> rfl
  | setRegister id r => rfl
  | discard id =>
    unfold SymbolTable.discard
    split <;> rfl

/-- No place that is used again belongs to a variable, so no declaration goes with it. -/
theorem Reuses.sameDeclarations (h : table.Reuses table') (ha : table.Anchored) :
    table.SameDeclarations table' := by
  refine ⟨fun id => ?_, h.declared⟩
  cases hd : (table.symbol id).declaration with
  | none =>
    by_contra hne
    obtain ⟨d, hd'⟩ := Option.ne_none_iff_exists'.mp hne
    rw [h.spares.made id d hd'] at hd
    cases hd
  | some d =>
    obtain ⟨l, hl, hk⟩ := ha.identifier id d hd
    exact (h.spares.kept ha.steady id l hl hk).trans hd

theorem Reuses.anchored (h : table.Reuses table') (ha : table.Anchored) : table'.Anchored where
  steady := h.spares.steady ha.steady
  identifier id d hd := by
    obtain ⟨l, hl, hk⟩ := ha.identifier id d (h.spares.made id d hd)
    exact ⟨l, h.spares.lexeme ha.steady id l hl hk, hk⟩

theorem passes_of_reuses (ha : table.Anchored) (hd : table.Dense)
    (h : ReflTransGen Reuses table table') : table.Passes table' :=
  passes_of_steps (fun _ _ ha hreuses =>
    ⟨.reuses hreuses, hreuses.anchored ha, hreuses.sameDeclarations ha⟩) ha hd h

end SymbolTable

open SymbolTable (Adds Reuses)

/-! ## What computations do to the table -/

namespace Compiling

variable {α β : Type} {step : SymbolTable → SymbolTable → Prop}

/-- The computation changes the table by such steps only, also when it fails. -/
def UpdatesBy (step : SymbolTable → SymbolTable → Prop) (x : Compiling α) : Prop :=
  ∀ s, ReflTransGen step s.workspace.symbols (left (x s)).workspace.symbols

namespace UpdatesBy

theorem of_symbols_eq {x : Compiling α}
    (h : ∀ s, (left (x s)).workspace.symbols = s.workspace.symbols) : UpdatesBy step x := by
  intro s
  rw [h s]

theorem bind {x : Compiling α} {f : α → Compiling β} (hx : UpdatesBy step x)
    (hf : ∀ a, UpdatesBy step (f a)) : UpdatesBy step (x >>= f) := by
  intro s
  have hfirst := hx s
  cases hr : x s with
  | error d s₁ =>
    rw [bind_error hr]
    rw [hr] at hfirst
    exact hfirst
  | ok a s₁ =>
    rw [bind_ok hr]
    rw [hr] at hfirst
    exact hfirst.trans (hf a s₁)

theorem pure (a : α) : UpdatesBy step (Pure.pure a) :=
  of_symbols_eq fun _ => rfl

theorem get : UpdatesBy step (MonadState.get : Compiling Session) :=
  of_symbols_eq fun _ => rfl

theorem throw (d : Diagnostic) : UpdatesBy step (MonadExcept.throw d : Compiling α) :=
  of_symbols_eq fun _ => rfl

theorem broken (reason : String) : UpdatesBy step (Compiling.broken reason : Compiling α) :=
  throw _

theorem log (e : TraceEvent) : UpdatesBy step (Compiling.log e) :=
  of_symbols_eq fun _ => rfl

theorem emit (segment : Segment) (line : Line) : UpdatesBy step (Compiling.emit segment line) :=
  of_symbols_eq fun _ => rfl

theorem emitAll (lines : List (Segment × Line)) : UpdatesBy step (Compiling.emitAll lines) := by
  induction lines with
  | nil => exact pure _
  | cons line lines ih => exact (emit _ _).bind fun _ => ih

theorem pushOperand (o : Operand) : UpdatesBy step (Compiling.pushOperand o) :=
  of_symbols_eq fun _ => rfl

theorem popOperand : UpdatesBy step Compiling.popOperand := by
  refine of_symbols_eq fun s => ?_
  rw [Compiling.popOperand, bind_ok (get_ok s)]
  cases s.operands <;> rfl

theorem popOperator : UpdatesBy step Compiling.popOperator := by
  refine of_symbols_eq fun s => ?_
  rw [Compiling.popOperator, bind_ok (get_ok s)]
  cases s.operators <;> rfl

theorem currentLabel : UpdatesBy step Compiling.currentLabel := by
  refine of_symbols_eq fun s => ?_
  rw [Compiling.currentLabel, bind_ok (get_ok s)]
  cases s.workspace.emitter.currentLabel? <;> rfl

/-! ### Parts of actions -/

theorem temporary : UpdatesBy Reuses Compiling.temporary := by
  have hanonymous : UpdatesBy Reuses (withSymbols SymbolTable.anonymous) :=
    fun _ => .single .anonymous
  exact hanonymous.bind fun _ => get.bind fun _ => pure _

theorem acquire (o : Operand) : UpdatesBy Reuses (Compiling.acquire o) := by
  intro s
  unfold Compiling.acquire
  cases s.workspace.choose o.symbol o.position with
  | error d => exact .refl
  | ok choice =>
    cases choice with
    | held r => exact .refl
    | fresh r load =>
      have hsymbols : (s.workspace.commit o.symbol (.fresh r load)).symbols =
          s.workspace.symbols.setRegister o.symbol (some r) := by
        rw [Workspace.commit, Workspace.bind, Workspace.symbols_load]
      change ReflTransGen Reuses _ (s.workspace.commit o.symbol (.fresh r load)).symbols
      rw [hsymbols]
      exact .single (.setRegister _ _)

theorem consume (o : Operand) : UpdatesBy Reuses (Compiling.consume o) := by
  refine (log _).bind fun _ s => ?_
  have hreleased : ReflTransGen Reuses s.workspace.symbols
      (s.workspace.symbols.setRegister o.symbol none) := .single (.setRegister _ _)
  exact hreleased.tail (.discard o.symbol)

theorem result {i : Register → Instruction} : UpdatesBy Reuses (do
    let result ← Compiling.temporary
    let r ← Compiling.acquire result
    instruction (i r)
    Compiling.pushOperand result : Compiling Unit) :=
  temporary.bind fun _ => (acquire _).bind fun _ => (emit _ _).bind fun _ => pushOperand _

theorem clearRegisters : UpdatesBy Reuses Compiling.clearRegisters := by
  refine get.bind fun _ => (log _).bind fun _ s => ?_
  change ReflTransGen Reuses _ (s.workspace.symbols.forgetRegisters s.workspace.registers.held)
  exact List.foldlRecOn _ _ .refl fun _ h _ _ => h.tail (.setRegister _ _)

/-! ### Actions -/

theorem store : UpdatesBy Reuses Compiling.store := by
  refine popOperand.bind fun value => popOperand.bind fun target => popOperator.bind fun op => ?_
  split
  on_goal 1 => refine (broken _).bind fun _ => ?_
  all_goals
    refine get.bind fun s => ?_
    dsimp only
    split
    · exact throw _
    · exact (acquire _).bind fun _ => (emit _ _).bind fun _ => (consume _).bind fun _ => consume _

theorem compute : UpdatesBy Reuses Compiling.compute := by
  refine popOperator.bind fun op => popOperand.bind fun right => popOperand.bind fun left =>
    (acquire _).bind fun a => (acquire _).bind fun b => (consume _).bind fun _ =>
      (consume _).bind fun _ => ?_
  split
  · exact currentLabel.bind fun _ => (emit _ _).bind fun _ => emit _ _
  · exact result
  · exact broken _

theorem sign : UpdatesBy Reuses Compiling.sign := by
  refine popOperator.bind fun op => popOperand.bind fun operand => ?_
  split
  · exact pushOperand _
  · exact (acquire _).bind fun _ => (consume _).bind fun _ => result
  · exact broken _

theorem callPrint : UpdatesBy Reuses Compiling.callPrint :=
  popOperand.bind fun _ => (acquire _).bind fun _ => (emit _ _).bind fun _ =>
    (emit _ _).bind fun _ => (emit _ _).bind fun _ => (emit _ _).bind fun _ => consume _

theorem closeLabel : UpdatesBy step Compiling.closeLabel := by
  refine of_symbols_eq fun s => ?_
  rw [Compiling.closeLabel, bind_ok (get_ok s)]
  cases s.workspace.emitter.currentLabel? <;> rfl

theorem epilogue : UpdatesBy step Compiling.epilogue := by
  refine get.bind fun s => ?_
  split
  · exact emitAll _
  · exact broken _

theorem perform {a : Action} (ha : a ≠ .declare) : UpdatesBy Reuses (Compiling.perform a) := by
  cases a with
  | declare => exact absurd rfl ha
  | prologue => exact emitAll _
  | epilogue => exact epilogue
  | store => exact store
  | compute => exact compute
  | sign => exact sign
  | callPrint => exact callPrint
  | integerFormat | stringFormat => exact emit _ _
  | openLabels => exact of_symbols_eq fun _ => rfl
  | closeLabels => exact closeLabel
  | placeBegin | placeEnd | jumpBegin | jumpEnd => exact currentLabel.bind fun _ => emit _ _
  | clearRegisters => exact clearRegisters
  | pushOperator => exact pure _

/-! ### Tokens -/

theorem readLexeme : UpdatesBy Adds Compiling.readLexeme := by
  intro s
  unfold Compiling.readLexeme
  cases Lexer.next s.lexer with
  | error d lexer => exact .refl
  | ok l lexer =>
    change ReflTransGen Adds _ ({ s with lexer }.noteLexeme l).workspace.symbols
    unfold Session.noteLexeme
    dsimp only
    split
    · exact .single (.reference l)
    · exact .refl

theorem advance : UpdatesBy Adds Compiling.advance := by
  refine get.bind fun s => ?_
  split
  · exact readLexeme.bind fun _ => of_symbols_eq fun _ => rfl
  · exact pure _

theorem shift (l : Lexeme) : UpdatesBy Adds (Compiling.shift l) := by
  have hreference : UpdatesBy Adds (withSymbols (·.reference l)) := fun _ => .single (.reference l)
  have hliteral : UpdatesBy Adds (withSymbols (·.literal l)) := fun _ => .single (.literal l)
  unfold Compiling.shift
  split
  · exact hreference.bind fun _ => pushOperand _
  · exact hliteral.bind fun _ => pushOperand _
  · exact (of_symbols_eq fun _ => rfl).bind fun _ => hliteral.bind fun _ => pushOperand _
  case h_4 | h_5 | h_6 | h_7 =>
    split
    · exact of_symbols_eq fun _ => rfl
    · exact broken _
  · exact pure _

theorem matchTerminal (t : Terminal) : UpdatesBy Adds (Compiling.matchTerminal t) := by
  refine get.bind fun s => ?_
  have hmatched : UpdatesBy Adds (do
      modify fun s' : Session =>
        { s' with workspace.emitter := s'.workspace.emitter.moveTo s.lookahead.position }
      Compiling.log (.terminalMatched t s.lookahead.text)
      Compiling.shift s.lookahead
      Compiling.advance : Compiling Unit) :=
    (of_symbols_eq fun _ => rfl).bind fun _ => (log _).bind fun _ => (shift _).bind fun _ => advance
  dsimp only
  split
  · exact (throw _).bind fun _ => hmatched
  · exact hmatched

end UpdatesBy

end Compiling

variable {input : Input} {matched matched' : List Lexeme} {s s' : Session} {d : Diagnostic}

/-! ## Declarations -/

namespace Compiling

theorem popOperand_nil (h : s.operands = []) :
    popOperand s = .error (.internal "operand stack is empty") s := by
  rw [popOperand, bind_ok (get_ok s), h]
  rfl

/-- A declaration that fails leaves symbols, registers and lines as they are. Otherwise the table
has declared one of the operands. -/
theorem declare_outcome (s : Session) :
    (∃ d s', declare s = .error d s' ∧ s'.workspace = s.workspace) ∨
      ∃ s', declare s = .ok () s' ∧ ∃ o ∈ s.operands, ∃ slot,
        s.workspace.symbols.declare o.symbol o.position = .ok (slot, s'.workspace.symbols) := by
  cases ho : s.operands with
  | nil => exact .inl ⟨_, s, bind_error (popOperand_nil ho) _, rfl⟩
  | cons o rest =>
    rw [declare, bind_ok (popOperand_ok ho), bind_ok (get_ok _)]
    dsimp only
    cases hd : s.workspace.symbols.declare o.symbol o.position with
    | error earlier => exact .inl ⟨_, _, rfl, rfl⟩
    | ok answer => exact .inr ⟨_, rfl, o, List.mem_cons_self, answer.1, hd⟩

theorem symbols_of_expand (n : Nonterminal) (s : Session) :
    (left (expand n s)).workspace.symbols = s.workspace.symbols := by
  rw [expand, bind_ok (get_ok s)]
  cases languageTable.rule? n s.lookahead.kind <;> rfl

end Compiling

open Compiling (left)

/-! ## Along a compilation -/

theorem Reached.anchored (h : Reached input matched s) : s.workspace.symbols.Anchored := by
  obtain ⟨v, hr, -⟩ := h.exists_safe
  obtain ⟨settled, -, hrecords⟩ := h.tracked
  refine ⟨hr.tidy.steady, fun id d hd => ?_⟩
  obtain ⟨l, -, hid⟩ := hrecords.origin id d hd
  obtain ⟨m, hm, hk, -⟩ := hr.named _ id hid
  exact ⟨m, hm, hk⟩

/-- A variable that is declared again is refused before anything has been changed. -/
theorem Compiling.workspace_of_declare_error {rest : List GrammarSymbol}
    (hc : s.control = .action .declare :: rest) (hm : Compiling.move s = .error d s') :
    s'.workspace = s.workspace := by
  rw [Compiling.move_action hc] at hm
  rcases Compiling.declare_outcome (s.acting .declare rest) with
    ⟨_, _, hfails, hsame⟩ | ⟨_, hdeclares, -⟩
  · cases hfails.symm.trans hm
    exact hsame
  · cases hdeclares.symm.trans hm

theorem Reached.passes_move_declare {rest : List GrammarSymbol} (h : Reached input matched s)
    (hd : s.workspace.symbols.Dense) (hc : s.control = .action .declare :: rest) :
    s.workspace.symbols.Passes (left (Compiling.move s)).workspace.symbols := by
  obtain ⟨v, hr, -⟩ := h.exists_safe
  cases hm : Compiling.move s with
  | error d s' =>
    rw [left, Compiling.workspace_of_declare_error hc hm]
    exact .refl
  | ok _ s' =>
    rw [Compiling.move_action hc] at hm
    rcases Compiling.declare_outcome (s.acting .declare rest) with
      ⟨_, _, hfails, -⟩ | ⟨_, hok, o, ho, slot, hdeclare⟩
    · cases hfails.symm.trans hm
    · cases hok.symm.trans hm
      have hdeclares := (SymbolTable.declares_of_declare (hr.occupied ho).1 hdeclare).2
      exact .single ⟨.declares hdeclare, hdeclares.dense hd, hdeclares.retains⟩

/-- A move passes through dense tables, also when it fails. -/
theorem Reached.passes_move (h : Reached input matched s) (hd : s.workspace.symbols.Dense) :
    s.workspace.symbols.Passes (left (Compiling.move s)).workspace.symbols := by
  obtain ⟨v, hr, -⟩ := h.exists_safe
  cases hc : s.control with
  | nil =>
    rw [Compiling.move, Compiling.bind_ok (Compiling.get_ok s), hc]
    exact .refl
  | cons x rest =>
    cases x with
    | terminal t =>
      rw [Compiling.move_eq hc]
      exact SymbolTable.passes_of_adds hr.tidy hd
        (Compiling.UpdatesBy.matchTerminal t { s with control := rest })
    | nonterminal n =>
      have hsame : (left (Compiling.expand n { s with control := rest })).workspace.symbols =
          s.workspace.symbols := Compiling.symbols_of_expand n _
      rw [Compiling.move_eq hc, Compiling.step, hsame]
      exact .refl
    | action a =>
      by_cases ha : a = .declare
      · rw [ha] at hc
        exact h.passes_move_declare hd hc
      · rw [Compiling.move_eq hc]
        exact SymbolTable.passes_of_reuses h.anchored hd
          (((Compiling.UpdatesBy.log _).bind fun _ => .perform ha) { s with control := rest })

theorem Reached.dense (h : Reached input matched s) : s.workspace.symbols.Dense := by
  induction h with
  | start hs =>
    rw [(Compiling.symbols_of_start hs).2, SymbolTable.note]
    split
    · exact (SymbolTable.sameDeclarations_reference Coherent.empty.tidy _).dense
        SymbolTable.dense_empty
    · exact SymbolTable.dense_empty
  | move hreached _ hm ih =>
    have hpasses := hreached.passes_move ih
    rw [hm] at hpasses
    exact hpasses.dense ih

theorem Reached.retains_of_reaches {n : Nat} (h : Reached input matched s)
    (hr : Reaches n s s') : s.workspace.symbols.Retains s'.workspace.symbols := by
  induction hr generalizing matched with
  | here => exact .refl _
  | move hc hm _ ih =>
    have hpasses := h.passes_move h.dense
    rw [hm] at hpasses
    exact hpasses.retains.trans (ih (h.move hc hm))

/-! ## The end of a compilation -/

theorem Compiling.Reaches.concat {n : Nat} {s'' : Session} (h : Reaches n s s')
    (hc : s'.control ≠ []) (hm : Compiling.move s' = .ok () s'') : Reaches (n + 1) s s'' := by
  induction h with
  | here => exact .move hc hm .here
  | move hc' hm' _ ih => exact .move hc' hm' (ih hc hm)

theorem Reached.exists_start (h : Reached input matched s) :
    ∃ s₀ n, Compiling.start (.ofInput input) = .ok () s₀ ∧ Reaches n s₀ s := by
  induction h with
  | start hs => exact ⟨_, 0, hs, .here⟩
  | move _ hc hm ih =>
    obtain ⟨s₀, n, hs, hn⟩ := ih
    exact ⟨s₀, n + 1, hs, hn.concat hc hm⟩

theorem Reached.exists_reaches (h : Reached input matched s) (h' : Reached input matched' s')
    (hlast : s'.control = [] ∨ ∃ d e, Compiling.move s' = .error d e) : ∃ n, Reaches n s s' := by
  induction h with
  | start hs =>
    obtain ⟨s₀, n, hs', hn⟩ := h'.exists_start
    rw [hs] at hs'
    cases hs'
    exact ⟨n, hn⟩
  | @move matched s s₁ _ hc hm ih =>
    obtain ⟨n, hn⟩ := ih
    -- A move has one result, so the run from `s` begins with the move to `s₁`.
    cases hn with
    | here =>
      rcases hlast with hnil | ⟨d, e, he⟩
      · exact absurd hnil hc
      · rw [hm] at he
        cases he
    | move _ hm' hrest =>
      rw [hm] at hm'
      cases hm'
      exact ⟨_, hrest⟩

theorem Compiling.symbols_of_start_error (h : Compiling.start (.ofInput input) = .error d s) :
    s.workspace.symbols = {} := by
  rcases Compiling.exists_of_bind_error h with hread | ⟨l, s₁, -, h⟩
  · unfold Compiling.readLexeme at hread
    split at hread
    · cases hread
    · cases hread
      rfl
  · cases h

/-- A compilation ends in a state with an empty control stack, in a move that fails, or before its
first state. -/
theorem Reached.passes_outcome (input : Input) :
    (∃ d s, Compiling.start (.ofInput input) = .error d s ∧
      (left (outcome {} input)).workspace.symbols = {}) ∨
    ∃ matched s, Reached input matched s ∧
      (s.control = [] ∨ ∃ d e, Compiling.move s = .error d e) ∧
      s.workspace.symbols.Passes (left (outcome {} input)).workspace.symbols := by
  cases ho : outcome {} input with
  | ok _ s =>
    obtain ⟨matched, s', hreached, hc, hworkspace⟩ := Reached.exists_of_outcome_ok ho
    refine .inr ⟨matched, s', hreached, .inl hc, ?_⟩
    rw [left, hworkspace]
    exact .refl
  | error d s =>
    rcases Reached.exists_of_outcome_error ho with hstart | ⟨matched, s', hreached, -, hm⟩
    · exact .inl ⟨d, s, hstart, Compiling.symbols_of_start_error hstart⟩
    · have hpasses := hreached.passes_move hreached.dense
      rw [hm] at hpasses
      exact .inr ⟨matched, s', hreached, .inr ⟨d, s, hm⟩, hpasses⟩

theorem dense_outcome (input : Input) :
    (left (outcome {} input)).workspace.symbols.Dense := by
  rcases Reached.passes_outcome input with ⟨d, s, -, hempty⟩ | ⟨matched, s, hreached, -, hpasses⟩
  · rw [hempty]
    exact SymbolTable.dense_empty
  · exact hpasses.dense hreached.dense

theorem Reached.retains_outcome (h : Reached input matched s) :
    s.workspace.symbols.Retains (left (outcome {} input)).workspace.symbols := by
  rcases Reached.passes_outcome input with
    ⟨d, e, hfails, -⟩ | ⟨matched', s', hreached, hlast, hpasses⟩
  · obtain ⟨s₀, n, hs, -⟩ := h.exists_start
    rw [hfails] at hs
    cases hs
  · obtain ⟨n, hn⟩ := h.exists_reaches hreached hlast
    exact (h.retains_of_reaches hn).trans hpasses.retains

/-! ## What has been declared -/

/-- The matched tokens whose declarations have been made: all of them, except for a name that is
about to be declared. -/
def Session.settled (s : Session) (matched : List Lexeme) : List Lexeme :=
  if s.control.head? = some (.action .declare) then matched.dropLast else matched

theorem Underway.settled_eq {table : SymbolTable} {settled : List Lexeme}
    {control : List GrammarSymbol} {operands : List Operand}
    (h : Underway table settled matched control operands) :
    settled = if control.head? = some (.action .declare) then matched.dropLast else matched := by
  cases h with
  | between hcalm =>
    rw [if_neg]
    intro hhead
    cases hcalm.plain _ (List.mem_of_head? hhead)
  | declared => simp
  | declaration | name | print | choice | string | format | call => simp

theorem Session.Tracked.records (h : s.Tracked matched) :
    s.workspace.symbols.Records (declarations Lexeme.kind (s.settled matched)) := by
  obtain ⟨settled, hunderway, hrecords⟩ := h
  rwa [hunderway.settled_eq] at hrecords

def Session.firstSite (s : Session) (matched : List Lexeme) (id : SymbolId) : Option Position :=
  ((declarations Lexeme.kind (s.settled matched)).find? fun l =>
    s.workspace.symbols.lookup l.text = some id).map Lexeme.position

theorem SymbolTable.Records.site? {table : SymbolTable} {declared : List Lexeme}
    (h : table.Records declared) (id : SymbolId) :
    table.site? id =
      (declared.find? fun l => table.lookup l.text = some id).map Lexeme.position := by
  cases hfind : declared.find? fun l => table.lookup l.text = some id with
  | none =>
    rw [SymbolTable.site?, Option.map_none, Option.map_eq_none_iff]
    cases hd : (table.symbol id).declaration with
    | none => rfl
    | some d =>
      obtain ⟨l, hl, hid⟩ := h.origin id d hd
      simpa [hid] using List.find?_eq_none.mp hfind l hl
  | some l =>
    have hid : table.lookup l.text = some id := by simpa using List.find?_some hfind
    obtain ⟨id', slot, hid', hd⟩ := h.recorded l (List.mem_of_find?_eq_some hfind)
    obtain rfl : id = id' := Option.some.inj (hid.symm.trans hid')
    rw [SymbolTable.site?, hd]
    rfl

/-- After any requests, and in every state of a compilation, also within a move and at the end, the
slots are the numbers from one to the number of declarations, and one symbol holds each. A
declaration is accepted if and only if it is the first one of its symbol, which then gets the next
slot. Any other is refused with the site of the first one, and nothing changes. A slot is never
changed or lost, although the places of literals and intermediate results are used again. -/
theorem slots_permanent :
    (∀ requests c, Client.serve {} requests = some c →
      c.workspace.symbols.Dense ∧
      c.workspace.symbols.Answers (firstSite requests) ∧
      ∀ more c', c.serve more = some c' →
        c.workspace.symbols.Retains c'.workspace.symbols) ∧
    ∀ input,
      (∀ matched s, Reached input matched s →
        s.workspace.symbols.Dense ∧
        s.workspace.symbols.Answers (s.firstSite matched) ∧
        (∀ rest d s', s.control = .action .declare :: rest → Compiling.move s = .error d s' →
          s'.workspace = s.workspace) ∧
        s.workspace.symbols.Passes (left (Compiling.move s)).workspace.symbols ∧
        (∀ n s', Reaches n s s' → s.workspace.symbols.Retains s'.workspace.symbols) ∧
        s.workspace.symbols.Retains (left (outcome {} input)).workspace.symbols) ∧
      (left (outcome {} input)).workspace.symbols.Dense := by
  refine ⟨fun requests c h => ?_, fun input => ⟨fun matched s h => ?_, dense_outcome input⟩⟩
  · obtain ⟨hnumbered, -⟩ := Client.numbered_initial.serve h
    rw [List.nil_append] at hnumbered
    exact ⟨hnumbered.dense, SymbolTable.answers_of_site? hnumbered.sites,
      fun _ _ h' => (hnumbered.serve h').2⟩
  · exact ⟨h.dense, SymbolTable.answers_of_site? h.tracked.records.site?,
      fun _ _ _ hc hm => Compiling.workspace_of_declare_error hc hm, h.passes_move h.dense,
      fun _ _ hr => h.retains_of_reaches hr, h.retains_outcome⟩

end AnyDistance

/-- A symbol is declared twice by requests, and a variable by a program. In another program a number
takes the place of an earlier one. -/
theorem slots_permanent_beside_recycling :
    (∃ c c', Client.serve {} [.reference ⟨"x", .identifier, {}⟩, .literal ⟨"7", .number, {}⟩,
        .declare ⟨0⟩ ⟨1, 10⟩] = some c ∧
      c.serve [.anonymous, .declare ⟨2⟩ ⟨2, 10⟩, .declare ⟨0⟩ ⟨3, 10⟩] = some c' ∧
      c.workspace.symbols.Dense ∧
      c.workspace.symbols.declare ⟨0⟩ ⟨3, 10⟩ = .error ⟨1, 10⟩ ∧
      (c'.workspace.symbols.symbol ⟨0⟩).declaration = some ⟨1, ⟨1, 10⟩⟩) ∧
    (∃ matched s rest d s', Reached (.ofText declaredTwice) matched s ∧
      s.control = .action .declare :: rest ∧ Compiling.move s = .error d s' ∧
      s'.workspace = s.workspace) ∧
    ∃ matched s s', Reached (.ofText productOfSums) matched s ∧ Reaches 1 s s' ∧
      s.workspace.symbols.free = [⟨1⟩] ∧ s'.workspace.symbols.free = [] ∧
      (s'.workspace.symbols.symbol ⟨0⟩).declaration = some ⟨1, ⟨1, 10⟩⟩ := by
  refine ⟨?_, ?_, ?_⟩
  · have hserve : Client.serve {} [.reference ⟨"x", .identifier, {}⟩, .literal ⟨"7", .number, {}⟩,
      .declare ⟨0⟩ ⟨1, 10⟩] = some _ := rfl
    obtain ⟨hdense, hanswers, hretains⟩ := slots_permanent.1 _ _ hserve
    have hrefused := (hanswers.refused ⟨0⟩ ⟨3, 10⟩ ⟨1, 10⟩ Nat.zero_lt_two).mpr rfl
    have hretained := hretains [.anonymous, .declare ⟨2⟩ ⟨2, 10⟩, .declare ⟨0⟩ ⟨3, 10⟩] _ rfl
      ⟨0⟩ _ rfl
    exact ⟨_, _, hserve, rfl, hdense, hrefused, hretained⟩
  · obtain ⟨matched, s, hreached, hp⟩ : ∃ matched s, Reached (.ofText declaredTwice) matched s ∧
        decide (s.control.head? = some (.action .declare) ∧
          Compiling.move.run' s = none) = true :=
      exists_reached_of_stateAfter (n := 11) (by decide +kernel)
    obtain ⟨hhead, hfails⟩ := of_decide_eq_true hp
    obtain ⟨rest, hc⟩ := List.head?_eq_some_iff.mp hhead
    cases hm : Compiling.move s with
    | ok _ s' =>
      have hsome : Compiling.move.run' s = some () :=
        congrArg (fun result => EStateM.run' (fun _ => result) s) hm
      cases hsome.symm.trans hfails
    | error d s' =>
      have hsame := ((slots_permanent.2 _).1 matched s hreached).2.2.1 rest d s' hc hm
      exact ⟨matched, s, rest, d, s', hreached, hc, hm, hsame⟩
  · obtain ⟨matched, s, hreached, hp⟩ : ∃ matched s, Reached (.ofText productOfSums) matched s ∧
        decide (s.control ≠ [] ∧ Compiling.move.run' s = some () ∧
          s.workspace.symbols.free = [⟨1⟩] ∧
          (Compiling.left (Compiling.move s)).workspace.symbols.free = [] ∧
          (s.workspace.symbols.symbol ⟨0⟩).declaration = some ⟨1, ⟨1, 10⟩⟩) = true :=
      exists_reached_of_stateAfter (n := 37) (by decide +kernel)
    obtain ⟨hc, hmoves, hfree, hfree', hd⟩ := of_decide_eq_true hp
    cases hm : Compiling.move s with
    | error d s' =>
      have hnone : Compiling.move.run' s = none :=
        congrArg (fun result => EStateM.run' (fun _ => result) s) hm
      cases hnone.symm.trans hmoves
    | ok _ s' =>
      rw [hm] at hfree'
      have hr : Reaches 1 s s' := .move hc hm .here
      have hretains := ((slots_permanent.2 _).1 matched s hreached).2.2.2.2.1 1 s' hr
      exact ⟨matched, s, s', hreached, hr, hfree, hfree', hretains _ _ hd⟩

end OnePass
