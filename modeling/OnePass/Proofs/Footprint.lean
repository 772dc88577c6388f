import Mathlib.Logic.Relation
import OnePass.Proofs.Refinement

/-! # What actions can do

An action works by a few kinds of changes to the session, also when it fails in the end, and it fails
with a diagnostic that is not about syntax. Whatever every kind of change preserves, every action
preserves: the control stack and the input to begin with.
-/
namespace OnePass

variable {distance : String → String → Nat} [NameDistance distance]

def Line.isFixed : Line → Bool
  | instruction (.loadNumber ..) => false
  | definition _ literal => literal ∈ ["\"%d\"", "\"%s\""]
  | verbatim _ => false
  | _ => true

namespace Compiling

theorem exists_of_bind_ok {α β : Type} {x : Compiling α} {f : α → Compiling β} {s s' : Session}
    {b : β} (h : (x >>= f) s = .ok b s') : ∃ a s₁, x s = .ok a s₁ ∧ f a s₁ = .ok b s' := by
  cases hr : x s with
  | error d s₁ =>
    rw [bind_error hr] at h
    cases h
  | ok a s₁ =>
    rw [bind_ok hr] at h
    exact ⟨a, s₁, rfl, h⟩

theorem exists_of_bind_error {α β : Type} {x : Compiling α} {f : α → Compiling β}
    {s s' : Session} {d : Diagnostic} (h : (x >>= f) s = .error d s') :
    x s = .error d s' ∨ ∃ a s₁, x s = .ok a s₁ ∧ f a s₁ = .error d s' := by
  cases hr : x s with
  | error d' s₁ =>
    rw [bind_error hr] at h
    cases h
    exact .inl rfl
  | ok a s₁ =>
    rw [bind_ok hr] at h
    exact .inr ⟨a, s₁, rfl, h⟩

inductive Change (s : Session) : Session → Prop
  | record (e : TraceEvent) : Change s (s.record e)
  | restack (operands : List Operand) (operators : List Operator) :
    Change s { s with operands, operators }
  | emit (segment : Segment) (line : Line) : line.isFixed = true →
    Change s { s with workspace.emitter := s.workspace.emitter.emit segment line }
  | openLabel : Change s { s with workspace.emitter := s.workspace.emitter.openLabel.2 }
  | closeLabel : Change s { s with workspace.emitter := s.workspace.emitter.closeLabel.2 }
  | result : Change s { s with workspace.symbols := s.workspace.symbols.anonymous.2 }
  | commit {id position choice} : s.workspace.choose id position = .ok choice →
    Change s { s with workspace := s.workspace.commit id choice }
  | consume (id : SymbolId) : Change s { s with workspace := s.workspace.consume id }
  | declare {id site slot symbols} : s.workspace.symbols.declare id site = .ok (slot, symbols) →
    Change s { s with workspace.symbols := symbols }
  | clear : Change s { s with workspace := s.workspace.releaseAll }

abbrev Changes : Session → Session → Prop :=
  Relation.ReflTransGen Change

theorem Changes.keeps {s s' : Session} (h : Changes s s') :
    s'.control = s.control ∧ s'.lexer = s.lexer ∧ s'.lookahead = s.lookahead := by
  induction h with
  | refl => exact ⟨rfl, rfl, rfl⟩
  | tail _ hc ih => cases hc <;> exact ih

/-- The computation makes changes of these kinds, also when it fails, and it does not find syntax
errors. -/
structure Acts {α : Type} (x : Compiling α) : Prop where
  changes : ∀ {s a s'}, x s = .ok a s' → Changes s s'
  failing : ∀ {s d s'}, x s = .error d s' → Changes s s' ∧ d.cause.isSyntax = false

variable {α β : Type}

theorem Acts.diagnosis {x : Compiling α} {s s' : Session} {d : Diagnostic} (h : Acts x)
    (hx : x s = .error d s') : d.cause.isSyntax = false :=
  (h.failing hx).2

/-! ## Parts of actions -/

theorem acts_of_ok {x : Compiling α} (h : ∀ s, ∃ a s', x s = .ok a s' ∧ Changes s s') : Acts x where
  changes := by
    intro s a s' hx
    obtain ⟨b, s₁, hr, hchanges⟩ := h s
    rw [hr] at hx
    cases hx
    exact hchanges
  failing := by
    intro s d s' hx
    obtain ⟨b, s₁, hr, -⟩ := h s
    rw [hr] at hx
    cases hx

theorem acts_pure (a : α) : Acts (pure a : Compiling α) :=
  acts_of_ok fun s => ⟨a, s, rfl, .refl⟩

theorem acts_throw {d : Diagnostic} (hd : d.cause.isSyntax = false) :
    Acts (throw d : Compiling α) where
  changes := by
    intro s a s' h
    have h : EStateM.Result.error d s = .ok a s' := h
    cases h
  failing := by
    rintro s d' s' ⟨⟩
    exact ⟨.refl, hd⟩

theorem acts_broken (reason : String) : Acts (broken reason : Compiling α) :=
  acts_throw rfl

theorem acts_get : Acts (get : Compiling Session) :=
  acts_of_ok fun s => ⟨s, s, rfl, .refl⟩

theorem acts_modify {f : Session → Session} (hf : ∀ s, Change s (f s)) :
    Acts (modify f : Compiling Unit) :=
  acts_of_ok fun s => ⟨(), f s, rfl, .single (hf s)⟩

theorem Acts.bind {x : Compiling α} {f : α → Compiling β} (hx : Acts x) (hf : ∀ a, Acts (f a)) :
    Acts (x >>= f) where
  changes := by
    intro s b s' h
    obtain ⟨a, s₁, hr, h⟩ := exists_of_bind_ok h
    exact (hx.changes hr).trans ((hf a).changes h)
  failing := by
    intro s d s' h
    rcases exists_of_bind_error h with hr | ⟨a, s₁, hr, h⟩
    · exact hx.failing hr
    · obtain ⟨hchanges, hd⟩ := (hf a).failing h
      exact ⟨(hx.changes hr).trans hchanges, hd⟩

theorem acts_log (e : TraceEvent) : Acts (log e) :=
  acts_modify fun _ => .record e

theorem acts_emit (segment : Segment) {line : Line} (h : line.isFixed = true) :
    Acts (emit segment line) :=
  acts_modify fun _ => .emit segment line h

theorem acts_emitAll {lines : List (Segment × Line)} (h : ∀ x ∈ lines, x.2.isFixed = true) :
    Acts (emitAll lines) := by
  induction lines with
  | nil => exact acts_pure _
  | cons line lines ih =>
    obtain ⟨hline, hlines⟩ := List.forall_mem_cons.mp h
    exact (acts_emit _ hline).bind fun _ => ih hlines

theorem acts_pushOperand (o : Operand) : Acts (pushOperand o) :=
  acts_modify fun _ => .restack _ _

theorem acts_popOperand : Acts popOperand := by
  refine acts_get.bind fun s => ?_
  split
  · exact (acts_modify fun _ => .restack _ _).bind fun _ => acts_pure _
  · exact acts_broken _

theorem acts_popOperator : Acts popOperator := by
  refine acts_get.bind fun s => ?_
  split
  · exact (acts_modify fun _ => .restack _ _).bind fun _ => acts_pure _
  · exact acts_broken _

theorem acts_currentLabel : Acts currentLabel := by
  refine acts_get.bind fun s => ?_
  split
  · exact acts_pure _
  · exact acts_broken _

theorem acts_temporary : Acts temporary := by
  refine Acts.bind (acts_of_ok ?_) fun _ => acts_get.bind fun _ => acts_pure _
  intro s
  exact ⟨_, _, rfl, .single .result⟩

theorem not_syntax_of_choose {w : Workspace} {id : SymbolId} {p : Position} {d : Diagnostic}
    (h : w.choose id p = .error d) : d.cause.isSyntax = false := by
  unfold Workspace.choose at h
  split at h
  · cases h
  · split at h
    · cases h
      rfl
    · unfold Workspace.loadOf at h
      dsimp only at h
      split at h
      · cases h
      · split at h
        · cases h
        · cases h
        · split at h
          · cases h
          · cases h
            rfl

theorem acts_acquire (o : Operand) : Acts (acquire o) where
  changes := by
    intro s r s' h
    unfold acquire at h
    split at h
    · cases h
    · next choice hchoose =>
      have hcommit : Changes s { s with workspace := s.workspace.commit o.symbol choice } :=
        .single (.commit hchoose)
      cases choice with
      | held q =>
        cases h
        exact hcommit
      | fresh q load =>
        cases h
        exact hcommit.tail (.record _)
  failing := by
    intro s d s' h
    unfold acquire at h
    split at h
    · next hchoose =>
      cases h
      exact ⟨.refl, not_syntax_of_choose hchoose⟩
    · dsimp only at h
      split at h <;> cases h

theorem acts_consume (o : Operand) : Acts (consume o) :=
  (acts_log _).bind fun _ => acts_modify fun _ => .consume _

theorem acts_result {i : Register → Instruction}
    (h : ∀ r, (Line.instruction (i r)).isFixed = true) : Acts (do
    let result ← temporary
    let r ← acquire result
    instruction (i r)
    pushOperand result : Compiling Unit) :=
  acts_temporary.bind fun _ => (acts_acquire _).bind fun r => (acts_emit _ (h r)).bind fun _ =>
    acts_pushOperand _

/-! ## Actions -/

theorem acts_declare : Acts declare := by
  refine acts_popOperand.bind fun o => ⟨?_, ?_⟩
  · intro s a s' h
    rw [bind_ok (get_ok s)] at h
    cases hd : s.workspace.symbols.declare o.symbol o.position with
    | error previous =>
      simp only [hd] at h
      cases h
    | ok result =>
      simp only [hd] at h
      cases h
      have hdeclare : Changes s { s with workspace.symbols := result.2 } := .single (.declare hd)
      exact (hdeclare.tail (.record _)).tail (.emit .text (.instruction .reserveSlot) rfl)
  · intro s d s' h
    rw [bind_ok (get_ok s)] at h
    cases hd : s.workspace.symbols.declare o.symbol o.position with
    | error previous =>
      simp only [hd] at h
      cases h
      exact ⟨.refl, rfl⟩
    | ok result =>
      simp only [hd] at h
      cases h

theorem acts_store : Acts store := by
  refine acts_popOperand.bind fun value => acts_popOperand.bind fun target =>
    acts_popOperator.bind fun op => ?_
  split
  on_goal 1 => refine (acts_broken _).bind fun _ => ?_
  all_goals
    refine acts_get.bind fun s => ?_
    dsimp only
    split
    · exact acts_throw rfl
    · exact (acts_acquire _).bind fun r => (acts_emit _ rfl).bind fun _ =>
        (acts_consume _).bind fun _ => acts_consume _

theorem acts_compute : Acts compute := by
  refine acts_popOperator.bind fun op => acts_popOperand.bind fun right =>
    acts_popOperand.bind fun left => (acts_acquire _).bind fun a => (acts_acquire _).bind fun b =>
      (acts_consume _).bind fun _ => (acts_consume _).bind fun _ => ?_
  split
  · exact acts_currentLabel.bind fun _ => (acts_emit _ rfl).bind fun _ => acts_emit _ rfl
  · exact acts_result fun _ => rfl
  · exact acts_broken _

theorem acts_sign : Acts sign := by
  refine acts_popOperator.bind fun op => acts_popOperand.bind fun operand => ?_
  split
  · exact acts_pushOperand _
  · exact (acts_acquire _).bind fun _ => (acts_consume _).bind fun _ => acts_result fun _ => rfl
  · exact acts_broken _

theorem acts_callPrint : Acts callPrint :=
  acts_popOperand.bind fun _ => (acts_acquire _).bind fun _ => (acts_emit _ rfl).bind fun _ =>
    (acts_emit _ rfl).bind fun _ => (acts_emit _ rfl).bind fun _ => (acts_emit _ rfl).bind fun _ =>
      acts_consume _

theorem acts_closeLabel : Acts closeLabel := by
  refine acts_get.bind fun s => ?_
  split
  · exact acts_modify fun _ => .closeLabel
  · exact acts_broken _

theorem acts_epilogue : Acts epilogue := by
  refine acts_get.bind fun s => ?_
  split
  · exact acts_emitAll (by decide)
  · exact acts_broken _

theorem acts_perform (a : Action) : Acts (perform a) := by
  cases a with
  | prologue => exact acts_emitAll (by decide)
  | epilogue => exact acts_epilogue
  | declare => exact acts_declare
  | store => exact acts_store
  | compute => exact acts_compute
  | sign => exact acts_sign
  | integerFormat | stringFormat => exact acts_emit _ rfl
  | callPrint => exact acts_callPrint
  | openLabels => exact acts_modify fun _ => .openLabel
  | closeLabels => exact acts_closeLabel
  | placeBegin | placeEnd | jumpBegin | jumpEnd =>
    exact acts_currentLabel.bind fun _ => acts_emit _ rfl
  | clearRegisters =>
    exact acts_get.bind fun _ => (acts_log _).bind fun _ => acts_modify fun _ => .clear
  | pushOperator => exact acts_pure _

/-! ## Matched tokens -/

/-- A matched token changes stacks, lines and symbols, the latter as its kind demands. -/
theorem shift_ok {l : Lexeme} {s s' : Session} (h : shift l s = .ok () s') :
    ∃ operands operators emitter symbols,
      s' = { s with
        operands
        operators
        workspace.emitter := emitter
        workspace.symbols := symbols } ∧
      (symbols = s.workspace.symbols ∨
        l.kind = .identifier ∧ symbols = (s.workspace.symbols.reference l).2 ∨
        (l.kind = .number ∨ l.kind = .stringConst) ∧
          symbols = (s.workspace.symbols.literal l).2) := by
  generalize hx : shift l = x at h
  unfold shift at hx
  split at hx
  · next hk =>
    subst hx
    cases h
    exact ⟨_, _, _, _, rfl, .inr (.inl ⟨hk, rfl⟩)⟩
  · next hk =>
    subst hx
    cases h
    exact ⟨_, _, _, _, rfl, .inr (.inr ⟨.inl hk, rfl⟩)⟩
  · next hk =>
    subst hx
    cases h
    exact ⟨_, _, _, _, rfl, .inr (.inr ⟨.inr hk, rfl⟩)⟩
  case h_4 | h_5 | h_6 | h_7 =>
    split at hx
    · subst hx
      cases h
      exact ⟨_, _, _, _, rfl, .inl rfl⟩
    · subst hx
      cases h
  · subst hx
    cases h
    exact ⟨_, _, _, _, rfl, .inl rfl⟩

theorem shift_error {l : Lexeme} {s s' : Session} {d : Diagnostic} (h : shift l s = .error d s') :
    d.cause.isInternal = true := by
  generalize hx : shift l = x at h
  unfold shift at hx
  split at hx
  case h_4 | h_5 | h_6 | h_7 =>
    split at hx
    · subst hx
      cases h
    · subst hx
      cases h
      rfl
  all_goals
    subst hx
    cases h

end Compiling

end OnePass
