import OnePass.Compile
import OnePass.Proofs.Pushdown

/-! # Emitted lines

A move adds its lines behind those that were emitted before, and all of them carry one position. As
nothing ever looks at the target, it makes no difference whether it takes the lines of a program from
move to move or all of them at the end.
-/
namespace OnePass

variable {distance : String → String → Nat} [NameDistance distance]

/-! ## Lines of one move -/

/-- The second emitter is the first one after more lines at its position. -/
structure Emitter.Adds (e e' : Emitter) : Prop where
  position : e'.position = e.position
  lines : ∃ new, e'.emitted.toList = e.emitted.toList ++ new ∧ ∀ x ∈ new, x.position = e.position

namespace Emitter

variable {e e' e'' : Emitter}

theorem adds_of_emitted_eq (hp : e'.position = e.position) (he : e'.emitted = e.emitted) :
    e.Adds e' :=
  ⟨hp, [], by simp [he], by simp⟩

theorem Adds.refl (e : Emitter) : e.Adds e :=
  adds_of_emitted_eq rfl rfl

theorem Adds.trans (h : e.Adds e') (h' : e'.Adds e'') : e.Adds e'' := by
  obtain ⟨hp, new, hnew, hall⟩ := h
  obtain ⟨hp', new', hnew', hall'⟩ := h'
  refine ⟨hp'.trans hp, new ++ new', ?_, ?_⟩
  · rw [hnew', hnew, List.append_assoc]
  · intro x hx
    rcases List.mem_append.mp hx with hx | hx
    · exact hall x hx
    · exact (hall' x hx).trans hp

theorem adds_emit (e : Emitter) (segment : Segment) (line : Line) :
    e.Adds (e.emit segment line) :=
  ⟨rfl, [⟨segment, line, e.position⟩], by simp [emit], by simp⟩

theorem adds_intern (e : Emitter) (literal : String) : e.Adds (e.intern literal).2 := by
  rw [intern]
  cases e.strings.label? literal with
  | some label => exact .refl e
  | none =>
    have hpool : e.Adds { e with strings := (e.strings.intern literal).2 } :=
      adds_of_emitted_eq rfl rfl
    exact hpool.trans (adds_emit _ _ _)

end Emitter

open Emitter (Adds adds_emit adds_intern adds_of_emitted_eq)

theorem Workspace.adds_load (w : Workspace) (r : Register) (load : Workspace.Load) :
    w.emitter.Adds (w.load r load).emitter := by
  cases load with
  | computed => exact .refl _
  | number digits => exact adds_emit _ _ _
  | constant literal => exact (adds_intern _ literal).trans (adds_emit _ _ _)
  | slot number => exact adds_emit _ _ _

namespace Compiling

variable {s s' : Session}

theorem Change.adds (h : Change s s') : s.workspace.emitter.Adds s'.workspace.emitter := by
  cases h with
  | emit segment line hfixed => exact adds_emit _ _ _
  | openLabel | closeLabel => exact adds_of_emitted_eq rfl rfl
  | @commit id position choice hchoose =>
    cases choice with
    | held r => exact .refl _
    | fresh r load => exact Workspace.adds_load _ r load
  | record | restack | result | consume | declare | clear => exact .refl _

theorem Changes.adds (h : Changes s s') : s.workspace.emitter.Adds s'.workspace.emitter := by
  induction h with
  | refl => exact .refl _
  | tail _ hc ih => exact ih.trans hc.adds

theorem adds_of_shift {l : Lexeme} (h : shift l s = .ok () s') :
    s.workspace.emitter.Adds s'.workspace.emitter := by
  generalize hx : shift l = x at h
  unfold shift at hx
  split at hx
  case h_3 =>
    subst hx
    cases h
    exact adds_intern _ _
  case h_4 | h_5 | h_6 | h_7 =>
    split at hx
    · subst hx
      cases h
      exact .refl _
    · subst hx
      cases h
  all_goals
    subst hx
    cases h
    exact .refl _

theorem emitter_of_readLexeme {l : Lexeme} (h : readLexeme s = .ok l s') :
    s'.workspace.emitter = s.workspace.emitter := by
  unfold readLexeme at h
  split at h
  · cases h
    unfold Session.noteLexeme
    split <;> rfl
  · cases h

theorem emitter_of_advance (h : advance s = .ok () s') :
    s'.workspace.emitter = s.workspace.emitter := by
  rw [advance, bind_ok (get_ok s)] at h
  by_cases hk : s.lookahead.kind = .endOfInput
  · simp only [hk, ne_eq, not_true_eq_false, if_false] at h
    cases h
    rfl
  · simp only [hk, ne_eq, not_false_eq_true, if_true] at h
    obtain ⟨l, s₁, hread, h⟩ := exists_of_bind_ok h
    cases h
    have hemitter := emitter_of_readLexeme hread
    exact hemitter

theorem emitter_of_start (h : start s = .ok () s') :
    s'.workspace.emitter = s.workspace.emitter := by
  obtain ⟨l, s₁, hread, h⟩ := exists_of_bind_ok h
  cases h
  have hemitter := emitter_of_readLexeme hread
  exact hemitter

theorem workspace_of_expand {n : Nonterminal} (h : expand n s = .ok () s') :
    s'.workspace = s.workspace := by
  rw [expand, bind_ok (get_ok _)] at h
  cases hr : languageTable.rule? n s.lookahead.kind with
  | none =>
    rw [hr] at h
    cases h
  | some r =>
    rw [hr] at h
    cases h
    rfl

/-- A token is matched before the lines of its move are pushed, and the next token is read behind
them. -/
theorem adds_of_matchTerminal {t : Terminal} (h : matchTerminal t s = .ok () s') :
    (s.workspace.emitter.moveTo s.lookahead.position).Adds s'.workspace.emitter := by
  obtain ⟨-, _, s₂, rfl, hshift, hadvance⟩ := matchTerminal_ok h
  rw [emitter_of_advance hadvance]
  exact adds_of_shift hshift

end Compiling

/-- The token that the next move matches. The end of the input is matched like any other. -/
def Session.matching (s : Session) : List Lexeme :=
  match s.control with
  | .terminal _ :: _ => [s.lookahead]
  | _ => []

open Compiling in
theorem Compiling.adds_of_move {s s' : Session} (hc : s.control ≠ [])
    (h : move s = .ok () s') :
    s.matching = [] ∧ s.workspace.emitter.Adds s'.workspace.emitter ∨
      s.matching = [s.lookahead] ∧
        (s.workspace.emitter.moveTo s.lookahead.position).Adds s'.workspace.emitter := by
  obtain ⟨x, rest, hx⟩ := List.exists_cons_of_ne_nil hc
  rw [move_eq hx] at h
  rw [Session.matching, hx]
  cases x with
  | terminal t =>
    have hadds := adds_of_matchTerminal h
    exact .inr ⟨rfl, hadds⟩
  | nonterminal n =>
    rw [workspace_of_expand h]
    exact .inl ⟨rfl, .refl _⟩
  | action a =>
    have hacts := (acts_log (.actionTaken a)).bind fun _ => acts_perform a
    exact .inl ⟨rfl, (hacts.changes h).adds⟩

/-! ## Targets -/

def Target.taking (τ : Type) [Target τ] (pushed : List Emission) : τ :=
  pushed.foldl (fun t e => (Target.push t e).2) Target.empty

section Target

variable {τ : Type} [Target τ]

theorem Emitter.fill_taking {e e' : Emitter} {new : List Emission}
    (h : e'.emitted.toList = e.emitted.toList ++ new) :
    e'.fill e.emitted.size (Target.taking τ e.emitted.toList) =
      Target.taking τ e'.emitted.toList := by
  have hnew : (e'.emitted.extract e.emitted.size).toList = new := by
    have hsize : e'.emitted.size = e.emitted.size + new.length := by
      simpa using congrArg List.length h
    simp [List.extract_eq_take_drop, h, hsize]
  rw [fill, ← Array.foldl_toList, hnew, Target.taking, Target.taking, h, List.foldl_append]

namespace Compiling

variable {s s' : Session}

theorem exists_emitted_of_move (h : move s = .ok () s') : ∃ new,
    s'.workspace.emitter.emitted.toList = s.workspace.emitter.emitted.toList ++ new := by
  by_cases hc : s.control = []
  · rw [move, bind_ok (get_ok s), hc] at h
    cases h
    exact ⟨[], (List.append_nil _).symm⟩
  · rcases adds_of_move hc h with ⟨-, hadds⟩ | ⟨-, hadds⟩
    all_goals
      obtain ⟨new, hnew, -⟩ := hadds.lines
      exact ⟨new, hnew⟩

/-- A target that is filled from move to move holds what has been emitted. -/
theorem runInto_of_run_ok {fuel : Nat} (h : run fuel s = .ok () s') :
    runInto fuel s.workspace.emitter.emitted.size
        (Target.taking τ s.workspace.emitter.emitted.toList) s =
      .ok (Target.taking τ s'.workspace.emitter.emitted.toList) s' := by
  induction fuel generalizing s with
  | zero =>
    by_cases hc : s.control = []
    · rw [run_of_control_nil hc] at h
      cases h
      rw [runInto, bind_ok (get_ok _)]
      simp [hc]
      rfl
    · obtain ⟨d, s₁, herror⟩ := run_zero_error hc
      rw [herror] at h
      cases h
  | succ fuel ih =>
    rw [runInto, bind_ok (get_ok s)]
    by_cases hc : s.control = []
    · rw [run_of_control_nil hc] at h
      cases h
      simp [hc]
      rfl
    · rw [run_succ hc] at h
      obtain ⟨_, s₁, hm, hrun⟩ := exists_of_bind_ok h
      obtain ⟨new, hnew⟩ := exists_emitted_of_move hm
      have hfilled := Emitter.fill_taking (τ := τ) hnew
      simp only [List.isEmpty_iff, hc, if_false, bind_ok hm, bind_ok (get_ok s₁)]
      rw [hfilled]
      exact ih hrun

theorem runInto_of_run_error {fuel : Nat} {d : Diagnostic} (h : run fuel s = .error d s')
    (given : Nat) (t : τ) : runInto fuel given t s = .error d s' := by
  have hc : s.control ≠ [] := by
    intro hc
    rw [run_of_control_nil hc] at h
    cases h
  induction fuel generalizing s given t with
  | zero =>
    rw [run, bind_ok (get_ok s)] at h
    rw [runInto, bind_ok (get_ok s)]
    simp only [List.isEmpty_iff, hc, if_false] at h ⊢
    rw [bind_error h]
  | succ fuel ih =>
    rw [runInto, bind_ok (get_ok s)]
    rw [run_succ hc] at h
    rcases exists_of_bind_error h with hm | ⟨_, s₁, hm, hrun⟩
    · simp only [List.isEmpty_iff, hc, if_false, bind_error hm]
    · have hc₁ : s₁.control ≠ [] := by
        intro hc
        rw [run_of_control_nil hc] at hrun
        cases hrun
      simp only [List.isEmpty_iff, hc, if_false, bind_ok hm, bind_ok (get_ok s₁)]
      exact ih hrun _ _ hc₁

theorem emitter_of_predeclare {name : String} {position : Position}
    (h : predeclare name position s = .ok () s') :
    s'.workspace.emitter = s.workspace.emitter := by
  obtain ⟨id, s₁, hreference, h⟩ := exists_of_bind_ok h
  cases hreference
  cases h
  dsimp only
  split <;> rfl

theorem emitter_of_skip {n : Nat} (h : skip n s = .ok () s') :
    s'.workspace.emitter = s.workspace.emitter := by
  induction n generalizing s with
  | zero =>
    cases h
    rfl
  | succ n ih =>
    obtain ⟨l, s₁, hread, h⟩ := exists_of_bind_ok h
    rw [ih h, emitter_of_readLexeme hread]

theorem emitter_of_prepare {preamble : Preamble} (h : prepare preamble s = .ok () s') :
    s'.workspace.emitter = s.workspace.emitter := by
  obtain ⟨_, s₁, hdeclared, hskip⟩ := exists_of_bind_ok h
  rw [emitter_of_skip hskip]
  clear h
  generalize preamble.declared = declared at hdeclared
  induction declared generalizing s with
  | nil =>
    cases hdeclared
    rfl
  | cons entry declared ih =>
    obtain ⟨_, s₂, hentry, hrest⟩ := exists_of_bind_ok hdeclared
    rw [ih hrest, emitter_of_predeclare hentry]

end Compiling

open Compiling

variable {preamble : Preamble} {input : Input} {s : Session}

/-- A compilation into a target goes as it does without one, and the target gets the emitted
lines. -/
theorem outcomeInto_of_ok (h : outcome preamble input = .ok () s) :
    outcomeInto τ preamble input =
      .ok (Target.ofEmissions τ s.workspace.emitter.emitted.toList) s := by
  obtain ⟨_, s₁, hprepare, h⟩ := exists_of_bind_ok h
  obtain ⟨_, s₂, hstart, h⟩ := exists_of_bind_ok h
  rw [bind_ok (get_ok s₂)] at h
  obtain ⟨_, s₃, hrun, hfinished⟩ := exists_of_bind_ok h
  have hempty : s₂.workspace.emitter = {} :=
    (emitter_of_start hstart).trans (emitter_of_prepare hprepare)
  have hinto := runInto_of_run_ok (τ := τ) hrun
  rw [hempty] at hinto
  replace hinto : runInto (moveBudget s₂.lexer.upcoming.length) 0 Target.empty s₂ = _ := hinto
  rw [outcomeInto, bind_ok hprepare, programInto, bind_ok hstart, bind_ok (get_ok s₂),
    bind_ok hinto, bind_ok hfinished]
  cases hfinished
  rfl

theorem outcomeInto_of_error {d : Diagnostic} (h : outcome preamble input = .error d s) :
    outcomeInto τ preamble input = .error d s := by
  rcases exists_of_bind_error h with hprepare | ⟨_, s₁, hprepare, h⟩
  · exact bind_error hprepare _
  rw [outcomeInto, bind_ok hprepare]
  rcases exists_of_bind_error h with hstart | ⟨_, s₂, hstart, h⟩
  · exact bind_error hstart _
  rw [programInto, bind_ok hstart]
  rw [bind_ok (get_ok s₂)] at h ⊢
  rcases exists_of_bind_error h with hrun | ⟨_, s₃, hrun, hfinished⟩
  · exact bind_error (runInto_of_run_error hrun _ _) _
  · cases hfinished

end Target

end OnePass
