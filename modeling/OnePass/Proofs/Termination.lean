import OnePass.Proofs.LanguageTable
import OnePass.Proofs.Reached

/-! # The parser stops

Between two tokens the parser replaces nonterminals and performs actions. The symbols that replace a
nonterminal cost less than it does, unless they begin with the next token; so the height of the
control stack bounds the moves before that token. As there are finitely many tokens, the parser comes
to an end on every input.
-/
namespace OnePass

open Compiling (Reaches)

section AnyDistance

variable {distance : String → String → Nat} [NameDistance distance]

namespace Compiling

inductive Idles : Nat → Session → Session → Prop
  | here {s} : Idles 0 s s
  | move {n s s' s''} : s.control ≠ [] → s.taken = [] → move s = .ok () s' → Idles n s' s'' →
    Idles (n + 1) s s''

variable {n : Nat} {s s' : Session}

theorem Idles.potential_le (h : Idles n s s') : n + potential s' ≤ potential s := by
  induction h with
  | here => exact Nat.le_of_eq (Nat.zero_add _)
  | move hc ht hm _ ih =>
    have hlower := potential_of_idle (pushes_of_move hc hm) ht
    omega

theorem totalCost_le (symbols : List GrammarSymbol) : totalCost symbols ≤ 16 * symbols.length := by
  induction symbols with
  | nil => exact Nat.le_refl 0
  | cons x symbols ih =>
    have hx : cost x ≤ 16 := by
      cases x with
      | terminal | action => exact Nat.le_add_left 1 15
      | nonterminal n => cases n <;> decide
    rw [totalCost, List.length_cons]
    omega

/-- The moves before the next token are within the height of the stack. -/
theorem Idles.le (h : Idles n s s') : n ≤ fare * (s.control.length + 1) := by
  have hle := h.potential_le
  have hcost := totalCost_le s.control
  rw [potential, potential] at hle
  rw [fare] at hle ⊢
  split_ifs at hle <;> omega

/-- The parser is about to do something else than to move without a token: its stack is empty, it
takes a token, or it fails. -/
def Halts (s : Session) : Prop :=
  s.control = [] ∨ s.taken ≠ [] ∨ ∃ d s', move s = .error d s'

theorem exists_idles (s : Session) : ∃ n s', Compiling.Idles n s s' ∧ Compiling.Halts s' := by
  induction hp : potential s using Nat.strongRecOn generalizing s with
  | ind k ih =>
    by_cases hc : s.control = []
    · exact ⟨0, s, .here, .inl hc⟩
    by_cases ht : s.taken = []
    · cases hm : move s with
      | error d s' => exact ⟨0, s, .here, .inr (.inr ⟨d, s', hm⟩)⟩
      | ok _ s₁ =>
        have hlower := potential_of_idle (pushes_of_move hc hm) ht
        obtain ⟨n, s', hidles, hhalts⟩ := ih _ (hp ▸ hlower) s₁ rfl
        exact ⟨n + 1, s', .move hc ht hm hidles, hhalts⟩
    · exact ⟨0, s, .here, .inr (.inl ht)⟩

/-- From its beginning the parser moves until its stack is empty or a move fails. -/
theorem exists_end {input : Input} (h : start (.ofInput input) = .ok () s) :
    ∃ n s', Reaches n s s' ∧ (s'.control = [] ∨ ∃ d s'', move s' = .error d s'') := by
  obtain ⟨-, hc⟩ := start_ok h
  cases hrun : run (moveBudget s.lexer.upcoming.length) s with
  | ok _ s' =>
    obtain ⟨n, hreaches, hnil⟩ := exists_reaches hrun
    exact ⟨n, s', hreaches, .inl hnil⟩
  | error d s'' =>
    obtain ⟨n, s', hreaches, -, hm⟩ := exists_failing_move_of_budget hc (mode_of_start h) hrun
    exact ⟨n, s', hreaches, .inr ⟨d, s'', hm⟩⟩

end Compiling

/-- The parser comes to an end on every input, with the table that the rules of the language give:
either the first token cannot be read, or the moves from there are bounded in number, and they lead
to an empty stack or to a failure. In every state, a constant times the height of the stack bounds
the moves before the next token is taken, a move fails or the stack is empty. -/
theorem parser_stops :
    (∃ table, ParseTable.build language = .ok table ∧
      ∀ n t, table.rule? n t = languageTable.rule? n t) ∧
    (∀ input, (∃ d s, Compiling.start (.ofInput input) = .error d s) ∨
      ∃ s, Compiling.start (.ofInput input) = .ok () s ∧
        (∃ bound, ∀ n s', Reaches n s s' → n < bound) ∧
        ∃ n s', Reaches n s s' ∧ (s'.control = [] ∨ ∃ d s'', Compiling.move s' = .error d s'')) ∧
    ∃ c, ∀ s : Session, (∀ n s', Compiling.Idles n s s' → n ≤ c * (s.control.length + 1)) ∧
      ∃ n s', Compiling.Idles n s s' ∧ Compiling.Halts s' := by
  refine ⟨?_, fun input => ?_, Compiling.fare, fun s => ⟨fun _ _ h => h.le, ?_⟩⟩
  · obtain ⟨table, htable, hentry⟩ := entry?_build_language
    refine ⟨table, htable, fun n t => ?_⟩
    rw [ParseTable.rule?, hentry]
    rfl
  · cases hstart : Compiling.start (.ofInput input) with
    | error d s => exact .inl ⟨d, s, rfl⟩
    | ok _ s =>
      refine .inr ⟨s, rfl, ⟨Compiling.moveBudget s.lexer.upcoming.length, fun n s' hreaches => ?_⟩,
        Compiling.exists_end hstart⟩
      have hlt := Compiling.lt_moveBudget hreaches (Compiling.start_ok hstart).2
        (Compiling.mode_of_start hstart)
      omega
  · exact Compiling.exists_idles s

end AnyDistance

/-- The first move of a compilation takes no token, and the bounds count it. -/
theorem parser_stops_on_countdown : ∃ s s' bound c,
    Compiling.start (.ofInput (.ofText countdown)) = .ok () s ∧
    Reaches 1 s s' ∧ (∀ n s'', Reaches n s s'' → n < bound) ∧ 1 < bound ∧
    Compiling.Idles 1 s s' ∧ 1 ≤ c * (s.control.length + 1) := by
  obtain ⟨-, hends, c, hidles⟩ := parser_stops
  have hstarts : (stateAfter 0 (.ofText countdown)).isSome = true := by decide +kernel
  rcases hends (.ofText countdown) with ⟨d, s, hfails⟩ | ⟨s, hstart, ⟨bound, hbound⟩, -⟩
  · rw [stateAfter, Compiling.bind_error hfails] at hstarts
    cases hstarts
  · obtain ⟨-, hc⟩ := Compiling.start_ok hstart
    have hne : s.control ≠ [] := by rw [hc]; exact List.cons_ne_nil _ _
    have htaken : s.taken = [] := by rw [Session.taken, hc]; rfl
    obtain ⟨s', hmove⟩ : ∃ s', Compiling.move s = .ok () s' := by
      rw [Compiling.move_eq hc]
      exact ⟨_, rfl⟩
    have hreaches : Reaches 1 s s' := .move hne hmove .here
    have hidle : Compiling.Idles 1 s s' := .move hne htaken hmove .here
    exact ⟨s, s', bound, c, hstart, hreaches, hbound, hbound _ _ hreaches, hidle,
      (hidles s).1 _ _ hidle⟩

end OnePass
