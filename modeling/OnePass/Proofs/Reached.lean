import OnePass.Proofs.Compilation

/-! # The states of a compilation

A compilation reads the first token and moves until its control stack is empty or a move fails. Its
states are those between two moves. Along them the tokens that were matched are kept, so that what
has been read can be compared with what the lexer yields.
-/
namespace OnePass

open Compiling (Reaches)

variable {distance : String → String → Nat} [NameDistance distance]

/-- The states between two moves of a compilation, with the tokens matched before. -/
inductive Reached (input : Input) : List Lexeme → Session → Prop
  | start {s} : Compiling.start (.ofInput input) = .ok () s → Reached input [] s
  | move {matched s s'} : Reached input matched s → s.control ≠ [] →
    Compiling.move s = .ok () s' → Reached input (matched ++ s.taken) s'

/-! ## Where compilations begin and end -/

namespace Compiling

variable {input : Input} {s : Session}

theorem start_ok (h : start (.ofInput input) = .ok () s) :
    Lexer.next (.ofInput input) = .ok s.lookahead s.lexer ∧ s.control = initialControl := by
  obtain ⟨l, s₁, hread, h⟩ := exists_of_bind_ok h
  cases h
  exact ⟨(readLexeme_ok hread).1, rfl⟩

theorem start_error {d : Diagnostic} (h : start (.ofInput input) = .error d s) :
    ∃ l, Lexer.next (.ofInput input) = .error d l := by
  rcases exists_of_bind_error h with hread | ⟨l, s₁, -, h⟩
  · unfold readLexeme at hread
    split at hread
    · cases hread
    · next d' l hn =>
      cases hread
      exact ⟨l, hn⟩
  · cases h

theorem mode_of_start (h : start (.ofInput input) = .ok () s) : s.lexer.mode = .start :=
  (Lexer.next_ok rfl (start_ok h).1).1

end Compiling

namespace Reached

variable {input : Input} {matched : List Lexeme} {s s' : Session}

theorem of_reaches {n : Nat} (h : Reached input matched s) (hr : Reaches n s s') :
    ∃ matched', Reached input matched' s' := by
  induction hr generalizing matched with
  | here => exact ⟨matched, h⟩
  | move hc hm _ ih => exact ih (h.move hc hm)

/-- A compilation fails at its first token or at one of its moves. -/
theorem exists_of_outcome_error {d : Diagnostic} (h : outcome {} input = .error d s') :
    Compiling.start (.ofInput input) = .error d s' ∨
      ∃ matched s, Reached input matched s ∧ s.control ≠ [] ∧ Compiling.move s = .error d s' := by
  have hp : Compiling.program (.ofInput input) = .error d s' := h
  rcases Compiling.exists_of_bind_error hp with hstart | ⟨_, s, hstart, hrest⟩
  · exact .inl hstart
  · rw [Compiling.bind_ok (Compiling.get_ok s)] at hrest
    rcases Compiling.exists_of_bind_error hrest with hrun | ⟨_, s₁, -, hlog⟩
    · obtain ⟨n, s₁, hreach, hc, hm⟩ := Compiling.exists_failing_move_of_budget
        (Compiling.start_ok hstart).2 (Compiling.mode_of_start hstart) hrun
      obtain ⟨matched, hreached⟩ := of_reaches (.start hstart) hreach
      exact .inr ⟨matched, s₁, hreached, hc, hm⟩
    · cases hlog

theorem exists_of_compile_error {τ : Type} [Target τ] {d : Diagnostic}
    (h : compile τ input = .error d) :
    (∃ l, Lexer.next (.ofInput input) = .error d l) ∨
      ∃ matched s s', Reached input matched s ∧ s.control ≠ [] ∧
        Compiling.move s = .error d s' := by
  rw [compile_eq] at h
  cases hp : Compiling.program (.ofInput input) with
  | ok _ s =>
    rw [hp] at h
    cases h
  | error d' s' =>
    rw [hp] at h
    obtain rfl := Except.error.inj h
    rcases exists_of_outcome_error hp with hstart | ⟨matched, s, hreached, hc, hm⟩
    · exact .inl (Compiling.start_error hstart)
    · exact .inr ⟨matched, s, s', hreached, hc, hm⟩

/-- A compilation that ends well has worked off its control stack. -/
theorem exists_of_outcome_ok (h : outcome {} input = .ok () s) :
    ∃ matched s', Reached input matched s' ∧ s'.control = [] ∧ s.workspace = s'.workspace := by
  have hp : Compiling.program (.ofInput input) = .ok () s := h
  obtain ⟨_, s₀, hstart, hrest⟩ := Compiling.exists_of_bind_ok hp
  rw [Compiling.bind_ok (Compiling.get_ok s₀)] at hrest
  obtain ⟨_, s₁, hrun, hlog⟩ := Compiling.exists_of_bind_ok hrest
  cases hlog
  obtain ⟨n, hreach, hc⟩ := Compiling.exists_reaches hrun
  obtain ⟨matched, hreached⟩ := of_reaches (.start hstart) hreach
  exact ⟨matched, s₁, hreached, hc, rfl⟩

/-! ## What has been read -/

theorem mode (h : Reached input matched s) : s.lexer.mode = .start := by
  induction h with
  | start hs => exact Compiling.mode_of_start hs
  | move _ hc hm ih =>
    rcases Compiling.taken_of_pushes (Compiling.pushes_of_move hc hm) with ⟨-, -, hlexer⟩ | ⟨-, -, hn⟩
    · rw [hlexer]
      exact ih
    · exact (Lexer.next_ok ih hn).1

def Ahead (s : Session) (tail : List (Except Diagnostic Lexeme)) : Prop :=
  if s.lookahead.kind = .endOfInput then tail = []
  else ∃ fuel, s.lexer.upcoming.length < fuel ∧ tail = Lexer.drain fuel s.lexer

theorem drain_eq_cons {l : Lexer} {fuel : Nat} (hmode : l.mode = .start)
    (hfuel : l.upcoming.length < fuel) (hn : Lexer.next l = .ok s.lookahead s.lexer) :
    ∃ tail, Lexer.drain fuel l = .ok s.lookahead :: tail ∧ Ahead s tail := by
  obtain ⟨fuel, rfl⟩ := Nat.exists_eq_succ_of_ne_zero (Nat.ne_of_gt (Nat.zero_lt_of_lt hfuel))
  by_cases hend : s.lookahead.kind = .endOfInput
  · refine ⟨[], ?_, ?_⟩
    · simp [Lexer.drain, hn, hend]
    · rw [Ahead, if_pos hend]
  · have hlt := ((Lexer.next_ok hmode hn).2.resolve_left hend).2
    refine ⟨Lexer.drain fuel s.lexer, ?_, ?_⟩
    · simp [Lexer.drain, hn, hend]
    · rw [Ahead, if_neg hend]
      exact ⟨fuel, by omega, rfl⟩

/-- The tokens matched so far and the next one are the first that the lexer yields. -/
theorem exists_lexemes_eq (h : Reached input matched s) :
    ∃ tail, Lexer.lexemes input = (matched ++ [s.lookahead]).map .ok ++ tail ∧ Ahead s tail := by
  induction h with
  | start hs =>
    have hfuel : (Lexer.ofInput input).upcoming.length < input.items.length + 1 :=
      Nat.lt_succ_self _
    obtain ⟨tail, hdrain, htail⟩ := drain_eq_cons rfl hfuel (Compiling.start_ok hs).1
    exact ⟨tail, hdrain, htail⟩
  | @move matched s s' hreached hc hm ih =>
    obtain ⟨tail, hlexemes, hahead⟩ := ih
    rcases Compiling.taken_of_pushes (Compiling.pushes_of_move hc hm) with
      ⟨htaken, hlookahead, hlexer⟩ | ⟨htaken, hend, hn⟩
    · refine ⟨tail, ?_, ?_⟩
      · rw [htaken, hlookahead, List.append_nil, hlexemes]
      · rw [Ahead, hlookahead, hlexer]
        exact hahead
    · rw [Ahead, if_neg hend] at hahead
      obtain ⟨fuel, hfuel, rfl⟩ := hahead
      obtain ⟨tail', hdrain, htail'⟩ := drain_eq_cons hreached.mode hfuel hn
      refine ⟨tail', ?_, htail'⟩
      rw [hlexemes, hdrain, htaken]
      simp

end Reached

/-! ## Reaching a state by counting moves -/

def Compiling.moves : Nat → Compiling Unit
  | 0 => pure ()
  | n + 1 => do
    move
    moves n

theorem Reached.of_moves {input : Input} {matched : List Lexeme} {n : Nat} {s s' : Session}
    (h : Reached input matched s) (hm : Compiling.moves n s = .ok () s') :
    ∃ matched', Reached input matched' s' := by
  induction n generalizing matched s with
  | zero =>
    cases hm
    exact ⟨matched, h⟩
  | succ n ih =>
    obtain ⟨_, s₁, hmove, hrest⟩ := Compiling.exists_of_bind_ok hm
    by_cases hc : s.control = []
    · rw [Compiling.move, Compiling.bind_ok (Compiling.get_ok s), hc] at hmove
      cases hmove
      exact ih h hrest
    · exact ih (h.move hc hmove) hrest

def stateAfter (n : Nat) (input : Input) : Option Session :=
  match (do Compiling.start; Compiling.moves n : Compiling Unit) (.ofInput input) with
  | .ok _ s => some s
  | .error _ _ => none

theorem exists_reached_of_stateAfter {input : Input} {n : Nat} {p : Session → Bool}
    (h : (stateAfter n input).any p = true) :
    ∃ matched s, Reached input matched s ∧ p s = true := by
  unfold stateAfter at h
  split at h
  · next s hs =>
    obtain ⟨_, s₀, hstart, hmoves⟩ := Compiling.exists_of_bind_ok hs
    obtain ⟨matched, hreached⟩ := (Reached.start hstart).of_moves hmoves
    exact ⟨matched, s, hreached, h⟩
  · cases h

end OnePass
