import Mathlib.Tactic.Common
import OnePass.Lexer
import OnePass.Proofs.Tree

/-! # What the lexer yields

A lexer at rest is in its start mode. A pull that succeeds leaves it at rest again and brings the
end of the input or a lexeme that took at least one character, and whose text is reserved for its
kind if that kind has fixed spellings. So the lexemes behind a given one are finitely many.
-/
namespace OnePass

theorem mem_reservedTexts {text : String} {kind : Terminal} (h : reserved? text = some kind) :
    (text, kind) ∈ reservedTexts := by
  unfold reserved? at h
  obtain ⟨before, after, h, -⟩ := List.lookup_eq_some_iff.mp h
  simp [h]

/-- The text is reserved for the kind, or the kind is one with many spellings. -/
def Token.Spelled (t : Token) : Prop :=
  reserved? t.text = some t.kind ∨
    t.kind = .identifier ∨ t.kind = .number ∨ t.kind = .stringConst

theorem Token.Spelled.mem {kind : Terminal} {text : String} (h : Token.Spelled ⟨kind, text⟩)
    (hi : kind ≠ .identifier) (hn : kind ≠ .number) (hs : kind ≠ .stringConst) :
    (text, kind) ∈ reservedTexts := by
  rcases h with h | h | h | h
  · exact mem_reservedTexts h
  · exact absurd h hi
  · exact absurd h hn
  · exact absurd h hs

theorem Token.Spelled.additive {text : String} (h : Token.Spelled ⟨.additiveOp, text⟩) :
    ∃ op, (⟨.additiveOp, text⟩ : Token) = .additive op := by
  have hm := h.mem (by decide) (by decide) (by decide)
  simp only [reservedTexts, List.mem_cons, Prod.mk.injEq, reduceCtorEq, and_false, and_true,
    false_or, or_false, List.not_mem_nil] at hm
  rcases hm with rfl | rfl
  · exact ⟨.plus, rfl⟩
  · exact ⟨.minus, rfl⟩

theorem Token.Spelled.multiplicative {text : String}
    (h : Token.Spelled ⟨.multiplicativeOp, text⟩) :
    ∃ op, (⟨.multiplicativeOp, text⟩ : Token) = .multiplicative op := by
  have hm := h.mem (by decide) (by decide) (by decide)
  simp only [reservedTexts, List.mem_cons, Prod.mk.injEq, reduceCtorEq, and_false, and_true,
    false_or, or_false, List.not_mem_nil] at hm
  rcases hm with rfl | rfl
  · exact ⟨.times, rfl⟩
  · exact ⟨.dividedBy, rfl⟩

theorem Token.Spelled.relational {text : String} (h : Token.Spelled ⟨.relationalOp, text⟩) :
    ∃ op, (⟨.relationalOp, text⟩ : Token) = .relational op := by
  have hm := h.mem (by decide) (by decide) (by decide)
  simp only [reservedTexts, List.mem_cons, Prod.mk.injEq, reduceCtorEq, and_false, and_true,
    false_or, or_false, List.not_mem_nil] at hm
  rcases hm with rfl | rfl | rfl | rfl | rfl | rfl
  · exact ⟨.less, rfl⟩
  · exact ⟨.lessEqual, rfl⟩
  · exact ⟨.notEqual, rfl⟩
  · exact ⟨.equal, rfl⟩
  · exact ⟨.greater, rfl⟩
  · exact ⟨.greaterEqual, rfl⟩

/-- Whether the compiler is at fault and not the program. -/
def Cause.isInternal : Cause → Bool
  | internal _ => true
  | _ => false

theorem Cause.not_internal_of_lexical {c : Cause} (h : c.isLexical = true) :
    c.isInternal = false := by
  cases c with
  | internal => cases h
  | _ => rfl

theorem Cause.not_syntax_of_lexical {c : Cause} (h : c.isLexical = true) : c.isSyntax = false := by
  cases c with
  | unexpectedToken | noRule => cases h
  | _ => rfl

theorem Cause.not_syntax_of_internal {c : Cause} (h : c.isInternal = true) :
    c.isSyntax = false := by
  cases c with
  | unexpectedToken | noRule => cases h
  | _ => rfl

namespace Lexer

/-- What the characters of a lexeme spell when they lead to the mode. -/
def Mode.Spells : Mode → List Char → Prop
  | .complete kind, reversed =>
    kind = .stringConst ∨ reserved? (String.ofList reversed.reverse) = some kind
  | .less, reversed => reversed = ['<']
  | .greater, reversed => reversed = ['>']
  | .colon, reversed => reversed = [':']
  | _, _ => True

theorem Mode.enter_complete {c : Char} {kind : Terminal} (h : enter c = some (.complete kind)) :
    reserved? (String.ofList [c]) = some kind := by
  simp only [enter, ite_eq_iff, Option.some.injEq, reduceCtorEq, and_false, false_or, or_false,
    Bool.or_eq_true, decide_eq_true_eq, Mode.complete.injEq] at h
  obtain ⟨-, -, -, h⟩ := h
  rcases h with ⟨rfl | rfl, rfl⟩ | ⟨-, ⟨rfl | rfl, rfl⟩ | ⟨-, ⟨rfl, rfl⟩ | ⟨-, ⟨rfl, rfl⟩ |
    ⟨-, ⟨rfl, rfl⟩ | ⟨-, rfl, rfl⟩⟩⟩⟩⟩
  all_goals rfl

theorem Mode.enter_spells {c : Char} {mode : Mode} (h : enter c = some mode) :
    mode.Spells [c] := by
  cases mode with
  | complete kind => exact Or.inr (enter_complete h)
  | less | greater | colon =>
    simp only [enter, ite_eq_iff, Option.some.injEq, reduceCtorEq, and_false, false_or, or_false,
      and_true] at h
    simp only [Spells, h]
  | _ => trivial

/-- A character that extends a lexeme keeps what its text spells. -/
theorem Mode.next_spells {mode mode' : Mode} {c : Char} {reversed : List Char}
    (hm : mode ≠ .start) (hs : mode.Spells reversed) (h : mode.next c = some mode') :
    mode'.Spells (c :: reversed) := by
  cases mode with
  | start => exact absurd rfl hm
  | word | digits =>
    simp only [next, ite_eq_iff, Option.some.injEq, reduceCtorEq, and_false, or_false] at h
    rw [← h.2]
    trivial
  | colon | less | greater =>
    simp only [next, ite_eq_iff, Option.some.injEq, reduceCtorEq, and_false, or_false,
      Bool.or_eq_true, decide_eq_true_eq] at h
    obtain ⟨hc, rfl⟩ := h
    simp only [Spells] at hs
    subst hs
    rcases hc with rfl | rfl <;> exact Or.inr rfl
  | comment =>
    simp only [next, Option.some.injEq] at h
    subst h
    split_ifs <;> trivial
  | quoted =>
    simp only [next, Option.some.injEq] at h
    subst h
    split_ifs
    · trivial
    · exact Or.inl rfl
    · trivial
  | escaped =>
    simp only [next, Option.some.injEq] at h
    subst h
    trivial
  | complete kind => cases h

theorem Mode.terminal?_spells {mode : Mode} {reversed : List Char} {kind : Terminal}
    (hs : mode.Spells reversed) (h : mode.terminal? = some kind) :
    reserved? (String.ofList reversed.reverse) = some kind ∨
      kind = .identifier ∨ kind = .number ∨ kind = .stringConst := by
  cases mode with
  | word | digits =>
    cases h
    simp
  | less | greater =>
    cases h
    simp only [Spells] at hs
    subst hs
    exact Or.inl rfl
  | complete kind' =>
    cases h
    rcases hs with rfl | hs
    · simp
    · exact Or.inl hs
  | _ => cases h

theorem close_ok {reversed : List Char} {kind : Terminal} {start position : Position}
    {upcoming : List Input.Item} {x : Lexeme} {l : Lexer}
    (hk : reserved? (String.ofList reversed.reverse) = some kind ∨
      kind = .identifier ∨ kind = .number ∨ kind = .stringConst)
    (h : close reversed kind start position upcoming = .ok x l) :
    x.token.Spelled ∧ l = { upcoming, position } := by
  unfold close classify at h
  dsimp only at h
  split_ifs at h
  cases h
  refine ⟨?_, rfl⟩
  cases hr : reserved? (String.ofList reversed.reverse) with
  | some kind' => exact Or.inl (by simp [hr, Lexeme.token])
  | none =>
    rw [hr] at hk
    exact Or.inr (by simpa [hr, Lexeme.token] using hk)

theorem close_error {reversed : List Char} {kind : Terminal} {start position : Position}
    {upcoming : List Input.Item} {d : Diagnostic} {l : Lexer}
    (h : close reversed kind start position upcoming = .error d l) : d.cause.isLexical = true := by
  unfold close classify at h
  dsimp only at h
  split_ifs at h
  cases h
  rfl

/-- What a pull can do: it ends the input or brings a lexeme, which took a character if the lexer
was at rest. -/
theorem scan_ok {items : List Input.Item} {last : Option Char} {reversed : List Char}
    {start position : Position} {mode : Mode} {x : Lexeme} {l : Lexer}
    (hs : mode.Spells reversed) (h : scan last reversed start position mode items = .ok x l) :
    l.mode = .start ∧ l.upcoming.length ≤ items.length ∧
      (x.kind = .endOfInput ∨
        x.token.Spelled ∧ (mode = .start → l.upcoming.length < items.length)) := by
  induction items generalizing last reversed start position mode with
  | nil =>
    unfold scan at h
    split at h
    · rename_i kind hk
      obtain ⟨hx, rfl⟩ := close_ok (mode.terminal?_spells hs hk) h
      refine ⟨rfl, Nat.le_refl _, Or.inr ⟨hx, ?_⟩⟩
      rintro rfl
      cases hk
    · cases mode <;> cases h
      exact ⟨rfl, Nat.le_refl _, Or.inl rfl⟩
  | cons item rest ih =>
    cases item with
    | failure reason => cases h
    | char c =>
      unfold scan at h
      split at h
      · rename_i mode' hn
        split_ifs at h with hm
        · subst hm
          obtain ⟨h₁, h₂, h₃⟩ := ih (Mode.enter_spells hn) h
          refine ⟨h₁, Nat.le_succ_of_le h₂, h₃.imp_right fun h₃ => ⟨h₃.1, fun _ => ?_⟩⟩
          exact Nat.lt_succ_of_le h₂
        · obtain ⟨h₁, h₂, h₃⟩ := ih (Mode.next_spells hm hs hn) h
          exact ⟨h₁, Nat.le_succ_of_le h₂, h₃.imp_right fun h₃ => ⟨h₃.1, fun h => absurd h hm⟩⟩
      · split at h
        · rename_i kind hk
          obtain ⟨hx, rfl⟩ := close_ok (mode.terminal?_spells hs hk) h
          refine ⟨rfl, Nat.le_refl _, Or.inr ⟨hx, ?_⟩⟩
          rintro rfl
          cases hk
        · cases h

theorem next_ok {l l' : Lexer} {x : Lexeme} (hl : l.mode = .start) (h : next l = .ok x l') :
    l'.mode = .start ∧
      (x.kind = .endOfInput ∨ x.token.Spelled ∧ l'.upcoming.length < l.upcoming.length) := by
  unfold next at h
  rw [hl] at h
  have hs : Mode.start.Spells [] := trivial
  obtain ⟨h₁, -, h₂⟩ := scan_ok hs h
  exact ⟨h₁, h₂.imp_right fun h₂ => ⟨h₂.1, h₂.2 rfl⟩⟩

/-- A pull fails because of the characters or because they could not be read. -/
theorem scan_error {items : List Input.Item} {last : Option Char} {reversed : List Char}
    {start position : Position} {mode : Mode} {d : Diagnostic} {l : Lexer}
    (h : scan last reversed start position mode items = .error d l) :
    d.cause.isLexical = true ∨ ∃ reason, d.cause = .readFailure reason := by
  induction items generalizing last reversed start position mode with
  | nil =>
    unfold scan at h
    split at h
    · exact .inl (close_error h)
    · cases mode <;> cases h <;> exact .inl rfl
  | cons item rest ih =>
    cases item with
    | failure reason =>
      cases h
      exact .inr ⟨reason, rfl⟩
    | char c =>
      unfold scan at h
      split at h
      · split_ifs at h
        · exact ih h
        · exact ih h
      · split at h
        · exact .inl (close_error h)
        · cases h
          exact .inl rfl

theorem next_error {l l' : Lexer} {d : Diagnostic} (h : next l = .error d l') :
    d.cause.isLexical = true ∨ ∃ reason, d.cause = .readFailure reason :=
  scan_error h

theorem not_internal_of_next {l l' : Lexer} {d : Diagnostic} (h : next l = .error d l') :
    d.cause.isInternal = false := by
  rcases next_error h with hlexical | ⟨reason, hcause⟩
  · exact Cause.not_internal_of_lexical hlexical
  · rw [hcause]
    rfl

theorem not_syntax_of_next {l l' : Lexer} {d : Diagnostic} (h : next l = .error d l') :
    d.cause.isSyntax = false := by
  rcases next_error h with hlexical | ⟨reason, hcause⟩
  · exact Cause.not_syntax_of_lexical hlexical
  · rw [hcause]
    rfl

inductive Follows : Lexeme → Lexer → List Lexeme → Prop
  | ended {x l} : x.kind = .endOfInput → Follows x l []
  | failed {x l d l'} : x.kind ≠ .endOfInput → next l = .error d l' → Follows x l []
  | more {x l y l' ys} :
    x.kind ≠ .endOfInput → next l = .ok y l' → Follows y l' ys → Follows x l (y :: ys)

theorem exists_follows (x : Lexeme) {l : Lexer} (hl : l.mode = .start) :
    ∃ ys, Follows x l ys := by
  induction hn : l.upcoming.length using Nat.strongRecOn generalizing x l with
  | ind n ih =>
    by_cases hx : x.kind = .endOfInput
    · exact ⟨[], .ended hx⟩
    · cases h : next l with
      | error d l' => exact ⟨[], .failed hx h⟩
      | ok y l' =>
        obtain ⟨hl', hy | ⟨-, hlt⟩⟩ := next_ok hl h
        · exact ⟨[y], .more hx h (.ended hy)⟩
        · obtain ⟨ys, hys⟩ := ih _ (hn ▸ hlt) y hl' rfl
          exact ⟨y :: ys, .more hx h hys⟩

/-- A lexeme takes a character, and only the last one may be the end of the input. -/
theorem Follows.length_le {x : Lexeme} {l : Lexer} {ys : List Lexeme} (h : Follows x l ys)
    (hl : l.mode = .start) : ys.length ≤ l.upcoming.length + 1 := by
  induction h with
  | ended | failed => exact Nat.zero_le _
  | more hx hn hf ih =>
    obtain ⟨hl', hy | ⟨-, hlt⟩⟩ := next_ok hl hn
    · cases hf with
      | ended => simp
      | failed hy' => exact absurd hy hy'
      | more hy' => exact absurd hy hy'
    · have := ih hl'
      rw [List.length_cons]
      omega

theorem Follows.spelled {x : Lexeme} {l : Lexer} {ys : List Lexeme} (h : Follows x l ys)
    (hl : l.mode = .start) : ∀ y ∈ ys, y.kind = .endOfInput ∨ y.token.Spelled := by
  induction h with
  | ended | failed => simp
  | more hx hn hf ih =>
    obtain ⟨hl', hy⟩ := next_ok hl hn
    intro z hz
    rcases List.mem_cons.mp hz with rfl | hz
    · exact hy.imp_right And.left
    · exact ih hl' z hz

theorem Follows.ne_end_of_mem {x final : Lexeme} {l : Lexer} {ys body : List Lexeme}
    (h : Follows x l ys) (hb : x :: ys = body ++ [final]) {y : Lexeme} (hy : y ∈ body) :
    y.kind ≠ .endOfInput := by
  induction h generalizing body with
  | ended | failed =>
    obtain ⟨rfl, -⟩ := List.append_eq_singleton_iff.mp hb.symm |>.resolve_right (by simp)
    cases hy
  | more hx _ _ ih =>
    cases body with
    | nil => cases hb
    | cons z body =>
      obtain ⟨rfl, hb'⟩ := List.cons.inj hb
      rcases List.mem_cons.mp hy with rfl | hy
      · exact hx
      · exact ih hb' hy

theorem spelled_of_mem_drain {fuel : Nat} {l : Lexer} (hl : l.mode = .start) {x : Lexeme}
    (h : .ok x ∈ drain fuel l) : x.kind = .endOfInput ∨ x.token.Spelled := by
  induction fuel generalizing l with
  | zero => cases h
  | succ fuel ih =>
    unfold drain at h
    split at h
    · next y l' hn =>
      obtain ⟨hl', hy⟩ := next_ok hl hn
      replace hy : y.kind = .endOfInput ∨ y.token.Spelled := hy.imp_right And.left
      split_ifs at h
      · obtain rfl : x = y := by simpa using h
        exact hy
      · rcases List.mem_cons.mp h with h | h
        · obtain rfl : x = y := by simpa using h
          exact hy
        · exact ih hl' h
    · simp at h

theorem drain_of_follows {l l' : Lexer} {x : Lexeme} {ys : List Lexeme} {fuel : Nat}
    (h : Follows x l' ys) (hn : next l = .ok x l') (hfuel : ys.length < fuel)
    (hlast : ∃ body final, x :: ys = body ++ [final] ∧ final.kind = .endOfInput) :
    drain fuel l = (x :: ys).map .ok := by
  induction h generalizing l fuel with
  | ended hx =>
    obtain ⟨fuel, rfl⟩ := Nat.exists_eq_succ_of_ne_zero (Nat.ne_of_gt hfuel)
    simp [drain, hn, hx]
  | failed hx he =>
    obtain ⟨body, final, hb, hf⟩ := hlast
    obtain ⟨rfl, hxf⟩ := List.append_eq_singleton_iff.mp hb.symm |>.resolve_right (by simp)
    cases hxf
    exact absurd hf hx
  | @more x l₁ y l₂ ys hx hn' hf ih =>
    obtain ⟨fuel, rfl⟩ := Nat.exists_eq_succ_of_ne_zero (Nat.ne_of_gt (Nat.zero_lt_of_lt hfuel))
    have hlast' : ∃ body final, y :: ys = body ++ [final] ∧ final.kind = .endOfInput := by
      obtain ⟨body, final, hb, hk⟩ := hlast
      cases body with
      | nil => cases hb
      | cons z body => exact ⟨body, final, (List.cons.inj hb).2, hk⟩
    have := ih hn' (by simpa using hfuel) hlast'
    simp [drain, hn, hx, this]

theorem follows_of_drain {l : Lexer} {body : List Lexeme} {final : Lexeme} {fuel : Nat}
    (hf : final.kind = .endOfInput) (h : drain fuel l = (body ++ [final]).map .ok) :
    ∃ x l' ys, next l = .ok x l' ∧ Follows x l' ys ∧ x :: ys = body ++ [final] := by
  induction fuel generalizing l body with
  | zero => simp [drain] at h
  | succ fuel ih =>
    unfold drain at h
    split at h
    · rename_i x l' hn
      split_ifs at h with hx
      · cases body with
        | nil => exact ⟨x, l', [], hn, .ended hx, by simpa using h⟩
        | cons y body => simp at h
      · cases body with
        | nil =>
          obtain ⟨hxf, -⟩ : x = final ∧ _ := by simpa using h
          exact absurd (hxf ▸ hf) hx
        | cons y body =>
          simp only [List.cons_append, List.map_cons, List.cons.injEq, Except.ok.injEq] at h
          obtain ⟨rfl, h⟩ := h
          obtain ⟨z, l'', zs, hz, hzs, heq⟩ := ih h
          exact ⟨x, l', z :: zs, hn, .more hx hz hzs, by rw [heq, List.cons_append]⟩
    · cases body <;> simp at h

end Lexer

end OnePass
