import OnePass.Proofs.Acquisition
import OnePass.Proofs.Attribution

/-! # Where the text of lines comes from

A line has a fixed text, or it takes its text from a token: the digits of a number that is loaded, or
a string constant that is defined. This holds of every line that a compilation pushes, whether it
ends well or fails: until a value is loaded, its symbol keeps the token.
-/
namespace OnePass

variable {distance : String → String → Nat} [NameDistance distance]

/-- The line takes its text from no token, or from one with the property. -/
inductive Line.Sourced (P : Lexeme → Prop) : Line → Prop
  | fixed {line : Line} : line.isFixed = true → Sourced P line
  | number {r : Register} {l : Lexeme} : P l → l.kind = .number →
    Sourced P (.instruction (.loadNumber r l.text))
  | literal {n : Nat} {l : Lexeme} : P l → l.kind = .stringConst →
    Sourced P (.definition (.literal n) l.text)

def Emitter.Sourced (P : Lexeme → Prop) (e : Emitter) : Prop :=
  ∀ x ∈ e.emitted, x.line.Sourced P

structure Workspace.Sourced (P : Lexeme → Prop) (w : Workspace) : Prop where
  lines : w.emitter.Sourced P
  lexemes : ∀ id l, (w.symbols.symbol id).lexeme = some l → P l

variable {P : Lexeme → Prop}

/-! ## Lines -/

namespace Emitter.Sourced

variable {e : Emitter}

theorem emit (h : e.Sourced P) (segment : Segment) {line : Line} (hline : line.Sourced P) :
    (e.emit segment line).Sourced P := by
  intro x hx
  rcases Array.mem_push.mp hx with hx | rfl
  · exact h x hx
  · exact hline

theorem intern (h : e.Sourced P) {l : Lexeme} (hl : P l) (hk : l.kind = .stringConst) :
    (e.intern l.text).2.Sourced P := by
  rw [Emitter.intern]
  cases hlabel : e.strings.label? l.text with
  | some label => exact h
  | none =>
    have hpool : Emitter.Sourced P { e with strings := (e.strings.intern l.text).2 } := h
    have hnew : (e.strings.intern l.text).1 = .literal (e.strings.size + 1) := by
      simp [StringPool.intern, hlabel]
    refine hpool.emit .data ?_
    rw [hnew]
    exact .literal hl hk

end Emitter.Sourced

open Workspace (LoadsAs)

namespace Workspace.Sourced

variable {w : Workspace} {id : SymbolId}

theorem load (h : w.Sourced P) {load : Workspace.Load}
    (hload : LoadsAs (w.symbols.symbol id) load) (r : Register) :
    (w.load r load).emitter.Sourced P := by
  cases hload with
  | computed => exact h.lines
  | slot => exact h.lines.emit .text (.fixed rfl)
  | number hl hk => exact h.lines.emit .text (.number (h.lexemes id _ hl) hk)
  | constant hl hk => exact (h.lines.intern (h.lexemes id _ hl) hk).emit .text (.fixed rfl)

theorem commit (h : w.Sourced P) {p : Position} {choice : Workspace.Acquisition}
    (hchoose : w.choose id p = .ok choice) : (w.commit id choice).emitter.Sourced P := by
  cases Workspace.choose_ok hchoose with
  | held => exact h.lines
  | fresh _ _ hload => exact h.load hload _

end Workspace.Sourced

/-! ## Symbols -/

namespace SymbolTable

variable {table : SymbolTable} {id : SymbolId} {l m : Lexeme}

theorem lexeme_of_add {s : Symbol} (h : ((table.add s).2.symbol id).lexeme = some l) :
    (table.symbol id).lexeme = some l ∨ s.lexeme = some l := by
  unfold add at h
  split at h
  · next j rest hfree =>
    by_cases hc : table.Contains j
    · have hsymbol : ((table.update j fun _ => s).symbol id).lexeme = some l := h
      rw [symbol_update hc] at hsymbol
      split at hsymbol
      · exact .inr hsymbol
      · exact .inl hsymbol
    · have hsymbol : ((table.update j fun _ => s).symbol id).lexeme = some l := h
      rw [update_of_not_contains hc] at hsymbol
      exact .inl hsymbol
  · simp only [SymbolTable.symbol, Array.getElem?_push] at h
    split at h
    · exact .inr h
    · exact .inl h

theorem lexeme_of_reference (h : ((table.reference m).2.symbol id).lexeme = some l) :
    (table.symbol id).lexeme = some l ∨ m = l := by
  unfold reference at h
  split at h
  · exact .inl h
  · rcases lexeme_of_add h with hold | hnew
    · exact .inl hold
    · exact .inr (Option.some.inj hnew)

theorem lexeme_of_note (h : ((table.note m).symbol id).lexeme = some l) :
    (table.symbol id).lexeme = some l ∨ m = l := by
  unfold note at h
  split at h
  · exact lexeme_of_reference h
  · exact .inl h

end SymbolTable

/-! ## Moves -/

namespace Compiling

variable {α β : Type} {s s' : Session}

def left : EStateM.Result Diagnostic Session α → Session
  | .ok _ s => s
  | .error _ s => s

theorem sourced_of_bind {x : Compiling α} {f : α → Compiling β}
    (hx : (left (x s)).workspace.Sourced P)
    (hf : ∀ a s₁, x s = .ok a s₁ → (left (f a s₁)).workspace.Sourced P) :
    (left ((x >>= f) s)).workspace.Sourced P := by
  cases hr : x s with
  | error d s₁ =>
    rw [bind_error hr]
    rw [hr] at hx
    exact hx
  | ok a s₁ =>
    rw [bind_ok hr]
    exact hf a s₁ hr

theorem Acts.changes_left {x : Compiling α} (h : Acts x) (s : Session) : Changes s (left (x s)) := by
  cases hr : x s with
  | ok a s' => exact h.changes hr
  | error d s' => exact (h.failing hr).1

theorem Change.sourced (h : Change s s') (hs : s.workspace.Sourced P) : s'.workspace.Sourced P := by
  refine ⟨?_, ?_⟩
  · cases h with
    | emit segment line hfixed => exact hs.lines.emit segment (.fixed hfixed)
    | commit hchoose => exact hs.commit hchoose
    | record | restack | openLabel | closeLabel | result | consume | declare | clear =>
      exact hs.lines
  · intro id l hl
    exact hs.lexemes id l (h.evolves.origin id l hl)

theorem Changes.sourced (h : Changes s s') (hs : s.workspace.Sourced P) :
    s'.workspace.Sourced P := by
  induction h with
  | refl => exact hs
  | tail _ hc ih => exact hc.sourced ih

theorem sourced_of_shift {l : Lexeme} (hl : P l) (hs : s.workspace.Sourced P) :
    (left (shift l s)).workspace.Sourced P := by
  have hreference : ∀ id m, ((s.workspace.symbols.reference l).2.symbol id).lexeme = some m → P m := by
    intro id m hm
    rcases SymbolTable.lexeme_of_reference hm with hold | rfl
    · exact hs.lexemes id m hold
    · exact hl
  have hliteral : ∀ id m, ((s.workspace.symbols.literal l).2.symbol id).lexeme = some m → P m := by
    intro id m hm
    rcases SymbolTable.lexeme_of_add hm with hold | hnew
    · exact hs.lexemes id m hold
    · obtain rfl : l = m := Option.some.inj hnew
      exact hl
  generalize hx : shift l = x
  unfold shift at hx
  split at hx
  · subst hx
    exact ⟨hs.lines, hreference⟩
  · subst hx
    exact ⟨hs.lines, hliteral⟩
  · next hk =>
    subst hx
    exact ⟨hs.lines.intern hl hk, hliteral⟩
  case h_4 | h_5 | h_6 | h_7 =>
    split at hx
    · subst hx
      exact hs
    · subst hx
      exact hs
  · subst hx
    exact hs

theorem sourced_of_readLexeme (hs : s.workspace.Sourced P)
    (hn : ∀ l lexer, Lexer.next s.lexer = .ok l lexer → P l) :
    (left (readLexeme s)).workspace.Sourced P := by
  cases hnext : Lexer.next s.lexer with
  | error d lexer =>
    simp only [readLexeme, hnext]
    exact hs
  | ok l lexer =>
    have hread : readLexeme s = .ok l ({ s with lexer }.noteLexeme l) := by
      simp only [readLexeme, hnext]
    rw [hread]
    constructor
    · have hemitter := emitter_of_readLexeme hread
      rw [left, hemitter]
      exact hs.lines
    · intro id m hm
      rw [left, symbols_of_readLexeme hread] at hm
      rcases SymbolTable.lexeme_of_note hm with hold | rfl
      · exact hs.lexemes id m hold
      · exact hn l lexer hnext

theorem sourced_of_advance (hs : s.workspace.Sourced P)
    (hn : s.lookahead.kind ≠ .endOfInput →
      ∀ l lexer, Lexer.next s.lexer = .ok l lexer → P l) :
    (left (advance s)).workspace.Sourced P := by
  rw [advance, bind_ok (get_ok s)]
  by_cases hk : s.lookahead.kind = .endOfInput
  · simp only [hk, ne_eq, not_true_eq_false, if_false]
    exact hs
  · simp only [hk, ne_eq, not_false_eq_true, if_true]
    have hread := sourced_of_readLexeme hs (hn hk)
    refine sourced_of_bind hread ?_
    intro l s₁ hr
    rw [hr] at hread
    exact hread

theorem sourced_of_matchTerminal {t : Terminal} (hs : s.workspace.Sourced P) (hl : P s.lookahead)
    (hn : s.lookahead.kind ≠ .endOfInput →
      ∀ l lexer, Lexer.next s.lexer = .ok l lexer → P l) :
    (left (matchTerminal t s)).workspace.Sourced P := by
  rw [matchTerminal, bind_ok (get_ok _)]
  by_cases hk : s.lookahead.kind = t
  · simp only [hk, ne_eq, not_true_eq_false, if_false]
    let s₁ : Session := { s with
      workspace.emitter := s.workspace.emitter.moveTo s.lookahead.position
      events := s.events.push (.terminalMatched t s.lookahead.text) }
    -- Reading the next token can fail after the lines of this one have been pushed.
    have hs₁ : s₁.workspace.Sourced P := ⟨hs.lines, hs.lexemes⟩
    refine @sourced_of_bind P _ _ s₁ (shift s.lookahead) (fun _ => advance)
      (sourced_of_shift hl hs₁) ?_
    intro _ s₂ hshift
    have hs₂ := sourced_of_shift hl hs₁
    rw [hshift] at hs₂
    obtain ⟨_, _, _, _, rfl, -⟩ := shift_ok hshift
    exact sourced_of_advance hs₂ hn
  · simp only [hk, ne_eq, not_false_eq_true, if_true]
    exact hs

/-- A matched token and the next one are all that a move takes texts from. -/
theorem sourced_of_move (hc : s.control ≠ []) (hs : s.workspace.Sourced P) (hl : P s.lookahead)
    (hn : s.lookahead.kind ≠ .endOfInput →
      ∀ l lexer, Lexer.next s.lexer = .ok l lexer → P l) :
    (left (move s)).workspace.Sourced P := by
  obtain ⟨x, rest, hx⟩ := List.exists_cons_of_ne_nil hc
  rw [move_eq hx]
  cases x with
  | terminal t =>
    exact sourced_of_matchTerminal hs hl hn
  | nonterminal n =>
    rw [step, expand, bind_ok (get_ok _)]
    cases languageTable.rule? n s.lookahead.kind with
    | none => exact hs
    | some rule => exact hs
  | action a =>
    have hacts := (acts_log (.actionTaken a)).bind fun _ => acts_perform a
    exact (hacts.changes_left { s with control := rest }).sourced hs

end Compiling

/-! ## Whole compilations -/

def Yielded (input : Input) (l : Lexeme) : Prop :=
  .ok l ∈ Lexer.lexemes input

variable {input : Input} {matched : List Lexeme} {s : Session}

theorem Reached.yielded_lookahead (h : Reached input matched s) : Yielded input s.lookahead := by
  obtain ⟨tail, hlexemes, -⟩ := h.exists_lexemes_eq
  rw [Yielded, hlexemes]
  exact List.mem_append_left _ (List.mem_map_of_mem (by simp))

theorem Reached.yielded_next (h : Reached input matched s) (hk : s.lookahead.kind ≠ .endOfInput)
    (l : Lexeme) (lexer : Lexer) (hn : Lexer.next s.lexer = .ok l lexer) : Yielded input l := by
  obtain ⟨tail, hlexemes, hahead⟩ := h.exists_lexemes_eq
  rw [Reached.Ahead, if_neg hk] at hahead
  obtain ⟨fuel, hfuel, rfl⟩ := hahead
  obtain ⟨fuel, rfl⟩ := Nat.exists_eq_succ_of_ne_zero (Nat.ne_of_gt (Nat.zero_lt_of_lt hfuel))
  rw [Yielded, hlexemes]
  apply List.mem_append_right
  simp only [Lexer.drain, hn]
  split <;> simp

theorem yielded_first {l : Lexeme} {lexer : Lexer}
    (hn : Lexer.next (.ofInput input) = .ok l lexer) : Yielded input l := by
  rw [Yielded, Lexer.lexemes]
  simp only [Lexer.drain, hn]
  split <;> simp

theorem Workspace.sourced_empty (P : Lexeme → Prop) : Workspace.Sourced P {} where
  lines := by simp [Emitter.Sourced]
  lexemes := by simp [SymbolTable.symbol]

theorem Compiling.sourced_of_start (input : Input) :
    (left (start (.ofInput input))).workspace.Sourced (Yielded input) := by
  have hread : (left (readLexeme (.ofInput input))).workspace.Sourced (Yielded input) := by
    refine sourced_of_readLexeme (Workspace.sourced_empty _) ?_
    intro l lexer hn
    exact yielded_first hn
  refine sourced_of_bind hread ?_
  intro l s₁ hr
  rw [hr] at hread
  exact hread

theorem Reached.sourced (h : Reached input matched s) :
    s.workspace.Sourced (Yielded input) := by
  induction h with
  | start hs =>
    have hstart := Compiling.sourced_of_start input
    rw [hs] at hstart
    exact hstart
  | move hreached hc hm ih =>
    have hmove := Compiling.sourced_of_move hc ih hreached.yielded_lookahead hreached.yielded_next
    rw [hm] at hmove
    exact hmove

/-- The lines that a compilation pushes, up to its failure if it fails. -/
def pushedBy (input : Input) : List Emission :=
  (Compiling.left (outcome {} input)).workspace.emitter.emitted.toList

/-- Every line that is pushed takes its text from no token, or from one that was read. -/
theorem sourced_of_mem_pushedBy {e : Emission} (h : e ∈ pushedBy input) :
    e.line.Sourced (Yielded input) := by
  have hall : (Compiling.left (outcome {} input)).workspace.Sourced (Yielded input) := by
    cases ho : outcome {} input with
    | ok _ s =>
      obtain ⟨matched, s', hreached, -, hworkspace⟩ := Reached.exists_of_outcome_ok ho
      rw [Compiling.left, hworkspace]
      exact hreached.sourced
    | error d s =>
      rcases Reached.exists_of_outcome_error ho with hstart | ⟨matched, s', hreached, hc, hm⟩
      · have hsourced := Compiling.sourced_of_start input
        rw [hstart] at hsourced
        exact hsourced
      · have hsourced := Compiling.sourced_of_move hc hreached.sourced hreached.yielded_lookahead
          hreached.yielded_next
        rw [hm] at hsourced
        exact hsourced
  exact hall.lines e (Array.mem_toList_iff.mp h)

/-- A program that compiles into one target compiles into any other, from the same lines. -/
theorem compile_of_compile {τ σ : Type} [Target τ] [Target σ] {t : τ}
    (h : compile τ input = .ok t) :
    compile σ input = .ok (Target.ofEmissions σ (pushedBy input)) := by
  have houtcome : outcome {} input = Compiling.program (.ofInput input) := rfl
  rw [compile_eq] at h ⊢
  rw [pushedBy, houtcome]
  cases hp : Compiling.program (.ofInput input) with
  | ok _ s => rfl
  | error d s =>
    rw [hp] at h
    cases h

theorem ofEmissions_of_compile {τ : Type} [Target τ] {t : τ} (h : compile τ input = .ok t) :
    t = Target.ofEmissions τ (pushedBy input) :=
  Except.ok.inj (h.symm.trans (compile_of_compile h))

end OnePass
