import OnePass.Proofs.Provenance
import OnePass.Proofs.Suggestion
import OnePass.Proofs.Tracking

/-! # Semantic errors

A variable that is not defined, one that is declared twice and a value for which no register is left
are reported at the token they are about, however late the failure is found: when a value is loaded,
the tokens behind it have been matched and its symbol may have been read first somewhere else.
-/
namespace OnePass

section AnyDistance

variable {distance : String → String → Nat} [NameDistance distance]

/-! ## Positions tell tokens apart -/

theorem Position.not_advance_le (p : Position) (c : Char) : ¬ p.advance c ≤ p := by
  rw [le_iff, advance]
  split_ifs
  · simp
  · simp

namespace Lexer

theorem scan_passes {items : List Input.Item} {last : Option Char} {reversed : List Char}
    {start position : Position} {mode : Mode} {x : Lexeme} {l : Lexer}
    (hs : mode ≠ .start → ¬ position ≤ start)
    (h : scan last reversed start position mode items = .ok x l) :
    x.kind = .endOfInput ∨ ¬ l.position ≤ x.position := by
  induction items generalizing last reversed start position mode with
  | nil =>
    unfold scan at h
    split at h
    · next kind hkind =>
      obtain ⟨hx, hl⟩ := position_of_close h
      rw [hx, hl]
      refine .inr (hs ?_)
      rintro rfl
      cases hkind
    · cases mode <;> cases h
      exact .inl rfl
  | cons item rest ih =>
    cases item with
    | failure reason => cases h
    | char c =>
      unfold scan at h
      split at h
      · split_ifs at h with hm
        · exact ih (fun _ => position.not_advance_le c) h
        · refine ih (fun _ hle => hs hm ?_) h
          exact Position.le_trans (position.le_advance c) hle
      · split at h
        · next kind hkind =>
          obtain ⟨hx, hl⟩ := position_of_close h
          rw [hx, hl]
          refine .inr (hs ?_)
          rintro rfl
          cases hkind
        · cases h

theorem next_passes {l l' : Lexer} {x : Lexeme} (hl : l.mode = .start) (h : next l = .ok x l')
    (hx : x.kind ≠ .endOfInput) : ¬ l'.position ≤ x.position :=
  (scan_passes (fun hm => absurd hl hm) h).resolve_left hx

theorem le_of_mem_drain {fuel : Nat} {l : Lexer} {x : Lexeme} (h : .ok x ∈ drain fuel l) :
    l.position ≤ x.position := by
  induction fuel generalizing l with
  | zero => cases h
  | succ fuel ih =>
    rw [drain] at h
    split at h
    · next y l' hn =>
      obtain ⟨hy, hl'⟩ := position_of_next hn
      split_ifs at h
      · obtain rfl : x = y := by simpa using h
        exact hy
      · rcases List.mem_cons.mp h with hxy | h
        · cases hxy
          exact hy
        · exact Position.le_trans (Position.le_trans hy hl') (ih h)
    · simp at h

theorem eq_of_mem_drain {fuel : Nat} {l : Lexer} {x y : Lexeme} (hl : l.mode = .start)
    (hx : .ok x ∈ drain fuel l) (hy : .ok y ∈ drain fuel l) (hp : x.position = y.position) :
    x = y := by
  induction fuel generalizing l with
  | zero => cases hx
  | succ fuel ih =>
    rw [drain] at hx hy
    split at hx
    · next z l' hn =>
      simp only [hn] at hy
      split_ifs at hx hy with hz
      · simp only [List.mem_singleton, Except.ok.injEq] at hx hy
        rw [hx, hy]
      · -- Whatever comes behind the first lexeme begins behind it.
        have hpasses := next_passes hl hn hz
        rcases List.mem_cons.mp hx with hxz | hxl <;> rcases List.mem_cons.mp hy with hyz | hyl
        · cases hxz
          cases hyz
          rfl
        · cases hxz
          exact absurd (hp ▸ le_of_mem_drain hyl) hpasses
        · cases hyz
          exact absurd (hp ▸ le_of_mem_drain hxl) hpasses
        · exact ih (next_ok hl hn).1 hxl hyl
    · simp at hx

end Lexer

theorem Yielded.eq_of_position {input : Input} {x y : Lexeme} (hx : Yielded input x)
    (hy : Yielded input y) (h : x.position = y.position) : x = y :=
  Lexer.eq_of_mem_drain rfl hx hy h

/-! ## What is reported -/

def declaredIn (read : List Lexeme) : List String :=
  (declarations Lexeme.kind read).map Lexeme.text

/-- The diagnostic is about one of the tokens: an identifier that is used and that no token before
it declares, one that is declared the second time, or a variable or a number to be loaded. -/
inductive Justified (matched : List Lexeme) : Diagnostic → Prop
  | undefined {before x after suggestion} : matched = before ++ x :: after →
    x.kind = .identifier → ¬ Declaring before → x.text ∉ declaredIn before →
    Suggests (declaredIn before) x.text suggestion →
    Justified matched (.located (.undefinedVariable x.text suggestion) x.position)
  | redeclared {before first second name} : matched = before ++ [second] →
    (declarations Lexeme.kind (before ++ [second])).filter (fun l => l.text = name) =
      [first, second] →
    Justified matched (.located (.redeclaration name first.position) second.position)
  | exhausted {x} : x ∈ matched → x.kind = .number ∨ x.kind = .identifier →
    Justified matched (.located (.registersExhausted registerCount) x.position)

def Cause.isSemantic : Cause → Bool
  | undefinedVariable .. | redeclaration .. | registersExhausted _ => true
  | _ => false

theorem Cause.not_semantic_of_lexical {c : Cause} (h : c.isLexical = true) :
    c.isSemantic = false := by
  cases c with
  | undefinedVariable | redeclaration | registersExhausted => cases h
  | _ => rfl

theorem Cause.not_semantic_of_internal {c : Cause} (h : c.isInternal = true) :
    c.isSemantic = false := by
  cases c with
  | undefinedVariable | redeclaration | registersExhausted => cases h
  | _ => rfl

theorem Lexer.not_semantic_of_next {l l' : Lexer} {d : Diagnostic} (h : next l = .error d l') :
    d.cause.isSemantic = false := by
  rcases next_error h with hlexical | ⟨reason, hcause⟩
  · exact Cause.not_semantic_of_lexical hlexical
  · rw [hcause]
    rfl

variable {input : Input} {matched : List Lexeme} {s s' : Session} {v : Snapshot} {o : Operand}
  {d : Diagnostic}

/-- Only an action fails with a semantic error. -/
theorem Compiling.exists_action_of_move (hc : s.control ≠ []) (h : move s = .error d s')
    (hd : d.cause.isSemantic = true) : ∃ a rest, s.control = .action a :: rest := by
  obtain ⟨x, rest, hx⟩ := List.exists_cons_of_ne_nil hc
  rw [move_eq hx] at h
  cases x with
  | terminal t =>
    rcases matchTerminal_cases h with ⟨-, rfl⟩ | hinternal | ⟨_, _, hn⟩
    · cases hd
    · rw [Cause.not_semantic_of_internal hinternal] at hd
      cases hd
    · rw [Lexer.not_semantic_of_next hn] at hd
      cases hd
  | nonterminal n =>
    obtain ⟨-, rfl⟩ := expand_error h
    cases hd
  | action a => exact ⟨a, rest, hx⟩

/-! ## Why it is reported -/

/-- A variable without a slot is one that no token before it declares. -/
theorem Represents.justified_undefined (hdistance : Text.IsLevenshtein distance) {l : Lexeme}
    (hr : Represents s v)
    (hrecords : s.workspace.symbols.Records (declarations Lexeme.kind matched))
    (ho : o ∈ s.operands) (htraced : o.Traced s.workspace.symbols matched)
    (hl : (s.workspace.symbols.symbol o.symbol).lexeme = some l) (hnumber : l.kind ≠ .number)
    (hslot : (s.workspace.symbols.symbol o.symbol).slot? = none) :
    Justified matched (s.workspace.undefined o.symbol o.position) := by
  rcases htraced with hnone | ⟨before, x, after, rfl, hcites⟩
  · rw [hl] at hnone
    cases hnone
  · obtain ⟨m, hm, hkind, htext⟩ := hcites.stands.lexeme
    obtain rfl : l = m := Option.some.inj (hl.symm.trans hm)
    have hk : x.kind = .identifier := hcites.kind.resolve_right (hkind ▸ hnumber)
    have hbehind : ∀ y ∈ x :: after, y.kind ≠ .variableWord :=
      List.forall_mem_cons.mpr ⟨by simp [hk], hcites.current⟩
    have hsame := (declarations_append hcites.aside hbehind).1
    rw [hsame] at hrecords
    have hnot : x.text ∉ declaredIn before := by
      intro hmem
      obtain ⟨y, hy, hytext⟩ := List.mem_map.mp hmem
      obtain ⟨id, slot, hid, hdeclaration⟩ := hrecords.recorded y hy
      have hlookup := hr.lookup_of_lexeme ho hl (hkind.trans hk)
      rw [htext, ← hytext, hid] at hlookup
      obtain rfl := Option.some.inj hlookup
      rw [Symbol.slot?, hdeclaration] at hslot
      cases hslot
    have hname : (s.workspace.symbols.symbol o.symbol).name?.getD "<temporary>" = x.text := by
      rw [Symbol.name?, hl, Option.map_some, Option.getD_some, htext]
    have hsuggests := SymbolTable.suggests_suggest hdistance
      (fun y => hrecords.mem_declaredNames hr.named) hnot
    rw [Workspace.undefined, hname, hcites.stands.position]
    exact .undefined rfl hk hcites.aside hnot hsuggests

/-- A value that waits without a register is a variable or a literal. -/
theorem Represents.exists_lexeme_of_register (hr : Represents s v) (ho : o ∈ s.operands)
    (hregister : (s.workspace.symbols.symbol o.symbol).register = none) :
    (s.workspace.symbols.symbol o.symbol).lexeme ≠ none := by
  intro hnone
  have hbanked := hr.banked
  have hmem : o.symbol ∈ s.temporaries := by
    simp only [Session.temporaries, List.mem_filter, List.mem_map, List.mem_reverse]
    exact ⟨⟨o, ho, rfl⟩, by rw [hnone]; rfl⟩
  obtain ⟨i, hi, he⟩ := List.getElem_of_mem hmem
  have hholder := hbanked.stacked.holder ⟨⟨i, Nat.lt_of_lt_of_le hi hbanked.stacked.fits⟩⟩
  rw [List.getElem?_eq_getElem hi, he, ← hbanked.bound, hregister] at hholder
  cases hholder

theorem Represents.justified_exhausted (hr : Represents s v) (ho : o ∈ s.operands)
    (htraced : o.Traced s.workspace.symbols matched)
    (hregister : (s.workspace.symbols.symbol o.symbol).register = none) :
    Justified matched (.located (.registersExhausted registerCount) o.position) := by
  rcases htraced with hnone | ⟨before, x, after, rfl, hcites⟩
  · exact absurd hnone (hr.exists_lexeme_of_register ho hregister)
  · rw [hcites.stands.position]
    exact .exhausted (by simp) hcites.kind.symm

/-- A variable that has a declaration was declared by one token before. -/
theorem Represents.justified_redeclared {settled : List Lexeme} {x : Lexeme} {earlier : Declaration}
    (hr : Represents s v)
    (hrecords : s.workspace.symbols.Records (declarations Lexeme.kind settled))
    (hdeclaring : Declaring settled) (hk : x.kind = .identifier)
    (hx : o.StandsFor s.workspace.symbols x)
    (hearlier : (s.workspace.symbols.symbol o.symbol).declaration = some earlier) :
    Justified (settled ++ [x]) (.located (.redeclaration
      ((s.workspace.symbols.symbol o.symbol).name?.getD "") earlier.site) o.position) := by
  obtain ⟨l, hl, hlk, htext⟩ := hx.lexeme
  obtain ⟨first, hfirst, hlookup, hsite⟩ := hrecords.exists_site hearlier
  have hname : (s.workspace.symbols.symbol o.symbol).name?.getD "" = x.text := by
    rw [Symbol.name?, hl, Option.map_some, Option.getD_some, htext]
  have hsame : first.text = x.text := by
    obtain ⟨m, hm, -, hmtext⟩ := hr.named _ _ hlookup
    obtain rfl : l = m := Option.some.inj (hl.symm.trans hm)
    exact hmtext.symm.trans htext
  rw [hname, hsite, hx.position]
  refine .redeclared rfl ?_
  rw [declarations_concat_of_declaring hdeclaring hk, List.filter_append, ← hsame,
    hrecords.filter_eq hfirst, List.filter_cons_of_pos (by simp [hsame])]
  rfl

/-- An action that fails because of the program does so because of one of the tokens. -/
theorem Session.Tracked.justified (hdistance : Text.IsLevenshtein distance) {a : Action}
    {rest : List GrammarSymbol} (h : s.Tracked matched)
    (hr : Represents s v) (hsafe : v.Safe) (hc : s.control = .action a :: rest)
    (hm : Compiling.move s = .error d s') (hd : d.cause.isInternal = false) :
    Justified matched d := by
  obtain ⟨settled, hunderway, hrecords⟩ := h
  rw [hc] at hunderway
  generalize ho : s.operands = operands at hunderway
  cases hunderway with
  | between hcalm htraced =>
    obtain ⟨hplain, -⟩ := hcalm.cons
    have ha : a ≠ .declare := by
      rintro rfl
      cases hplain
    have hsettles := hr.settles hsafe hc ha
    rw [hm] at hsettles
    rcases hsettles with hinternal | hblames
    · rw [hd] at hinternal
      cases hinternal
    · cases hblames with
      | undefined hmem hl hnumber _ hslot =>
        exact hr.justified_undefined hdistance hrecords hmem (htraced _ (ho ▸ hmem)) hl hnumber hslot
      | exhausted hmem hregister =>
        exact hr.justified_exhausted hmem (htraced _ (ho ▸ hmem)) hregister
  | declared _ hdeclaring hk hx =>
    rw [Compiling.move_action hc] at hm
    rcases declare_cases (s := s.acting .declare rest) ho with
      ⟨earlier, _, hearlier, he⟩ | ⟨-, _, _, he, -⟩
    · rw [Compiling.perform, he] at hm
      cases hm
      exact hr.justified_redeclared hrecords hdeclaring hk hx hearlier
    · rw [Compiling.perform, he] at hm
      cases hm
  | format =>
    rw [Compiling.move_action hc] at hm
    cases hm
  | call _ hk hx =>
    obtain ⟨l, hl, hlk, -⟩ := hx.lexeme
    obtain ⟨choice, hchoose⟩ := hr.choose_string ho hl (hlk.trans hk)
    obtain ⟨_, he, -⟩ := Compiling.callPrint_ok (s := s.acting .callPrint rest) ho hchoose
    rw [Compiling.move_action hc, Compiling.perform, he] at hm
    cases hm

theorem Reached.exists_justified (hdistance : Text.IsLevenshtein distance) {τ : Type} [Target τ]
    (h : compile τ input = .error d) (hd : d.cause.isSemantic = true) :
    ∃ matched tail, Lexer.lexemes input = matched.map .ok ++ tail ∧ Justified matched d := by
  rcases Reached.exists_of_compile_error h with ⟨l, hn⟩ | ⟨matched, s, s', hreached, hc, hm⟩
  · rw [Lexer.not_semantic_of_next hn] at hd
    cases hd
  · obtain ⟨a, rest, ha⟩ := Compiling.exists_action_of_move hc hm hd
    obtain ⟨v, hr, hsafe⟩ := hreached.exists_safe
    obtain ⟨tail, hlexemes, -⟩ := hreached.exists_lexemes_eq
    refine ⟨matched, .ok s.lookahead :: tail, by simpa using hlexemes, ?_⟩
    exact hreached.tracked.justified hdistance hr hsafe ha hm (hreached.not_internal_of_move hc hm)

/-- A variable that is reported as not defined is an identifier that is used and that no token
before it declares; the suggestion is the nearest of the variables declared before it, if one is
near, as long as names are compared by their Levenshtein distance. A variable that is reported as
declared twice is the second one declared by its name, and the first one is where the report says.
Where the registers are exhausted there is a number or an identifier. -/
theorem semantic_errors_of_compile (hdistance : Text.IsLevenshtein distance) (input : Input)
    (τ : Type) [Target τ] (d : Diagnostic) (h : compile τ input = .error d) :
    (∀ name suggestion, d.cause = .undefinedVariable name suggestion → ∃ before x after,
      Lexer.lexemes input = before.map .ok ++ .ok x :: after ∧ d.position = some x.position ∧
      x.kind = .identifier ∧ x.text = name ∧ ¬ Declaring before ∧ name ∉ declaredIn before ∧
      Suggests (declaredIn before) name suggestion) ∧
    (∀ name previous, d.cause = .redeclaration name previous → ∃ before first second after,
      Lexer.lexemes input = before.map .ok ++ .ok second :: after ∧
      d.position = some second.position ∧ first.position = previous ∧
      (declarations Lexeme.kind (before ++ [second])).filter (fun l => l.text = name) =
        [first, second]) ∧
    ∀ n, d.cause = .registersExhausted n →
      (∃ x, Yielded input x ∧ d.position = some x.position) ∧
      ∀ x, Yielded input x → d.position = some x.position →
        x.kind = .number ∨ x.kind = .identifier := by
  refine ⟨?_, ?_, ?_⟩
  · intro name suggestion hcause
    obtain ⟨matched, tail, hlexemes, hjustified⟩ :=
      Reached.exists_justified hdistance h (by rw [hcause]; rfl)
    cases hjustified with
    | @undefined before x after _ hmatched hk haside hnot hsuggests =>
      cases hcause
      refine ⟨before, x, after.map .ok ++ tail, ?_, rfl, hk, rfl, haside, hnot, hsuggests⟩
      rw [hlexemes, hmatched]
      simp
    | redeclared | exhausted => cases hcause
  · intro name previous hcause
    obtain ⟨matched, tail, hlexemes, hjustified⟩ :=
      Reached.exists_justified hdistance h (by rw [hcause]; rfl)
    cases hjustified with
    | @redeclared before first second _ hmatched hfilter =>
      cases hcause
      refine ⟨before, first, second, tail, ?_, rfl, rfl, hfilter⟩
      rw [hlexemes, hmatched]
      simp
    | undefined | exhausted => cases hcause
  · intro n hcause
    obtain ⟨matched, tail, hlexemes, hjustified⟩ :=
      Reached.exists_justified hdistance h (by rw [hcause]; rfl)
    cases hjustified with
    | @exhausted x hmem hk =>
      have hyielded : Yielded input x := by
        rw [Yielded, hlexemes]
        exact List.mem_append_left _ (List.mem_map_of_mem hmem)
      refine ⟨⟨x, hyielded, rfl⟩, fun y hy hposition => ?_⟩
      obtain rfl := hyielded.eq_of_position hy (Option.some.inj hposition)
      exact hk
    | undefined | redeclared => cases hcause

end AnyDistance

def misspelt : String :=
  "variable count; cuont := 1"

def deepSum : String :=
  "print -1+(-1+(-1+(-1+(-1+(1+1)))))"

theorem semantic_errors_of_misspelt :
    (∃ d before x after, compile Assembly (.ofText misspelt) = .error d ∧
      d.cause = .undefinedVariable "cuont" (some "count") ∧
      Lexer.lexemes (.ofText misspelt) = before.map .ok ++ .ok x :: after ∧
      d.position = some x.position ∧ x.kind = .identifier ∧ x.text = "cuont" ∧
      ¬ Declaring before ∧ "cuont" ∉ declaredIn before ∧
      Suggests (declaredIn before) "cuont" (some "count")) ∧
    (∃ d before first second after, compile Assembly (.ofText declaredTwice) = .error d ∧
      d.cause = .redeclaration "x" ⟨1, 10⟩ ∧
      Lexer.lexemes (.ofText declaredTwice) = before.map .ok ++ .ok second :: after ∧
      d.position = some second.position ∧ first.position = ⟨1, 10⟩ ∧
      (declarations Lexeme.kind (before ++ [second])).filter (fun l => l.text = "x") =
        [first, second]) ∧
    ∃ d x, compile Assembly (.ofText deepSum) = .error d ∧
      d.cause = .registersExhausted registerCount ∧ Yielded (.ofText deepSum) x ∧
      d.position = some x.position ∧ (x.kind = .number ∨ x.kind = .identifier) := by
  refine ⟨?_, ?_, ?_⟩
  · have herror : compile Assembly (.ofText misspelt) =
        .error (.located (.undefinedVariable "cuont" (some "count")) ⟨1, 17⟩) := by decide +kernel
    obtain ⟨before, x, after, h⟩ :=
      (semantic_errors_of_compile Text.isLevenshtein_editDistance _ Assembly _ herror).1 _ _ rfl
    exact ⟨_, before, x, after, herror, rfl, h⟩
  · have herror : compile Assembly (.ofText declaredTwice) =
        .error (.located (.redeclaration "x" ⟨1, 10⟩) ⟨1, 22⟩) := by decide +kernel
    obtain ⟨before, first, second, after, h⟩ :=
      (semantic_errors_of_compile Text.isLevenshtein_editDistance _ Assembly _ herror).2.1 _ _ rfl
    exact ⟨_, before, first, second, after, herror, rfl, h⟩
  · have herror : compile Assembly (.ofText deepSum) =
        .error (.located (.registersExhausted registerCount) ⟨1, 29⟩) := by decide +kernel
    obtain ⟨⟨x, hx, hposition⟩, hkind⟩ :=
      (semantic_errors_of_compile Text.isLevenshtein_editDistance _ Assembly _ herror).2.2 _ rfl
    exact ⟨_, x, herror, rfl, hx, hposition, hkind x hx hposition⟩

end OnePass
