import OnePass.Proofs.Prediction
import OnePass.Proofs.Reached

/-! # Syntax errors

The control stack yields exactly what can come behind the tokens matched so far. So the tokens
matched are always the beginning of a sentence, and a token is refused only if no sentence begins
with it behind them, however many rules have vanished before it is found wrong.
-/
namespace OnePass

section AnyDistance

variable {distance : String → String → Nat} [NameDistance distance]

/-- The kinds are the beginning of a sentence with the end of the input behind it. -/
def Viable (kinds : List Terminal) : Prop :=
  ∃ sentence ∈ language.contextFree.language, kinds <+: sentence ++ [.endOfInput]

theorem yields_initialControl_iff {w : List Terminal} :
    language.Yields Compiling.initialControl w ↔
      ∃ sentence ∈ language.contextFree.language, w = sentence ++ [.endOfInput] := by
  simp only [Grammar.mem_language_iff_yields]
  constructor
  · intro h
    cases h with
    | action h =>
      have hparts : language.Yields ([.nonterminal language.start] ++
        [.terminal .endOfInput, .action .epilogue]) w := h
      obtain ⟨sentence, v, rfl, hsentence, hv⟩ := hparts.split
      cases hv with
      | terminal hv =>
        cases hv with
        | action hv =>
          cases hv
          exact ⟨sentence, hsentence, rfl⟩
  · rintro ⟨sentence, hsentence, rfl⟩
    exact .action (hsentence.append (.terminal (.action .done)))

theorem viable_iff {kinds : List Terminal} :
    Viable kinds ↔ ∃ w, language.Yields Compiling.initialControl (kinds ++ w) := by
  simp only [yields_initialControl_iff]
  constructor
  · rintro ⟨sentence, hsentence, w, hw⟩
    exact ⟨w, sentence, hsentence, hw⟩
  · rintro ⟨w, sentence, hsentence, hw⟩
    exact ⟨sentence, hsentence, w, hw⟩

/-! ## The control stack along a compilation -/

/-- The control stack yields exactly what can come behind the kinds matched so far, if the next
token can come there. -/
structure OnCourse (kinds : List Terminal) (s : Session) : Prop where
  ending : ∃ pending, s.control = pending ++ [.terminal .endOfInput, .action .epilogue] ∧
    .terminal .endOfInput ∉ pending
  proper : Grammar.Proper languageSets s.control
  unclaimed : Unclaimed s.control.tail
  sound : ∀ w, language.Yields s.control w →
    language.Yields Compiling.initialControl (kinds ++ w)
  complete : ∀ w, language.Yields Compiling.initialControl (kinds ++ s.lookahead.kind :: w) →
    language.Yields s.control (s.lookahead.kind :: w)

variable {kinds : List Terminal} {s s' : Session}

theorem endOfInput_not_mem_rhs : ∀ r ∈ languageRules, .terminal .endOfInput ∉ r.rhs := by
  decide

theorem Dangles.ne_endOfInput {n : Nonterminal} {t : Terminal} {body : List GrammarSymbol}
    (h : Dangles n t body) : t ≠ .endOfInput := by
  rintro rfl
  have hmem := (Compiling.mem_of_rule? h.chosen).1
  exact endOfInput_not_mem_rhs _ hmem List.mem_cons_self

theorem onCourse_start (hc : s.control = Compiling.initialControl) : OnCourse [] s where
  ending := ⟨[.action .prologue, .nonterminal .program], hc, by simp⟩
  proper := by
    intro n rest hrest t ht
    rw [hc] at hrest
    obtain ⟨rfl, rfl⟩ : n = .program ∧ rest = [.terminal .endOfInput, .action .epilogue] := by
      cases n <;> simp_all [Compiling.initialControl, Grammar.remainders, language]
    obtain rfl : .endOfInput = t := by simpa [Grammar.Sets.beginsWith] using ht
    exact closed_languageSets.start
  unclaimed := by
    intro n t body hd hm
    rw [hc] at hm
    refine hd.ne_endOfInput ?_
    simpa [Compiling.initialControl] using hm
  sound w hy := hc ▸ hy
  complete w hy := hc ▸ hy

namespace OnCourse

theorem below {x : GrammarSymbol} {rest : List GrammarSymbol} (h : OnCourse kinds s)
    (hx : s.control = x :: rest) (hne : x ≠ .terminal .endOfInput) :
    (∃ pending, rest = pending ++ [.terminal .endOfInput, .action .epilogue] ∧
      .terminal .endOfInput ∉ pending) ∧ Grammar.Proper languageSets rest ∧ Unclaimed rest := by
  obtain ⟨⟨pending, hpending, hend⟩, hproper, hunclaimed, -, -⟩ := h
  rw [hx] at hpending hproper hunclaimed
  refine ⟨?_, hproper.tail, hunclaimed⟩
  cases pending with
  | nil => exact absurd (List.cons.inj hpending).1 hne
  | cons y pending => exact ⟨pending, (List.cons.inj hpending).2, fun hm => hend (.tail _ hm)⟩

theorem terminal {t : Terminal} {rest : List GrammarSymbol} (h : OnCourse kinds s)
    (hx : s.control = .terminal t :: rest) (hk : s.lookahead.kind = t) (ht : t ≠ .endOfInput)
    (hrest : s'.control = rest) : OnCourse (kinds ++ [t]) s' := by
  obtain ⟨hending, hproper, hunclaimed⟩ := h.below hx (by simpa using ht)
  subst hrest
  refine ⟨hending, hproper, hunclaimed.tail, fun w hy => ?_, fun w hy => ?_⟩
  · have hsound := h.sound (t :: w) (hx ▸ .terminal hy)
    simpa using hsound
  · have hcomplete := h.complete (s'.lookahead.kind :: w)
    rw [hk, hx] at hcomplete
    cases hcomplete (by simpa using hy) with
    | terminal hy' => exact hy'

theorem nonterminal {r : Rule} {rest : List GrammarSymbol} (h : OnCourse kinds s)
    (hx : s.control = .nonterminal r.lhs :: rest)
    (hr : languageTable.rule? r.lhs s.lookahead.kind = some r)
    (hrest : s'.control = r.rhs ++ rest) (hl : s'.lookahead = s.lookahead) :
    OnCourse kinds s' := by
  have hmem := (Compiling.mem_of_rule? hr).1
  obtain ⟨⟨pending, rfl, hend⟩, -, hunclaimed⟩ := h.below hx (by simp)
  refine ⟨⟨r.rhs ++ pending, by rw [hrest, List.append_assoc], ?_⟩, ?_, ?_, fun w hy => ?_,
    fun w hy => ?_⟩
  · rw [List.mem_append]
    exact not_or.mpr ⟨endOfInput_not_mem_rhs r hmem, hend⟩
  · rw [hrest]
    exact closed_languageSets.proper hmem (hx ▸ h.proper)
  · rw [hrest]
    exact .rule hmem hunclaimed
  · rw [hrest] at hy
    exact h.sound w (hx ▸ .nonterminal hmem hy)
  · -- The rule that was chosen is the one with which a derivation can go on.
    rw [hl] at hy ⊢
    have hcomplete := h.complete w hy
    rw [hx] at hcomplete
    obtain ⟨r', hr', hy'⟩ := exists_rule_of_yields (hx ▸ h.proper) hunclaimed hcomplete
    obtain rfl : r = r' := Option.some.inj (hr.symm.trans hr')
    rw [hrest]
    exact hy'

theorem action {a : Action} {rest : List GrammarSymbol} (h : OnCourse kinds s)
    (hx : s.control = .action a :: rest) (hrest : s'.control = rest)
    (hl : s'.lookahead = s.lookahead) : OnCourse kinds s' := by
  obtain ⟨hending, hproper, hunclaimed⟩ := h.below hx (by simp)
  subst hrest
  refine ⟨hending, hproper, hunclaimed.tail, fun w hy => ?_, fun w hy => ?_⟩
  · exact h.sound w (hx ▸ .action hy)
  · rw [hl] at hy ⊢
    have hcomplete := h.complete w hy
    rw [hx] at hcomplete
    cases hcomplete with
    | action hy' => exact hy'

theorem finish {rest : List GrammarSymbol} (h : OnCourse kinds s)
    (hx : s.control = .terminal .endOfInput :: rest) : rest = [.action .epilogue] := by
  obtain ⟨pending, hpending, hend⟩ := h.ending
  rw [hx] at hpending
  cases pending with
  | nil => exact (List.cons.inj hpending).2
  | cons y pending =>
    obtain ⟨rfl, -⟩ := List.cons.inj hpending
    exact absurd List.mem_cons_self hend

theorem viable (h : OnCourse kinds s) : Viable kinds := by
  obtain ⟨w, hw⟩ := exists_yields s.control
  exact viable_iff.mpr ⟨w, h.sound w hw⟩

/-- A terminal in place of the next token leaves no sentence. -/
theorem not_viable_of_terminal {t : Terminal} {rest : List GrammarSymbol} (h : OnCourse kinds s)
    (hx : s.control = .terminal t :: rest) (hk : s.lookahead.kind ≠ t) :
    ¬ Viable (kinds ++ [s.lookahead.kind]) := by
  intro hv
  obtain ⟨w, hw⟩ := viable_iff.mp hv
  have hcomplete := h.complete w (by simpa using hw)
  rw [hx] at hcomplete
  generalize s.lookahead.kind = a at hcomplete hk
  cases hcomplete
  exact hk rfl

/-- A nonterminal without a rule for the next token leaves no sentence. -/
theorem not_viable_of_nonterminal {n : Nonterminal} {rest : List GrammarSymbol}
    (h : OnCourse kinds s) (hx : s.control = .nonterminal n :: rest)
    (hr : languageTable.rule? n s.lookahead.kind = none) :
    ¬ Viable (kinds ++ [s.lookahead.kind]) := by
  intro hv
  obtain ⟨w, hw⟩ := viable_iff.mp hv
  have hcomplete := h.complete w (by simpa using hw)
  have hunclaimed := (h.below hx (by simp)).2.2
  rw [hx] at hcomplete
  obtain ⟨r, hr', -⟩ := exists_rule_of_yields (hx ▸ h.proper) hunclaimed hcomplete
  rw [hr] at hr'
  cases hr'

end OnCourse

variable {input : Input} {matched : List Lexeme}

/-- A compilation stays on course until it has matched the end of the input; then only actions are
left. -/
theorem Reached.onCourse (h : Reached input matched s) :
    OnCourse (matched.map Lexeme.kind) s ∨ ∀ x ∈ s.control, x.isAction = true := by
  induction h with
  | start hs => exact .inl (onCourse_start (Compiling.start_ok hs).2)
  | @move matched s s' _ hc hm ih =>
    cases Compiling.pushes_of_move hc hm with
    | @terminal t rest hx hk hrest ht hn =>
      rcases ih with ih | ih
      · have htaken : s.taken = [s.lookahead] := by simp [Session.taken, hx, ht]
        refine .inl ?_
        rw [htaken, List.map_append, List.map_singleton, hk]
        exact ih.terminal hx hk ht hrest
      · exact absurd (ih _ (hx ▸ List.mem_cons_self)) (by simp [GrammarSymbol.isAction])
    | finish hx hk hrest hlexer hlookahead =>
      rcases ih with ih | ih
      · have hlast := ih.finish hx
        rw [hrest, hlast]
        exact .inr (by simp [GrammarSymbol.isAction])
      · exact absurd (ih _ (hx ▸ List.mem_cons_self)) (by simp [GrammarSymbol.isAction])
    | nonterminal hx hr hrest hlexer hlookahead =>
      rcases ih with ih | ih
      · have htaken : s.taken = [] := by simp [Session.taken, hx]
        rw [htaken, List.append_nil]
        exact .inl (ih.nonterminal hx hr hrest hlookahead)
      · exact absurd (ih _ (hx ▸ List.mem_cons_self)) (by simp [GrammarSymbol.isAction])
    | action hx hrest hlexer hlookahead =>
      have htaken : s.taken = [] := by simp [Session.taken, hx]
      rw [htaken, List.append_nil]
      rcases ih with ih | ih
      · exact .inl (ih.action hx hrest hlookahead)
      · refine .inr fun x hx' => ih x ?_
        rw [hx]
        exact .tail _ (hrest ▸ hx')

/-! ## What a syntax error reports -/

def Cause.offending? : Cause → Option Token
  | unexpectedToken _ found text | noRule _ found text _ => some ⟨found, text⟩
  | _ => none

namespace Compiling

theorem advance_error {d : Diagnostic} (h : advance s = .error d s') :
    ∃ l, Lexer.next s.lexer = .error d l := by
  rw [advance, bind_ok (get_ok s)] at h
  by_cases hk : s.lookahead.kind = .endOfInput
  · simp only [hk, ne_eq, not_true_eq_false, if_false] at h
    cases h
  · simp only [hk, ne_eq, not_false_eq_true, if_true] at h
    rcases exists_of_bind_error h with hread | ⟨l, s₁, -, h⟩
    · unfold readLexeme at hread
      split at hread
      · cases hread
      · next d' l hn =>
        cases hread
        exact ⟨l, hn⟩
    · cases h

/-- A match fails because of its token, or because the lexer fails behind it. -/
theorem matchTerminal_cases {t : Terminal} {d : Diagnostic} (h : matchTerminal t s = .error d s') :
    (s.lookahead.kind ≠ t ∧ d =
      .located (.unexpectedToken t s.lookahead.kind s.lookahead.text) s.lookahead.position) ∨
    d.cause.isInternal = true ∨ ∃ l l', Lexer.next l = .error d l' := by
  rw [matchTerminal, bind_ok (get_ok _)] at h
  by_cases hk : s.lookahead.kind = t
  · simp only [hk, ne_eq, not_true_eq_false, if_false] at h
    rcases exists_of_bind_error h with h | ⟨_, s₁, ⟨⟩, h₁⟩
    · cases h
    · rcases exists_of_bind_error h₁ with h | ⟨_, s₂, ⟨⟩, h₂⟩
      · cases h
      · rcases exists_of_bind_error h₂ with h | ⟨_, s₃, -, h₃⟩
        · exact .inr (.inl (shift_error h))
        · exact .inr (.inr ⟨_, advance_error h₃⟩)
  · simp only [hk, ne_eq, not_false_eq_true, if_true] at h
    cases h
    exact .inl ⟨hk, rfl⟩

theorem matchTerminal_error {t : Terminal} {d : Diagnostic} (h : matchTerminal t s = .error d s')
    (hd : d.cause.isSyntax = true) : s.lookahead.kind ≠ t ∧
      d = .located (.unexpectedToken t s.lookahead.kind s.lookahead.text) s.lookahead.position := by
  rcases matchTerminal_cases h with hrefused | hinternal | ⟨_, _, hn⟩
  · exact hrefused
  · rw [Cause.not_syntax_of_internal hinternal] at hd
    cases hd
  · rw [Lexer.not_syntax_of_next hn] at hd
    cases hd

theorem expand_error {n : Nonterminal} {d : Diagnostic} (h : expand n s = .error d s') :
    languageTable.rule? n s.lookahead.kind = none ∧
      d = .located (.noRule n s.lookahead.kind s.lookahead.text (languageTable.expected n))
        s.lookahead.position := by
  rw [expand, bind_ok (get_ok _)] at h
  cases hr : languageTable.rule? n s.lookahead.kind with
  | some r =>
    rw [hr] at h
    cases h
  | none =>
    rw [hr] at h
    cases h
    exact ⟨rfl, rfl⟩

def Refuses (s : Session) : Prop :=
  (∃ t rest, s.control = .terminal t :: rest ∧ s.lookahead.kind ≠ t) ∨
    ∃ n rest, s.control = .nonterminal n :: rest ∧
      languageTable.rule? n s.lookahead.kind = none

/-- A move that fails with a syntax error reports the next token. -/
theorem refuses_of_move {d : Diagnostic} (hc : s.control ≠ []) (h : move s = .error d s')
    (hd : d.cause.isSyntax = true) :
    Refuses s ∧ d.position = some s.lookahead.position ∧
      d.cause.offending? = some s.lookahead.token := by
  obtain ⟨x, rest, hx⟩ := List.exists_cons_of_ne_nil hc
  rw [move_eq hx] at h
  cases x with
  | terminal t =>
    obtain ⟨hk, rfl⟩ := matchTerminal_error h hd
    exact ⟨.inl ⟨t, rest, hx, hk⟩, rfl, rfl⟩
  | nonterminal n =>
    obtain ⟨hr, rfl⟩ := expand_error h
    exact ⟨.inr ⟨n, rest, hx, hr⟩, rfl, rfl⟩
  | action a =>
    have hacts := (acts_log (.actionTaken a)).bind fun _ => acts_perform a
    rw [hacts.diagnosis h] at hd
    cases hd

end Compiling

/-- A token is refused only if the tokens up to it are the beginning of no sentence, while those
before it are. -/
theorem Reached.viable_of_refuses (h : Reached input matched s) (hr : Compiling.Refuses s) :
    Viable (matched.map Lexeme.kind) ∧
      ¬ Viable ((matched ++ [s.lookahead]).map Lexeme.kind) := by
  rw [List.map_append, List.map_singleton]
  rcases h.onCourse with hcourse | hactions
  · refine ⟨hcourse.viable, ?_⟩
    rcases hr with ⟨t, rest, hx, hk⟩ | ⟨n, rest, hx, hr⟩
    · exact hcourse.not_viable_of_terminal hx hk
    · exact hcourse.not_viable_of_nonterminal hx hr
  · rcases hr with ⟨t, rest, hx, -⟩ | ⟨n, rest, hx, -⟩
    all_goals exact absurd (hactions _ (hx ▸ List.mem_cons_self)) (by simp [GrammarSymbol.isAction])

theorem Reached.exists_of_syntax_error {τ : Type} [Target τ] {d : Diagnostic}
    (h : compile τ input = .error d) (hd : d.cause.isSyntax = true) :
    ∃ matched s, Reached input matched s ∧ Compiling.Refuses s ∧
      d.position = some s.lookahead.position ∧ d.cause.offending? = some s.lookahead.token := by
  rcases Reached.exists_of_compile_error h with ⟨l, hn⟩ | ⟨matched, s, s', hreached, hc, hm⟩
  · rw [Lexer.not_syntax_of_next hn] at hd
    cases hd
  · exact ⟨matched, s, hreached, Compiling.refuses_of_move hc hm hd⟩

/-- A syntax error reports the first token with which the tokens so far are the beginning of no
sentence, and a sentence is never refused with a syntax error. -/
theorem syntax_errors_of_compile (input : Input) (τ : Type) [Target τ] :
    (∀ d, compile τ input = .error d → d.cause.isSyntax = true → ∃ before x after,
      Lexer.lexemes input = before.map .ok ++ .ok x :: after ∧
      d.position = some x.position ∧ d.cause.offending? = some x.token ∧
      Viable (before.map Lexeme.kind) ∧ ¬ Viable ((before ++ [x]).map Lexeme.kind)) ∧
    ∀ body final, Lexer.lexemes input = (body ++ [final]).map .ok → final.kind = .endOfInput →
      body.map Lexeme.kind ∈ language.contextFree.language →
      ∀ d, compile τ input = .error d → d.cause.isSyntax = false := by
  constructor
  · intro d h hd
    obtain ⟨matched, s, hreached, hrefuses, hposition, htoken⟩ :=
      Reached.exists_of_syntax_error h hd
    obtain ⟨tail, hlexemes, -⟩ := hreached.exists_lexemes_eq
    obtain ⟨hviable, hnot⟩ := hreached.viable_of_refuses hrefuses
    exact ⟨matched, s.lookahead, tail, by simpa using hlexemes, hposition, htoken, hviable, hnot⟩
  · intro body final hlexed hfinal hsentence d h
    by_contra hd
    rw [Bool.not_eq_false] at hd
    obtain ⟨matched, s, hreached, hrefuses, -⟩ := Reached.exists_of_syntax_error h hd
    obtain ⟨tail, hlexemes, -⟩ := hreached.exists_lexemes_eq
    refine (hreached.viable_of_refuses hrefuses).2 ⟨_, hsentence, ?_⟩
    -- What was read is a beginning of the program, which is a sentence.
    have hread : matched ++ [s.lookahead] <+: body ++ [final] := by
      have hmap : (matched ++ [s.lookahead]).map Except.ok <+: (body ++ [final]).map Except.ok :=
        ⟨tail, hlexemes.symm.trans hlexed⟩
      exact (List.prefix_map_iff_of_injective fun _ _ => Except.ok.inj).mp hmap
    have hkinds := hread.map Lexeme.kind
    have hsplit : (body ++ [final]).map Lexeme.kind = body.map Lexeme.kind ++ [.endOfInput] := by
      rw [List.map_append, List.map_singleton, hfinal]
    rwa [hsplit] at hkinds

end AnyDistance

def unbalanced : String :=
  "variable x; x := 1 )"

def declaredTwice : String :=
  "variable x; variable x"

theorem syntax_errors_of_unbalanced :
    (∃ d before x after, compile Assembly (.ofText unbalanced) = .error d ∧
      d.cause.isSyntax = true ∧
      Lexer.lexemes (.ofText unbalanced) = before.map .ok ++ .ok x :: after ∧
      d.position = some x.position ∧ d.cause.offending? = some x.token ∧
      Viable (before.map Lexeme.kind) ∧ ¬ Viable ((before ++ [x]).map Lexeme.kind)) ∧
    ∃ body final d, Lexer.lexemes (.ofText declaredTwice) = (body ++ [final]).map .ok ∧
      final.kind = .endOfInput ∧ body.map Lexeme.kind ∈ language.contextFree.language ∧
      compile Assembly (.ofText declaredTwice) = .error d ∧ d.cause.isSyntax = false := by
  constructor
  · have herror : compile Assembly (.ofText unbalanced) =
        .error (.located (.noRule .separatedList .rightParen ")"
          [.endWord, .separator, .endOfInput]) ⟨1, 20⟩) := by decide +kernel
    obtain ⟨before, x, after, h⟩ := (syntax_errors_of_compile _ Assembly).1 _ herror rfl
    exact ⟨_, before, x, after, herror, rfl, h⟩
  · let body := ((Lexer.lexemes (.ofText declaredTwice)).filterMap Except.toOption).dropLast
    have hlexemes : Lexer.lexemes (.ofText declaredTwice) =
        (body ++ [Lexeme.atEnd ⟨1, 23⟩]).map .ok := by decide +kernel
    have hkinds : body.map Lexeme.kind =
        [.variableWord, .identifier, .separator, .variableWord, .identifier] := by decide +kernel
    have hsentence : body.map Lexeme.kind ∈ language.contextFree.language := by
      rw [hkinds, Grammar.mem_language_iff_yields]
      exact .nonterminal (r := ⟨.program, [.nonterminal .statement, .nonterminal .separatedList]⟩)
          (by decide) <|
        .nonterminal (r := ⟨.statement, [.terminal .variableWord, .terminal .identifier,
          .action .declare]⟩) (by decide) <| .terminal <| .terminal <| .action <|
        .nonterminal (r := ⟨.separatedList, [.terminal .separator, .nonterminal .statement,
          .nonterminal .separatedList]⟩) (by decide) <| .terminal <|
        .nonterminal (r := ⟨.statement, [.terminal .variableWord, .terminal .identifier,
          .action .declare]⟩) (by decide) <| .terminal <| .terminal <| .action <|
        .nonterminal (r := ⟨.separatedList, []⟩) (by decide) .done
    have herror : compile Assembly (.ofText declaredTwice) =
        .error (.located (.redeclaration "x" ⟨1, 10⟩) ⟨1, 22⟩) := by decide +kernel
    exact ⟨body, _, _, hlexemes, rfl, hsentence, herror,
      (syntax_errors_of_compile _ Assembly).2 body _ hlexemes rfl hsentence _ herror⟩

end OnePass
