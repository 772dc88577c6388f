import OnePass.Proofs.LanguageTable
import OnePass.Proofs.SyntaxErrors
import OnePass.Proofs.TableConstruction

/-! # Expected tokens

A syntax error lists a whole row of the parse table. In the rows of nonterminals that can vanish at
many places, what may follow is taken together from all of them, and before such a row is reached
others may have vanished that the next token does not suit. Such a row has both the end of a block
and the end of the input, and no place of a program takes the two. The lists of all other rows are
exact.
-/
namespace OnePass

open Grammar (remainders mem_remainders_append remainders_subset_cons)

section AnyDistance

variable {distance : String → String → Nat} [NameDistance distance]

/-! ## Blocks -/

/-- How many more blocks the symbols end than they begin. -/
def unopened : List GrammarSymbol → Nat
  | [] => 0
  | .terminal .endWord :: rest => unopened rest + 1
  | .terminal .beginWord :: rest => unopened rest - 1
  | _ :: rest => unopened rest

theorem unopened_rule : ∀ r ∈ languageRules, ∀ rest, unopened (r.rhs ++ rest) = unopened rest := by
  simp [languageRules, unopened]

/-- In a beginning of what is derived no more blocks end than have begun, apart from those that the
symbols themselves end. -/
theorem Grammar.Yields.count_endWord_le {symbols : List GrammarSymbol} {w u v : List Terminal}
    (h : language.Yields symbols w) (hw : w = u ++ v) :
    u.count .endWord ≤ u.count .beginWord + unopened symbols := by
  induction h generalizing u with
  | done =>
    obtain ⟨rfl, -⟩ := List.append_eq_nil_iff.mp hw.symm
    exact Nat.zero_le _
  | @terminal t rest w h ih =>
    cases u with
    | nil => exact Nat.zero_le _
    | cons x u =>
      obtain ⟨rfl, rfl⟩ := List.cons.inj hw
      have hrest := ih rfl
      cases t <;> simp [unopened] <;> omega
  | @nonterminal r rest w hr h ih =>
    have hrule := ih hw
    rw [unopened_rule r hr] at hrule
    exact hrule
  | action h ih => exact ih hw

/-- Everything derived ends as many blocks as it begins, apart from those that the symbols end. -/
theorem Grammar.Yields.count_eq {symbols : List GrammarSymbol} {w : List Terminal}
    (h : language.Yields symbols w) :
    w.count .beginWord + symbols.count (.terminal .endWord) =
      w.count .endWord + symbols.count (.terminal .beginWord) := by
  have hrules : ∀ r ∈ languageRules,
      r.rhs.count (.terminal .beginWord) = r.rhs.count (.terminal .endWord) := by decide
  induction h with
  | done => rfl
  | @terminal t rest w h ih =>
    cases t <;> simp <;> omega
  | @nonterminal r rest w hr h ih =>
    have hrule := hrules r hr
    rw [List.count_append, List.count_append] at ih
    rw [List.count_cons_of_ne (by simp), List.count_cons_of_ne (by simp)]
    omega
  | action h ih =>
    rw [List.count_cons_of_ne (by simp), List.count_cons_of_ne (by simp)]
    exact ih

theorem Grammar.Yields.endOfInput_not_mem {symbols : List GrammarSymbol} {w : List Terminal}
    (h : language.Yields symbols w) (hs : .terminal .endOfInput ∉ symbols) : .endOfInput ∉ w := by
  induction h with
  | done => exact List.not_mem_nil
  | terminal h ih =>
    rw [List.mem_cons, not_or] at hs ⊢
    exact ⟨fun ht => hs.1 (congrArg _ ht), ih hs.2⟩
  | @nonterminal r rest w hr h ih =>
    refine ih fun hm => ?_
    rcases List.mem_append.mp hm with hm | hm
    · exact endOfInput_not_mem_rhs r hr hm
    · exact hs (.tail _ hm)
  | action h ih => exact ih fun hm => hs (.tail _ hm)

variable {kinds : List Terminal}

/-- Where a block can end, more have begun than ended. -/
theorem Viable.count_of_endWord (h : Viable (kinds ++ [.endWord])) :
    kinds.count .endWord < kinds.count .beginWord := by
  obtain ⟨w, hw⟩ := viable_iff.mp h
  have hcount := hw.count_endWord_le rfl
  have hinitial : unopened Compiling.initialControl = 0 := rfl
  rw [List.count_append, List.count_append, hinitial] at hcount
  simp only [List.count_singleton_self, List.count_singleton, beq_iff_eq, reduceCtorEq,
    if_false] at hcount
  omega

/-- Where the input can end, all blocks have ended. -/
theorem Viable.count_of_endOfInput (h : Viable (kinds ++ [.endOfInput])) :
    kinds.count .endWord = kinds.count .beginWord := by
  obtain ⟨sentence, hsentence, hread⟩ := h
  rw [Grammar.mem_language_iff_yields] at hsentence
  have hend : .endOfInput ∉ sentence := hsentence.endOfInput_not_mem (by simp)
  rcases List.prefix_concat_iff.mp hread with heq | hwithin
  · obtain ⟨rfl, -⟩ := List.append_inj' heq rfl
    have hcount := hsentence.count_eq
    simp at hcount
    omega
  · exact absurd (hwithin.subset (by simp)) hend

theorem not_viable_both : ¬ (Viable (kinds ++ [.endWord]) ∧ Viable (kinds ++ [.endOfInput])) := by
  rintro ⟨hblock, hinput⟩
  have hlt := hblock.count_of_endWord
  have heq := hinput.count_of_endOfInput
  omega

/-! ## Rows -/

/-- The row of the nonterminal has the end of a block and the end of the input. -/
def Nonterminal.isVague (n : Nonterminal) : Bool :=
  (languageTable.expected n).contains .endWord && (languageTable.expected n).contains .endOfInput

/-- The nonterminal that is expanded next, if no terminal is matched before. -/
def leader? : List GrammarSymbol → Option Nonterminal
  | .action _ :: rest => leader? rest
  | .nonterminal n :: _ => some n
  | _ => none

theorem leader?_append {xs ys : List GrammarSymbol} {n : Nonterminal}
    (h : leader? (xs ++ ys) = some n) : leader? xs = some n ∨ leader? ys = some n := by
  induction xs with
  | nil => exact .inr h
  | cons x xs ih =>
    cases x with
    | terminal t => cases h
    | nonterminal m => exact .inl h
    | action a => exact ih h

theorem mem_expected_iff {n : Nonterminal} {t : Terminal} :
    t ∈ languageTable.expected n ↔
      language.Begins [.nonterminal n] t ∨
        language.Vanishes [.nonterminal n] ∧ language.Precedes n t := by
  obtain ⟨table, hbuild, hentry⟩ := entry?_build_language
  rw [← ParseTable.mem_expected_of_build hbuild, ParseTable.expected, ParseTable.expected]
  simp only [hentry]

theorem mem_expected_of_rule? {n : Nonterminal} {t : Terminal} {r : Rule}
    (h : languageTable.rule? n t = some r) : t ∈ languageTable.expected n := by
  obtain ⟨e, he, -⟩ := Option.map_eq_some_iff.mp h
  exact List.mem_filter.mpr ⟨t.mem_all, by rw [he]; rfl⟩

/-- What a sequence can begin with, it yields something with. -/
theorem exists_yields_of_begins {symbols : List GrammarSymbol} {t : Terminal}
    (h : language.Begins (erase symbols) t) : ∃ w, language.Yields symbols (t :: w) := by
  obtain ⟨form, hform⟩ := h
  obtain ⟨expanded, -, herase⟩ := Grammar.exists_expands symbols hform
  obtain ⟨_, _, after, -, -, -, hafter⟩ := List.filterMap_eq_cons_iff.mp herase
  obtain ⟨w, hw⟩ := exists_yields after
  have hderives : language.contextFree.Derives form (w.map .terminal) := hafter ▸ hw.derives
  have hall := hform.trans (hderives.append_left [.terminal t])
  exact ⟨w, Grammar.yields_of_derives (w := t :: w) hall symbols rfl⟩

/-! ## Exact rows -/

/-- Only a vague nonterminal comes behind another one. -/
def Guarded (symbols : List GrammarSymbol) : Prop :=
  ∀ n, ∀ rest ∈ remainders n symbols, ∀ m, leader? rest = some m → m.isVague = true

theorem guarded_rules : ∀ r ∈ languageRules, ∀ n ∈ Nonterminal.all, ∀ rest ∈ remainders n r.rhs,
    ∀ m ∈ Nonterminal.all, leader? rest = some m → m.isVague = true := by
  decide +kernel

theorem rule?_leader : ∀ n ∈ Nonterminal.all, ∀ t ∈ Terminal.all,
    (languageTable.rule? n t).all (fun r => (leader? r.rhs).all fun m =>
      m.isVague || (languageTable.rule? m t).isSome) = true := by
  decide +kernel

theorem follow_unique : ∀ n ∈ Nonterminal.all, n.isVague = false → n ∈ languageSets.nullable →
    ∀ t ∈ Terminal.all, ∀ u ∈ Terminal.all, (n, t) ∈ languageSets.follow →
      (n, u) ∈ languageSets.follow → t = u := by
  decide +kernel

theorem Guarded.tail {x : GrammarSymbol} {rest : List GrammarSymbol} (h : Guarded (x :: rest)) :
    Guarded rest :=
  fun n q hq m hm => h n q (remainders_subset_cons n x rest hq) m hm

theorem Guarded.rule {r : Rule} {rest : List GrammarSymbol} (hr : r ∈ languageRules)
    (h : Guarded (.nonterminal r.lhs :: rest)) : Guarded (r.rhs ++ rest) := by
  intro n q hq m hm
  rcases mem_remainders_append.mp hq with ⟨front, hfront, rfl⟩ | hq
  · rcases leader?_append hm with hm | hm
    · exact guarded_rules r hr n n.mem_all front hfront m m.mem_all hm
    · exact h r.lhs rest (by simp [remainders]) m hm
  · exact h.tail n q hq m hm

def Precise (kinds : List Terminal) (s : Session) : Prop :=
  ∀ w, language.Yields Compiling.initialControl (kinds ++ w) → language.Yields s.control w

/-- Rules were chosen for the next token only if it suits what comes first now, unless that is
vague. -/
structure Focused (kinds : List Terminal) (s : Session) : Prop where
  guarded : Guarded s.control
  precise : Precise kinds s ∨ ∀ n, leader? s.control = some n →
    n.isVague = true ∨ (languageTable.rule? n s.lookahead.kind).isSome = true

variable {s s' : Session}

theorem focused_start (hc : s.control = Compiling.initialControl) : Focused [] s where
  guarded := by
    intro n rest hrest m hm
    rw [hc] at hrest
    obtain rfl : rest = [.terminal .endOfInput, .action .epilogue] := by
      cases n <;> simp_all [Compiling.initialControl, remainders, language]
    cases hm
  precise := .inl fun w hy => hc ▸ hy

namespace Focused

theorem terminal {t : Terminal} {rest : List GrammarSymbol} (h : Focused kinds s)
    (hcourse : OnCourse kinds s) (hx : s.control = .terminal t :: rest) (hk : s.lookahead.kind = t)
    (hrest : s'.control = rest) : Focused (kinds ++ [t]) s' := by
  refine ⟨?_, .inl fun w hy => ?_⟩
  · have hguarded := h.guarded
    rw [hx] at hguarded
    exact hrest ▸ hguarded.tail
  · have hcomplete := hcourse.complete w
    rw [hk, hx] at hcomplete
    rw [hrest]
    cases hcomplete (by simpa using hy) with
    | terminal hy' => exact hy'

theorem nonterminal {r : Rule} {rest : List GrammarSymbol} (h : Focused kinds s)
    (hx : s.control = .nonterminal r.lhs :: rest)
    (hr : languageTable.rule? r.lhs s.lookahead.kind = some r)
    (hrest : s'.control = r.rhs ++ rest) (hl : s'.lookahead = s.lookahead) : Focused kinds s' := by
  have hguarded := h.guarded
  rw [hx] at hguarded
  refine ⟨hrest ▸ hguarded.rule (Compiling.mem_of_rule? hr).1, .inr fun n hn => ?_⟩
  rw [hrest] at hn
  rw [hl]
  rcases leader?_append hn with hn | hn
  · have hleader := rule?_leader r.lhs r.lhs.mem_all s.lookahead.kind s.lookahead.kind.mem_all
    rw [hr, Option.all_some, hn, Option.all_some, Bool.or_eq_true] at hleader
    exact hleader
  · -- The rule has vanished, and only a vague nonterminal can come then.
    exact .inl (hguarded r.lhs rest (by simp [remainders]) n hn)

theorem action {a : Action} {rest : List GrammarSymbol} (h : Focused kinds s)
    (hx : s.control = .action a :: rest) (hrest : s'.control = rest)
    (hl : s'.lookahead = s.lookahead) : Focused kinds s' := by
  have hguarded := h.guarded
  rw [hx] at hguarded
  refine ⟨hrest ▸ hguarded.tail, h.precise.imp (fun hprecise w hy => ?_) fun hleader n hn => ?_⟩
  · have hyields := hprecise w hy
    rw [hx] at hyields
    rw [hrest]
    cases hyields with
    | action hy' => exact hy'
  · rw [hl]
    refine hleader n ?_
    rw [hx]
    exact hrest ▸ hn

end Focused

theorem Reached.focused {input : Input} {matched : List Lexeme} (h : Reached input matched s) :
    Focused (matched.map Lexeme.kind) s := by
  induction h with
  | start hs => exact focused_start (Compiling.start_ok hs).2
  | @move matched s s' hreached hc hm ih =>
    cases Compiling.pushes_of_move hc hm with
    | @terminal t rest hx hk hrest ht hn =>
      have htaken : s.taken = [s.lookahead] := by simp [Session.taken, hx, ht]
      rw [htaken, List.map_append, List.map_singleton, hk]
      rcases hreached.onCourse with hcourse | hactions
      · exact ih.terminal hcourse hx hk hrest
      · exact absurd (hactions _ (hx ▸ List.mem_cons_self)) (by simp [GrammarSymbol.isAction])
    | @finish rest hx hk hrest hlexer hlookahead =>
      have hguarded := ih.guarded
      rw [hx] at hguarded
      refine ⟨hrest ▸ hguarded.tail, .inr fun n hn => ?_⟩
      rcases hreached.onCourse with hcourse | hactions
      · rw [hrest, hcourse.finish hx] at hn
        cases hn
      · exact absurd (hactions _ (hx ▸ List.mem_cons_self)) (by simp [GrammarSymbol.isAction])
    | nonterminal hx hr hrest hlexer hlookahead =>
      have htaken : s.taken = [] := by simp [Session.taken, hx]
      rw [htaken, List.append_nil]
      exact ih.nonterminal hx hr hrest hlookahead
    | action hx hrest hlexer hlookahead =>
      have htaken : s.taken = [] := by simp [Session.taken, hx]
      rw [htaken, List.append_nil]
      exact ih.action hx hrest hlookahead

/-! ## What a syntax error expects -/

section Row

variable {n : Nonterminal} {rest : List GrammarSymbol} {t : Terminal}

/-- What the nonterminal on top can begin with can come next. -/
theorem OnCourse.viable_of_begins (h : OnCourse kinds s) (hx : s.control = .nonterminal n :: rest)
    (ht : language.Begins [.nonterminal n] t) : Viable (kinds ++ [t]) := by
  have hbegins : language.Begins (erase s.control) t := by
    rw [hx]
    exact ht.append (erase rest)
  obtain ⟨w, hw⟩ := exists_yields_of_begins hbegins
  exact viable_iff.mpr ⟨w, by simpa using h.sound _ hw⟩

/-- A row that is not vague has one follower at most, which is what comes behind. -/
theorem OnCourse.viable_of_follow (h : OnCourse kinds s) (hx : s.control = .nonterminal n :: rest)
    (hn : n.isVague = false) (hv : language.Vanishes [.nonterminal n])
    (ht : language.Precedes n t) : Viable (kinds ++ [t]) := by
  obtain ⟨⟨pending, hpending, -⟩, -, -⟩ := h.below hx (by simp)
  obtain ⟨w, hw⟩ := exists_yields rest
  have hne : w ≠ [] := by
    rintro rfl
    rw [hpending] at hw
    obtain ⟨u, v, huv, -, hlast⟩ := hw.split
    obtain ⟨-, rfl⟩ := List.append_eq_nil_iff.mp huv.symm
    cases hlast
  obtain ⟨u, w, rfl⟩ := List.exists_cons_of_ne_nil hne
  have hfollow := (hx ▸ h.proper).follow (closed_languageSets.beginsWith ⟨_, hw.derives⟩)
  have hnull : n ∈ languageSets.nullable := by
    have hnull : languageSets.isNullable [.nonterminal n] = true :=
      closed_languageSets.isNullable hv
    simpa [Grammar.Sets.isNullable] using hnull
  obtain rfl := follow_unique n n.mem_all hn hnull t t.mem_all u u.mem_all
    (closed_languageSets.mem_follow ht) hfollow
  have hempty : language.Yields [.nonterminal n] [] := Grammar.yields_of_derives (w := []) hv _ rfl
  have hall : language.Yields s.control (t :: w) := hx ▸ hempty.append hw
  exact viable_iff.mpr ⟨w, by simpa using h.sound _ hall⟩

/-- The row of a nonterminal that is not vague is exact where a token is refused. -/
theorem OnCourse.mem_expected_iff (h : OnCourse kinds s) (hf : Focused kinds s)
    (hx : s.control = .nonterminal n :: rest)
    (hr : languageTable.rule? n s.lookahead.kind = none) (hn : n.isVague = false) :
    t ∈ languageTable.expected n ↔ Viable (kinds ++ [t]) := by
  constructor
  · intro ht
    rcases OnePass.mem_expected_iff.mp ht with hbegins | ⟨hv, hprecedes⟩
    · exact h.viable_of_begins hx hbegins
    · exact h.viable_of_follow hx hn hv hprecedes
  · intro hv
    have hprecise : Precise kinds s := by
      refine hf.precise.resolve_right fun hleader => ?_
      rcases hleader n (by rw [hx]; rfl) with hvague | hrule
      · rw [hn] at hvague
        cases hvague
      · rw [hr] at hrule
        cases hrule
    obtain ⟨w, hw⟩ := viable_iff.mp hv
    have hyields := hprecise (t :: w) (by simpa using hw)
    rw [hx] at hyields
    obtain ⟨r, hrule, -⟩ :=
      exists_rule_of_yields (hx ▸ h.proper) (h.below hx (by simp)).2.2 hyields
    exact mem_expected_of_rule? hrule

end Row

/-- A token without a rule is reported with the row of the nonterminal on top. -/
theorem Reached.exists_of_noRule {input : Input} {τ : Type} [Target τ] {d : Diagnostic}
    {n : Nonterminal} {found : Terminal} {text : String} {expected : List Terminal}
    (h : compile τ input = .error d) (hd : d.cause = .noRule n found text expected) :
    ∃ matched s rest, Reached input matched s ∧ s.control = .nonterminal n :: rest ∧
      languageTable.rule? n s.lookahead.kind = none ∧ d.position = some s.lookahead.position ∧
      s.lookahead.token = ⟨found, text⟩ ∧ expected = languageTable.expected n := by
  rcases Reached.exists_of_compile_error h with ⟨l, hn⟩ | ⟨matched, s, s', hreached, hc, hm⟩
  · have hsyntax := Lexer.not_syntax_of_next hn
    rw [hd] at hsyntax
    cases hsyntax
  · obtain ⟨x, rest, hx⟩ := List.exists_cons_of_ne_nil hc
    rw [Compiling.move_eq hx] at hm
    cases x with
    | terminal t =>
      obtain ⟨-, rfl⟩ := Compiling.matchTerminal_error hm (by rw [hd]; rfl)
      cases hd
    | nonterminal m =>
      obtain ⟨hr, rfl⟩ := Compiling.expand_error hm
      cases hd
      exact ⟨matched, s, rest, hreached, hx, hr, rfl, rfl, rfl⟩
    | action a =>
      have hacts := (Compiling.acts_log (.actionTaken a)).bind fun _ => Compiling.acts_perform a
      have hsyntax := hacts.diagnosis hm
      rw [hd] at hsyntax
      cases hsyntax

/-- A syntax error at a nonterminal lists all tokens that its alternatives begin with, and each of
them can come there. The list is that of the tokens that can come there exactly if it does not have
both the end of a block and the end of the input. -/
theorem expected_exact_iff {input : Input} {τ : Type} [Target τ] {d : Diagnostic} {n : Nonterminal}
    {found : Terminal} {text : String} {expected : List Terminal}
    (h : compile τ input = .error d) (hd : d.cause = .noRule n found text expected) :
    ∃ (before : List Lexeme) (x : Lexeme) (after : List (Except Diagnostic Lexeme)),
      Lexer.lexemes input = before.map .ok ++ .ok x :: after ∧
      d.position = some x.position ∧ x.token = ⟨found, text⟩ ∧
      (∀ t, language.Begins [.nonterminal n] t →
        t ∈ expected ∧ Viable (before.map Lexeme.kind ++ [t])) ∧
      ((∀ t, t ∈ expected ↔ Viable (before.map Lexeme.kind ++ [t])) ↔
        ¬ (.endWord ∈ expected ∧ .endOfInput ∈ expected)) := by
  obtain ⟨matched, s, rest, hreached, hx, hr, hposition, htoken, rfl⟩ :=
    Reached.exists_of_noRule h hd
  obtain ⟨tail, hlexemes, -⟩ := hreached.exists_lexemes_eq
  have hcourse : OnCourse (matched.map Lexeme.kind) s := by
    refine hreached.onCourse.resolve_right fun hactions => ?_
    exact absurd (hactions _ (hx ▸ List.mem_cons_self)) (by simp [GrammarSymbol.isAction])
  refine ⟨matched, s.lookahead, tail, by simpa using hlexemes, hposition, htoken, ?_, ?_, ?_⟩
  · intro t ht
    exact ⟨mem_expected_iff.mpr (.inl ht), hcourse.viable_of_begins hx ht⟩
  · rintro hexact ⟨hblock, hinput⟩
    exact not_viable_both ⟨(hexact _).mp hblock, (hexact _).mp hinput⟩
  · intro hrow t
    have hn : n.isVague = false := by
      rw [Nonterminal.isVague, Bool.and_eq_false_iff, ← Bool.not_eq_true, ← Bool.not_eq_true,
        List.contains_iff_mem, List.contains_iff_mem, ← not_and_or]
      exact hrow
    exact hcourse.mem_expected_iff hreached.focused hx hr hn

end AnyDistance

def unprinted : String :=
  "variable x; print ; x := 1"

theorem expected_exact_of_unprinted :
    ∃ (d : Diagnostic) (expected : List Terminal) (before : List Lexeme) (x : Lexeme)
      (after : List (Except Diagnostic Lexeme)),
      compile Assembly (.ofText unprinted) = .error d ∧
      d.cause = .noRule .printExpression .separator ";" expected ∧
      Lexer.lexemes (.ofText unprinted) = before.map .ok ++ .ok x :: after ∧
      d.position = some x.position ∧
      ∀ t, t ∈ expected ↔ Viable (before.map Lexeme.kind ++ [t]) := by
  have herror : compile Assembly (.ofText unprinted) =
      .error (.located (.noRule .printExpression .separator ";"
        [.identifier, .number, .stringConst, .additiveOp, .leftParen]) ⟨1, 19⟩) := by
    decide +kernel
  obtain ⟨before, x, after, hlexemes, hposition, -, -, hexact⟩ := expected_exact_iff herror rfl
  exact ⟨_, _, before, x, after, herror, rfl, hlexemes, hposition, hexact.mpr (by decide)⟩

def unseparated : String :=
  "print 1 print 2"

/-- The tokens listed behind a complete expression are those that may follow one somewhere, such as
the end of a block that was never begun. -/
theorem endWord_expected_of_unseparated :
    ∃ (d : Diagnostic) (expected : List Terminal) (before : List Lexeme) (x : Lexeme)
      (after : List (Except Diagnostic Lexeme)),
      compile Assembly (.ofText unseparated) = .error d ∧
      d.cause = .noRule .multiplication .printWord "print" expected ∧
      Lexer.lexemes (.ofText unseparated) = before.map .ok ++ .ok x :: after ∧
      d.position = some x.position ∧ x.token = ⟨.printWord, "print"⟩ ∧
      .endWord ∈ expected ∧ ¬ Viable (before.map Lexeme.kind ++ [.endWord]) := by
  let lexemes := (Lexer.lexemes (.ofText unseparated)).filterMap Except.toOption
  have herror : compile Assembly (.ofText unseparated) =
      .error (.located (.noRule .multiplication .printWord "print"
        [.thenWord, .elseWord, .doWord, .endWord, .additiveOp, .multiplicativeOp, .relationalOp,
          .separator, .rightParen, .endOfInput]) ⟨1, 9⟩) := by decide +kernel
  have hlexemes : Lexer.lexemes (.ofText unseparated) =
      (lexemes.take 2).map .ok ++
        .ok ⟨"print", .printWord, ⟨1, 9⟩⟩ :: (lexemes.drop 3).map .ok := by decide +kernel
  have hkinds : (lexemes.take 2).map Lexeme.kind = [.printWord, .number] := by decide +kernel
  refine ⟨_, _, lexemes.take 2, _, _, herror, rfl, hlexemes, rfl, rfl, by decide, fun hv => ?_⟩
  have hcount := hv.count_of_endWord
  rw [hkinds] at hcount
  exact absurd hcount (by decide)

end OnePass
