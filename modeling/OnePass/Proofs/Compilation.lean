import OnePass.Proofs.Emission
import OnePass.Proofs.MoveRefinement
import OnePass.Proofs.Parsing
import OnePass.Proofs.StatementRun

/-! # Compilation as translation

The compiler accepts exactly the programs that have a parse tree with a translation, and its text is
that translation: the moves of the session are those of the snapshots, and these run through the
parse tree.
-/
namespace OnePass

open Compiling (Reaches)
open Snapshot (Leads accept)

section AnyDistance

variable {distance : String → String → Nat} [NameDistance distance]

/-! ## Sessions along the moves of a snapshot -/

theorem agrees_move {s : Session} {v : Snapshot} {x : GrammarSymbol} {rest : List GrammarSymbol}
    (h : Represents s v) (hc : v.control = x :: rest) :
    s.control = x :: rest ∧
      Refines (Compiling.move s) (Snapshot.step { v with control := rest } x) := by
  obtain ⟨live, bank, hw, hs⟩ := h
  have hs' : s.control = x :: rest := hw.control.trans hc
  refine ⟨hs', ?_⟩
  rw [Compiling.move_eq hs']
  have hw' : Working { s with control := rest } { v with control := rest } live [] bank :=
    { hw with
      control := rfl
      emitter := { hw.emitter with } }
  exact refines_step ⟨live, bank, hw', hs⟩ x

theorem reaches_of_leads {s : Session} {v v' : Snapshot} (h : Leads v (some v'))
    (hr : Represents s v) : ∃ n s', Reaches n s s' ∧ Represents s' v' := by
  generalize ho : some v' = outcome at h
  induction h generalizing s with
  | here =>
    cases ho
    exact ⟨0, s, .here, hr⟩
  | move hc hstep _ ih =>
    obtain ⟨hcontrol, hmove⟩ := agrees_move hr hc
    obtain ⟨_, s₁, hs₁, hr₁⟩ := hmove (some _) hstep
    obtain ⟨n, s', hn, hr'⟩ := ih hr₁ ho
    exact ⟨n + 1, s', .move (by simp [hcontrol]) hs₁ hn, hr'⟩
  | refused => cases ho

theorem error_of_leads {s : Session} {v : Snapshot} (h : Leads v none) (hr : Represents s v)
    (fuel : Nat) : ∃ d s', Compiling.run fuel s = .error d s' := by
  generalize ho : none = outcome at h
  induction h generalizing s fuel with
  | here => cases ho
  | move hc hstep _ ih =>
    obtain ⟨hcontrol, hmove⟩ := agrees_move hr hc
    obtain ⟨_, s₁, hs₁, hr₁⟩ := hmove (some _) hstep
    have hne : s.control ≠ [] := by simp [hcontrol]
    cases fuel with
    | zero => exact Compiling.run_zero_error hne
    | succ fuel =>
      rw [Compiling.run_succ hne, Compiling.bind_ok hs₁]
      exact ih hr₁ fuel ho
  | refused hc hstep =>
    obtain ⟨hcontrol, hmove⟩ := agrees_move hr hc
    obtain ⟨d, s₁, hs₁, -⟩ := hmove none hstep
    have hne : s.control ≠ [] := by simp [hcontrol]
    cases fuel with
    | zero => exact Compiling.run_zero_error hne
    | succ fuel =>
      rw [Compiling.run_succ hne, Compiling.bind_error hs₁]
      exact ⟨d, s₁, rfl⟩

/-! ## Reading the first token -/

theorem working_ofInput (input : Input) :
    Working (Session.ofInput input) { tokens := [⟨.endOfInput, ""⟩], control := [] } [] [] {} where
  lexing := ⟨[], rfl, .ended rfl⟩
  mode := rfl
  control := rfl
  operators := rfl
  symbols := rfl
  values := rfl
  emitter := ⟨rfl, rfl, rfl, rfl, rfl⟩
  registers := rfl
  coherent := .empty
  accounts := SymbolTable.accounts_empty
  literals := by simp

theorem represents_start {input : Input} {x : Lexeme} {l : Lexer} {ys : List Lexeme}
    (hn : Lexer.next (.ofInput input) = .ok x l) (hf : Lexer.Follows x l ys) :
    ∃ s, Compiling.start (Session.ofInput input) = .ok () s ∧ s.lookahead = x ∧ s.lexer = l ∧
      Represents s
        { tokens := (x :: ys).map Lexeme.token, control := Compiling.initialControl } := by
  obtain ⟨s, hread, hw⟩ := (working_ofInput input).read hn hf
  refine ⟨{ s with lookahead := x, control := Compiling.initialControl }, ?_, rfl, ?_, [], {}, ?_,
    RegisterBank.stacked_empty⟩
  · rw [Compiling.start, Compiling.bind_ok hread]
    rfl
  · have := (Compiling.readLexeme_ok hread).1
    rw [show (Session.ofInput input).lexer = .ofInput input from rfl, hn] at this
    cases this
    rfl
  · exact { hw with control := rfl, emitter := { hw.emitter with } }

theorem Represents.control {s : Session} {v : Snapshot} (h : Represents s v) :
    s.control = v.control := by
  obtain ⟨live, bank, hw, -⟩ := h
  exact hw.control

/-! ## Whole compilations -/

theorem Assembly.toList_foldl (emissions : List Emission) (a : Assembly) (segment : Segment) :
    ((emissions.foldl (fun t e => (Target.push t e).2) a).segment segment).toList =
      (a.segment segment).toList ++
        (emissions.filter fun e => e.segment = segment).map Emission.line := by
  induction emissions generalizing a with
  | nil => simp
  | cons e emissions ih =>
    obtain ⟨other, line, p⟩ := e
    have hpush : (Target.push a ⟨other, line, p⟩).2 = a.add other line := rfl
    rw [List.foldl_cons, ih, hpush]
    cases other <;> cases segment <;> simp [Assembly.add, Assembly.segment]

theorem Assembly.segment_ofEmissions (e : Emitter) (segment : Segment) :
    ((Target.ofEmissions Assembly e.emitted.toList).segment segment).toList = e.lines segment := by
  refine (Assembly.toList_foldl e.emitted.toList {} segment).trans ?_
  cases segment <;> simp [Assembly.segment, Emitter.lines]

theorem compile_eq (τ : Type) [Target τ] (input : Input) : compile τ input =
    match Compiling.program (.ofInput input) with
    | .ok _ s => .ok (Target.ofEmissions τ s.workspace.emitter.emitted.toList)
    | .error d _ => .error d := by
  rw [compile, compileAfter]
  cases hp : Compiling.program (.ofInput input) with
  | ok _ s =>
    have houtcome : outcome {} input = .ok () s := hp
    rw [outcomeInto_of_ok houtcome]
  | error d s =>
    have houtcome : outcome {} input = .error d s := hp
    rw [outcomeInto_of_error houtcome]

theorem program_of_run {input : Input} {s : Session}
    (h : Compiling.start (.ofInput input) = .ok () s) :
    (∀ d s', Compiling.run (Compiling.moveBudget s.lexer.upcoming.length) s = .error d s' →
      compile Assembly input = .error d) ∧
    ∀ s', Compiling.run (Compiling.moveBudget s.lexer.upcoming.length) s = .ok () s' →
      compile Assembly input =
        .ok (Target.ofEmissions Assembly s'.workspace.emitter.emitted.toList) := by
  constructor
  · intro d s' hr
    rw [compile_eq, Compiling.program, Compiling.bind_ok h, Compiling.bind_ok (Compiling.get_ok s),
      Compiling.bind_error hr]
  · intro s' hr
    rw [compile_eq, Compiling.program, Compiling.bind_ok h, Compiling.bind_ok (Compiling.get_ok s),
      Compiling.bind_ok hr]
    rfl

theorem exists_follows_of_lexemes {input : Input} {body : List Lexeme} {final : Lexeme}
    (hl : Lexer.lexemes input = (body ++ [final]).map .ok) (hf : final.kind = .endOfInput) :
    ∃ x l ys, Lexer.next (.ofInput input) = .ok x l ∧ Lexer.Follows x l ys ∧
      x :: ys = body ++ [final] :=
  Lexer.follows_of_drain hf hl

/-- A program with a parse tree compiles to the translation of the tree, or is refused if the tree
has none. -/
theorem compile_of_parses {input : Input} {body : List Lexeme} {final : Lexeme} {tree : Sequence}
    (hl : Lexer.lexemes input = (body ++ [final]).map .ok) (hf : final.kind = .endOfInput)
    (ht : tree.Parses body) :
    match tree.code tree.distinctLiterals {} with
    | some result => ∃ a, compile Assembly input = .ok a ∧
      a.text.toList = openingText ++ result.1 ++ closingText ∧
      a.data.toList = openingData ++ definitions tree.distinctLiterals
    | none => ∃ d, compile Assembly input = .error d := by
  obtain ⟨x, l, ys, hn, hfollows, hxs⟩ := exists_follows_of_lexemes hl hf
  obtain ⟨s, hstart, hlookahead, hlexer, hr⟩ := represents_start hn hfollows
  have hinitial : (x :: ys).map Lexeme.token = tree.tokens ++ [final.token] := by
    rw [hxs, ht.spelling]
    simp
  rw [hinitial] at hr
  have hleads := Sequence.leads ht.resolved (u := final.token) hf
  cases hcode : tree.code tree.distinctLiterals {} with
  | none =>
    rw [hcode] at hleads
    obtain ⟨d, s', he⟩ := error_of_leads hleads hr (Compiling.moveBudget s.lexer.upcoming.length)
    exact ⟨d, (program_of_run hstart).1 d s' he⟩
  | some result =>
    rw [hcode] at hleads
    obtain ⟨n, s', hreach, live, bank, hw, -⟩ := reaches_of_leads hleads hr
    have hbudget : n ≤ Compiling.moveBudget s.lexer.upcoming.length := by
      have hlt := Compiling.lt_moveBudget hreach hr.control (hlexer ▸ (Lexer.next_ok rfl hn).1)
      omega
    have hrun := Compiling.run_of_reaches hreach hw.control hbudget
    refine ⟨_, (program_of_run hstart).2 s' hrun, ?_, ?_⟩
    · exact (Assembly.segment_ofEmissions _ .text).trans hw.emitter.text
    · exact (Assembly.segment_ofEmissions _ .data).trans hw.emitter.data

theorem length_lt_of_follows {input : Input} {x : Lexeme} {l : Lexer} {ys : List Lexeme}
    (hn : Lexer.next (.ofInput input) = .ok x l) (hf : Lexer.Follows x l ys) :
    ys.length < input.items.length + 1 := by
  obtain ⟨hmode, hx | ⟨-, hlt⟩⟩ := Lexer.next_ok rfl hn
  · cases hf with
    | ended => simp
    | failed hx' => exact absurd hx hx'
    | more hx' => exact absurd hx hx'
  · have hle := hf.length_le hmode
    have hitems : (Lexer.ofInput input).upcoming = input.items := rfl
    rw [hitems] at hlt
    omega

/-- A program that compiles is lexed to its end and is a sentence of the grammar. -/
theorem exists_sentence_of_compile {input : Input} {a : Assembly}
    (h : compile Assembly input = .ok a) :
    ∃ body final, Lexer.lexemes input = (body ++ [final]).map .ok ∧ final.kind = .endOfInput ∧
      body.map Lexeme.kind ∈ language.contextFree.language := by
  cases hn : Lexer.next (.ofInput input) with
  | error d l =>
    have hread : Compiling.readLexeme (.ofInput input) =
        .error d { Session.ofInput input with lexer := l } := by
      simp only [Compiling.readLexeme, Session.ofInput, hn]
    have hstart : Compiling.start (.ofInput input) = _ := Compiling.bind_error hread _
    rw [compile_eq, Compiling.program, Compiling.bind_error hstart] at h
    cases h
  | ok x l =>
    have hmode := (Lexer.next_ok rfl hn).1
    obtain ⟨ys, hfollows⟩ := Lexer.exists_follows x hmode
    obtain ⟨s, hstart, hlookahead, hlexer, hr⟩ := represents_start hn hfollows
    cases hrun : Compiling.run (Compiling.moveBudget s.lexer.upcoming.length) s with
    | error d s' =>
      rw [(program_of_run hstart).1 d s' hrun] at h
      cases h
    | ok _ s' =>
      obtain ⟨n, hreach, hs'⟩ := Compiling.exists_reaches hrun
      have hcontrol : s.control = [.action .prologue, .nonterminal .program] ++
        .terminal .endOfInput :: [.action .epilogue] := hr.control
      have hfollows' : Lexer.Follows s.lookahead s.lexer ys := by rwa [hlookahead, hlexer]
      obtain ⟨body, final, hbody, hfinal, hyields⟩ := Compiling.yields_of_reaches hreach hs' hcontrol
        (by simp) hfollows'
      rw [hlookahead] at hbody
      refine ⟨body, final, ?_, hfinal, ?_⟩
      · rw [← hbody]
        exact Lexer.drain_of_follows hfollows hn (length_lt_of_follows hn hfollows)
          ⟨body, final, hbody, hfinal⟩
      · rw [Grammar.mem_language_iff_yields]
        cases hyields with
        | action hyields => exact hyields

theorem spelled_of_lexemes {input : Input} {body : List Lexeme} {final : Lexeme}
    (hl : Lexer.lexemes input = (body ++ [final]).map .ok) (hf : final.kind = .endOfInput) :
    ∀ y ∈ body, y.token.Spelled := by
  obtain ⟨x, l, ys, hn, hfollows, hxs⟩ := exists_follows_of_lexemes hl hf
  obtain ⟨hmode, hx⟩ := Lexer.next_ok rfl hn
  have hspelled : ∀ y ∈ x :: ys, y.kind = .endOfInput ∨ y.token.Spelled :=
    List.forall_mem_cons.mpr ⟨hx.imp_right And.left, hfollows.spelled hmode⟩
  intro y hy
  exact (hspelled y (by simp [hxs, hy])).resolve_left (hfollows.ne_end_of_mem hxs hy)

/-- A parse tree of a program that compiles has a translation, and the program compiles to it. -/
theorem exists_code_of_compile {input : Input} {a : Assembly} {body : List Lexeme} {final : Lexeme}
    {tree : Sequence} (h : compile Assembly input = .ok a)
    (hl : Lexer.lexemes input = (body ++ [final]).map .ok) (hf : final.kind = .endOfInput)
    (ht : tree.Parses body) :
    ∃ code progress, tree.code tree.distinctLiterals {} = some (code, progress) ∧
      a.text.toList = openingText ++ code ++ closingText ∧
      a.data.toList = openingData ++ definitions tree.distinctLiterals := by
  have hcompile := compile_of_parses hl hf ht
  cases hcode : tree.code tree.distinctLiterals {} with
  | none =>
    rw [hcode] at hcompile
    obtain ⟨d, he⟩ := hcompile
    rw [he] at h
    cases h
  | some result =>
    rw [hcode] at hcompile
    obtain ⟨b, hb, htext, hdata⟩ := hcompile
    obtain rfl : b = a := Except.ok.inj (hb.symm.trans h)
    exact ⟨result.1, result.2, rfl, htext, hdata⟩

def Sequence.ParsesText (tree : Sequence) (source : String) : Prop :=
  ∃ body final, Lexer.lexemes (.ofText source) = (body ++ [final]).map .ok ∧
    final.kind = .endOfInput ∧ tree.Parses body

theorem exists_parsesText {source : String} {a : Assembly}
    (h : compile Assembly (.ofText source) = .ok a) : ∃ tree : Sequence, tree.ParsesText source := by
  obtain ⟨body, final, hl, hf, hsentence⟩ := exists_sentence_of_compile h
  obtain ⟨tree, ht⟩ := exists_parse hsentence (spelled_of_lexemes hl hf)
  exact ⟨tree, body, final, hl, hf, ht⟩

def countdown : String :=
  "variable x; x := 7; while x > 5 do x := x - 2; print x"

def countdownTree : Sequence :=
  let x : Expression := .single (.single (.var "x"))
  .more (.declare "x") <|
  .more (.assign "x" (.single (.single (.number "7")))) <|
  .more (.whileDo ⟨x, .greater, .single (.single (.number "5"))⟩
    (.assign "x" (.chain x .minus (.single (.number "2"))))) <|
  .last (.print x)

theorem countdownTree_parsesText : countdownTree.ParsesText countdown := by
  let body := ((Lexer.lexemes (.ofText countdown)).filterMap Except.toOption).dropLast
  have hlexemes : Lexer.lexemes (.ofText countdown) =
      (body ++ [Lexeme.atEnd ⟨1, 55⟩]).map .ok := by decide +kernel
  have hspelling : countdownTree.tokens = body.map Lexeme.token := by decide +kernel
  refine ⟨body, _, hlexemes, rfl, hspelling, ?_⟩
  simp [countdownTree, Sequence.Resolved, Statement.Resolved, Condition.Resolved,
    Expression.Resolved, Term.Resolved, Factor.Resolved]

theorem exists_compile_of_isOk (source : String)
    (h : (compile Assembly (.ofText source)).isOk = true) :
    ∃ a, compile Assembly (.ofText source) = .ok a := by
  cases hc : compile Assembly (.ofText source) with
  | error d =>
    rw [hc] at h
    cases h
  | ok a => exact ⟨a, rfl⟩

end AnyDistance

theorem exists_compile_countdown : ∃ a, compile Assembly (.ofText countdown) = .ok a :=
  exists_compile_of_isOk _ (by decide +kernel)

end OnePass
