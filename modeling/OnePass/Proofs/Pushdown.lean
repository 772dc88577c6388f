import OnePass.Proofs.Derivation
import OnePass.Proofs.Footprint
import OnePass.Proofs.Lexing

/-! # The session as a pushdown automaton

Actions touch neither the control stack nor the input. A run of a session that ends well therefore
is a leftmost derivation of the tokens it reads. Every move is paid for, by the symbol it takes from
the control stack or by the token it reads, so the length of every run is bounded.
-/
namespace OnePass

variable {distance : String → String → Nat} [NameDistance distance]

/-- The tokens that the next move takes from the input. The end of the input is never passed. -/
def Session.taken (s : Session) : List Lexeme :=
  match s.control with
  | .terminal t :: _ => if t = .endOfInput then [] else [s.lookahead]
  | _ => []

namespace Compiling

/-! ## Moves -/

inductive Pushes (s s' : Session) : Prop
  | terminal {t rest} : s.control = .terminal t :: rest → s.lookahead.kind = t →
    s'.control = rest → t ≠ .endOfInput → Lexer.next s.lexer = .ok s'.lookahead s'.lexer →
    Pushes s s'
  | finish {rest} : s.control = .terminal .endOfInput :: rest → s.lookahead.kind = .endOfInput →
    s'.control = rest → s'.lexer = s.lexer → s'.lookahead = s.lookahead → Pushes s s'
  | nonterminal {r rest} : s.control = .nonterminal r.lhs :: rest →
    languageTable.rule? r.lhs s.lookahead.kind = some r → s'.control = r.rhs ++ rest →
    s'.lexer = s.lexer → s'.lookahead = s.lookahead → Pushes s s'
  | action {a rest} : s.control = .action a :: rest → s'.control = rest → s'.lexer = s.lexer →
    s'.lookahead = s.lookahead → Pushes s s'

theorem rule_mem_of_entry {e : ParseTable.Entry} (h : e ∈ languageTable.entries) :
    e.rule ∈ languageRules := by
  obtain ⟨⟨⟨r, ts⟩, i⟩, hr, he⟩ := List.mem_flatMap.mp h
  obtain ⟨t, -, rfl⟩ := List.mem_map.mp he
  exact (List.of_mem_zip (List.fst_mem_of_mem_zipIdx hr)).1

theorem mem_of_rule? {n : Nonterminal} {t : Terminal} {r : Rule}
    (h : languageTable.rule? n t = some r) : r ∈ languageRules ∧ r.lhs = n := by
  obtain ⟨e, he, rfl⟩ := Option.map_eq_some_iff.mp h
  have hp := List.find?_some he
  simp only [ParseTable.Entry.fills, Bool.and_eq_true, decide_eq_true_eq] at hp
  exact ⟨rule_mem_of_entry (List.mem_of_find?_eq_some he), hp.1⟩

theorem readLexeme_ok {s s' : Session} {l : Lexeme} (h : readLexeme s = .ok l s') :
    Lexer.next s.lexer = .ok l s'.lexer ∧ s'.control = s.control := by
  unfold readLexeme at h
  split at h
  · next lexeme lexer hn =>
    cases h
    rw [hn]
    unfold Session.noteLexeme
    split <;> exact ⟨rfl, rfl⟩
  · cases h

theorem advance_ok {s s' : Session} (h : advance s = .ok () s') :
    s'.control = s.control ∧
      (s.lookahead.kind = .endOfInput ∧ s'.lexer = s.lexer ∧ s'.lookahead = s.lookahead ∨
        s.lookahead.kind ≠ .endOfInput ∧ Lexer.next s.lexer = .ok s'.lookahead s'.lexer) := by
  rw [advance, bind_ok (get_ok s)] at h
  by_cases hk : s.lookahead.kind = .endOfInput
  · simp only [hk, ne_eq, not_true_eq_false, if_false] at h
    cases h
    exact ⟨rfl, .inl ⟨hk, rfl, rfl⟩⟩
  · simp only [hk, ne_eq, not_false_eq_true, if_true] at h
    obtain ⟨l, s₁, hr, h⟩ := exists_of_bind_ok h
    cases h
    obtain ⟨hn, hc⟩ := readLexeme_ok hr
    exact ⟨hc, .inr ⟨hk, hn⟩⟩

/-- A match is a shift at the position of the token, and behind it the next token is read. -/
theorem matchTerminal_ok {s s' : Session} {t : Terminal} (h : matchTerminal t s = .ok () s') :
    s.lookahead.kind = t ∧ ∃ s₁ s₂,
      s₁ = { s with
        workspace.emitter := s.workspace.emitter.moveTo s.lookahead.position
        events := s.events.push (.terminalMatched t s.lookahead.text) } ∧
      shift s.lookahead s₁ = .ok () s₂ ∧ advance s₂ = .ok () s' := by
  rw [matchTerminal, bind_ok (get_ok _)] at h
  by_cases hk : s.lookahead.kind = t
  · simp only [hk, ne_eq, not_true_eq_false, if_false] at h
    obtain ⟨_, s₁, ⟨⟩, h₁⟩ := exists_of_bind_ok h
    obtain ⟨_, s₂, ⟨⟩, h₂⟩ := exists_of_bind_ok h₁
    obtain ⟨_, s₃, hshift, hadvance⟩ := exists_of_bind_ok h₂
    exact ⟨hk, _, s₃, rfl, hshift, hadvance⟩
  · simp only [hk, ne_eq, not_false_eq_true, if_true] at h
    cases h

theorem pushes_of_matchTerminal {s s' : Session} {t : Terminal} {rest : List GrammarSymbol}
    (hc : s.control = .terminal t :: rest)
    (h : matchTerminal t { s with control := rest } = .ok () s') : Pushes s s' := by
  obtain ⟨hk, _, s₂, rfl, hshift, hadvance⟩ := matchTerminal_ok h
  replace hk : s.lookahead.kind = t := hk
  obtain ⟨_, _, _, _, rfl, -⟩ := shift_ok hshift
  obtain ⟨hcontrol', ⟨hend, hlexer', hlookahead'⟩ | ⟨hend, hnext⟩⟩ := advance_ok hadvance
  · obtain rfl : t = .endOfInput := hk.symm.trans hend
    exact .finish hc hend hcontrol' hlexer' hlookahead'
  · exact .terminal hc hk hcontrol' (fun he => hend (hk.trans he)) hnext

theorem pushes_of_expand {s s' : Session} {n : Nonterminal} {rest : List GrammarSymbol}
    (hc : s.control = .nonterminal n :: rest)
    (h : expand n { s with control := rest } = .ok () s') : Pushes s s' := by
  rw [expand, bind_ok (get_ok _)] at h
  dsimp only at h
  cases hr : languageTable.rule? n s.lookahead.kind with
  | none =>
    rw [hr] at h
    cases h
  | some r =>
    rw [hr] at h
    cases h
    obtain rfl := (mem_of_rule? hr).2
    exact .nonterminal hc hr rfl rfl rfl

theorem move_eq {s : Session} {x : GrammarSymbol} {rest : List GrammarSymbol}
    (hx : s.control = x :: rest) : move s = step x { s with control := rest } := by
  rw [move, bind_ok (get_ok s), hx]
  rfl

theorem pushes_of_move {s s' : Session} (hc : s.control ≠ []) (h : move s = .ok () s') :
    Pushes s s' := by
  obtain ⟨x, rest, hx⟩ := List.exists_cons_of_ne_nil hc
  rw [move_eq hx] at h
  cases x with
  | terminal t => exact pushes_of_matchTerminal hx h
  | nonterminal n => exact pushes_of_expand hx h
  | action a =>
    have hacts := (acts_log (.actionTaken a)).bind fun _ => acts_perform a
    obtain ⟨hcontrol, hlexer, hlookahead⟩ := (hacts.changes h).keeps
    exact .action hx hcontrol hlexer hlookahead

theorem taken_of_pushes {s s' : Session} (h : Pushes s s') :
    s.taken = [] ∧ s'.lookahead = s.lookahead ∧ s'.lexer = s.lexer ∨
      s.taken = [s.lookahead] ∧ s.lookahead.kind ≠ .endOfInput ∧
        Lexer.next s.lexer = .ok s'.lookahead s'.lexer := by
  cases h with
  | terminal hx hk hrest ht hn =>
    refine .inr ⟨?_, hk ▸ ht, hn⟩
    rw [Session.taken, hx]
    exact if_neg ht
  | finish hx hk hrest hlexer hlookahead =>
    refine .inl ⟨?_, hlookahead, hlexer⟩
    rw [Session.taken, hx]
    exact if_pos rfl
  | nonterminal hx hr hrest hlexer hlookahead =>
    refine .inl ⟨?_, hlookahead, hlexer⟩
    rw [Session.taken, hx]
  | action hx hrest hlexer hlookahead =>
    refine .inl ⟨?_, hlookahead, hlexer⟩
    rw [Session.taken, hx]

/-! ## Runs -/

inductive Reaches : Nat → Session → Session → Prop
  | here {s} : Reaches 0 s s
  | move {n s s' s''} : s.control ≠ [] → move s = .ok () s' → Reaches n s' s'' →
    Reaches (n + 1) s s''

theorem run_of_control_nil {s : Session} (h : s.control = []) (fuel : Nat) :
    run fuel s = .ok () s := by
  cases fuel <;> rw [run, bind_ok (get_ok s)] <;> simp [h] <;> rfl

theorem run_succ {s : Session} (h : s.control ≠ []) (fuel : Nat) :
    run (fuel + 1) s = (do move; run fuel : Compiling Unit) s := by
  rw [run, bind_ok (get_ok s)]
  simp [h]

theorem run_zero_error {s : Session} (h : s.control ≠ []) : ∃ d s', run 0 s = .error d s' := by
  rw [run, bind_ok (get_ok s)]
  simp only [List.isEmpty_iff, h, if_false]
  exact ⟨_, s, rfl⟩

theorem run_of_reaches {n fuel : Nat} {s s' : Session} (h : Reaches n s s')
    (hc : s'.control = []) (hn : n ≤ fuel) : run fuel s = .ok () s' := by
  induction h generalizing fuel with
  | here => exact run_of_control_nil hc fuel
  | move hs hm _ ih =>
    obtain ⟨fuel, rfl⟩ := Nat.exists_eq_succ_of_ne_zero (Nat.ne_of_gt (Nat.lt_of_lt_of_le
      (Nat.succ_pos _) hn))
    rw [run_succ hs, bind_ok hm]
    exact ih hc (Nat.le_of_succ_le_succ hn)

theorem run_error_of_reaches {n fuel : Nat} {s s₁ s' : Session} {d : Diagnostic}
    (h : Reaches n s s₁) (hc : s₁.control ≠ []) (he : move s₁ = .error d s') (hn : n < fuel) :
    run fuel s = .error d s' := by
  induction h generalizing fuel with
  | here =>
    obtain ⟨fuel, rfl⟩ := Nat.exists_eq_succ_of_ne_zero (Nat.ne_of_gt hn)
    rw [run_succ hc, bind_error he]
  | move hs hm _ ih =>
    obtain ⟨fuel, rfl⟩ := Nat.exists_eq_succ_of_ne_zero (Nat.ne_of_gt (Nat.zero_lt_of_lt hn))
    rw [run_succ hs, bind_ok hm]
    exact ih hc he (Nat.lt_of_succ_lt_succ hn)

theorem exists_reaches {fuel : Nat} {s s' : Session} (h : run fuel s = .ok () s') :
    ∃ n, Reaches n s s' ∧ s'.control = [] := by
  induction fuel generalizing s with
  | zero =>
    by_cases hc : s.control = []
    · rw [run_of_control_nil hc] at h
      cases h
      exact ⟨0, .here, hc⟩
    · obtain ⟨d, s₁, he⟩ := run_zero_error hc
      rw [he] at h
      cases h
  | succ fuel ih =>
    by_cases hc : s.control = []
    · rw [run_of_control_nil hc] at h
      cases h
      exact ⟨0, .here, hc⟩
    · rw [run_succ hc] at h
      obtain ⟨_, s₁, hm, hr⟩ := exists_of_bind_ok h
      obtain ⟨n, hn, hc'⟩ := ih hr
      exact ⟨n + 1, .move hc hm hn, hc'⟩

/-- A run that ends well derives the tokens up to the end of the input. -/
theorem yields_of_reaches {n : Nat} {s s' : Session} (h : Reaches n s s') (hs' : s'.control = [])
    {symbols rest : List GrammarSymbol} (hc : s.control = symbols ++ .terminal .endOfInput :: rest)
    (hend : .terminal .endOfInput ∉ symbols) {ys : List Lexeme}
    (hf : Lexer.Follows s.lookahead s.lexer ys) :
    ∃ body final, s.lookahead :: ys = body ++ [final] ∧ final.kind = .endOfInput ∧
      language.Yields symbols (body.map Lexeme.kind) := by
  induction h generalizing symbols ys with
  | here => simp [hs'] at hc
  | move hne hm hreach ih =>
    have hrules : ∀ r ∈ languageRules, .terminal .endOfInput ∉ r.rhs := by decide
    cases pushes_of_move hne hm with
    | terminal hx hk hrest he hn =>
      rw [hx] at hc
      cases symbols with
      | nil =>
        obtain ⟨rfl, -⟩ : _ ∧ _ := by simpa using hc
        exact absurd rfl he
      | cons x symbols =>
        obtain ⟨rfl, hc'⟩ := List.cons.inj hc
        cases hf with
        | ended hend => exact absurd (hk.symm.trans hend) he
        | failed _ hn' => simp [hn] at hn'
        | more _ hn' hf =>
          obtain ⟨rfl, rfl⟩ : _ ∧ _ := by simpa [hn] using hn'
          obtain ⟨body, final, hb, hfinal, hy⟩ := ih hs' (hrest.trans hc')
            (fun hm => hend (.tail _ hm)) hf
          exact ⟨_ :: body, final, by rw [hb]; rfl, hfinal, by simpa [hk] using .terminal hy⟩
    | finish hx hk =>
      rw [hx] at hc
      cases symbols with
      | nil =>
        cases hf with
        | ended => exact ⟨[], _, rfl, hk, .done⟩
        | failed hk' => exact absurd hk hk'
        | more hk' => exact absurd hk hk'
      | cons x symbols =>
        obtain ⟨rfl, -⟩ := List.cons.inj hc
        exact absurd List.mem_cons_self hend
    | @nonterminal r _ hx hr hrest hlexer hlookahead =>
      rw [hx] at hc
      cases symbols with
      | nil => simp at hc
      | cons x symbols =>
        obtain ⟨rfl, hc'⟩ := List.cons.inj hc
        rw [← hlexer, ← hlookahead] at hf
        have hcontrol := (hrest.trans (congrArg (r.rhs ++ ·) hc')).trans
          (List.append_assoc _ _ _).symm
        have hmem := (mem_of_rule? hr).1
        obtain ⟨body, final, hb, hfinal, hy⟩ := ih hs' hcontrol
          (by simpa using ⟨hrules r hmem, fun hm => hend (.tail _ hm)⟩) hf
        exact ⟨body, final, by rw [← hb, hlookahead], hfinal, .nonterminal hmem hy⟩
    | action hx hrest hlexer hlookahead =>
      rw [hx] at hc
      cases symbols with
      | nil => simp at hc
      | cons x symbols =>
        obtain ⟨rfl, hc'⟩ := List.cons.inj hc
        rw [← hlexer, ← hlookahead] at hf
        obtain ⟨body, final, hb, hfinal, hy⟩ := ih hs' (hrest.trans hc')
          (fun hm => hend (.tail _ hm)) hf
        exact ⟨body, final, by rw [← hb, hlookahead], hfinal, .action hy⟩

/-! ## The length of runs -/

/-- How many moves a symbol costs, and the rules that are chosen for it before a token is matched. -/
def cost : GrammarSymbol → Nat
  | .terminal _ => 1
  | .action _ => 1
  | .nonterminal n =>
    match n with
    | .program => 3
    | .statementList => 3
    | .printExpression => 8
    | .booleanExpression => 16
    | .expression => 6
    | .term => 4
    | .factor => 2
    | _ => 1

def totalCost : List GrammarSymbol → Nat
  | [] => 0
  | x :: rest => cost x + totalCost rest

theorem totalCost_append (xs ys : List GrammarSymbol) :
    totalCost (xs ++ ys) = totalCost xs + totalCost ys := by
  induction xs with
  | nil => simp [totalCost]
  | cons x xs ih =>
    simp only [List.cons_append, totalCost, ih]
    omega

def fare : Nat := 32

def Matching (s : Session) : Prop :=
  s.lookahead.kind ≠ .endOfInput ∧ s.control.head? = some (.terminal s.lookahead.kind)

instance (s : Session) : Decidable (Matching s) :=
  inferInstanceAs (Decidable (_ ∧ _))

/-- How many moves can be made before the next token is matched. A rule that begins with the next
token has spent what the token pays. -/
def potential (s : Session) : Nat :=
  totalCost s.control + if Matching s then 0 else fare

/-- A rule costs no more than the symbol it replaces, unless it begins with the next token. -/
theorem totalCost_rule : ∀ n ∈ Nonterminal.all, ∀ t ∈ Terminal.all,
    ∀ r ∈ languageTable.rule? n t, totalCost r.rhs < cost (.nonterminal n) +
      if t ≠ .endOfInput ∧ r.rhs.head? = some (.terminal t) then fare else 0 := by
  decide +kernel

theorem potential_of_expansion {s s' : Session} {r : Rule} {rest : List GrammarSymbol}
    (hc : s.control = .nonterminal r.lhs :: rest)
    (hr : languageTable.rule? r.lhs s.lookahead.kind = some r) (hc' : s'.control = r.rhs ++ rest)
    (hl : s'.lookahead = s.lookahead) : potential s' < potential s := by
  have hrule := totalCost_rule _ r.lhs.mem_all _ s.lookahead.kind.mem_all r hr
  have hidle : ¬ Matching s := by simp [Matching, hc]
  have htotal : totalCost s'.control = totalCost r.rhs + totalCost rest := by
    rw [hc', totalCost_append]
  rw [potential, potential, htotal, if_neg hidle, hc, totalCost]
  by_cases hm : Matching s'
  · rw [if_pos hm]
    split_ifs at hrule <;> omega
  · have hhead : ¬ (s.lookahead.kind ≠ .endOfInput ∧
        r.rhs.head? = some (.terminal s.lookahead.kind)) := by
      rintro ⟨hk, hhead⟩
      refine hm ⟨hl ▸ hk, ?_⟩
      rw [hc', hl, List.head?_append, hhead]
      rfl
    rw [if_neg hhead] at hrule
    rw [if_neg hm]
    omega

theorem potential_of_pop {s s' : Session} {x : GrammarSymbol} (hc : s.control = x :: s'.control)
    (hx : cost x = 1) (hidle : ¬ Matching s) : potential s' < potential s := by
  rw [potential, potential, if_neg hidle, hc, totalCost, hx]
  split_ifs <;> omega

/-- A token that is matched has paid for the move and for those up to the next token. -/
theorem potential_of_match {s s' : Session} {t : Terminal}
    (hc : s.control = .terminal t :: s'.control) (hk : s.lookahead.kind = t)
    (ht : t ≠ .endOfInput) : potential s' < potential s + fare := by
  have hm : Matching s := ⟨hk ▸ ht, by rw [hc, hk]; rfl⟩
  have hcost : cost (.terminal t) = 1 := rfl
  rw [potential, potential, if_pos hm, hc, totalCost, hcost]
  split_ifs <;> omega

def tokenCount (xs : List Lexeme) : Nat :=
  xs.countP fun x => x.kind ≠ .endOfInput

theorem tokenCount_cons {x : Lexeme} (hx : x.kind ≠ .endOfInput) (xs : List Lexeme) :
    tokenCount (x :: xs) = tokenCount xs + 1 :=
  List.countP_cons_of_pos (by simpa using hx)

theorem tokenCount_le {x : Lexeme} {l : Lexer} {ys : List Lexeme} (h : Lexer.Follows x l ys)
    (hl : l.mode = .start) : tokenCount ys ≤ l.upcoming.length := by
  induction h with
  | ended | failed => exact Nat.zero_le _
  | @more x l y l' ys hx hn hf ih =>
    obtain ⟨hl', hy | ⟨-, hlt⟩⟩ := Lexer.next_ok hl hn
    · cases hf with
      | ended => simp [tokenCount, hy]
      | failed hy' => exact absurd hy hy'
      | more hy' => exact absurd hy hy'
    · have hys := ih hl'
      have hcons : tokenCount (y :: ys) ≤ tokenCount ys + 1 := by
        simp only [tokenCount, List.countP_cons]
        split_ifs <;> omega
      omega

/-- A move that takes no token is paid for by the symbol on top of the stack. -/
theorem potential_of_idle {s s' : Session} (h : Pushes s s') (ht : s.taken = []) :
    potential s' < potential s := by
  cases h with
  | terminal hx _ _ he => simp [Session.taken, hx, he] at ht
  | finish hx hk hrest => exact potential_of_pop (hrest ▸ hx) rfl fun hm => hm.1 hk
  | nonterminal hx hr hrest _ hlookahead => exact potential_of_expansion hx hr hrest hlookahead
  | action hx hrest => exact potential_of_pop (hrest ▸ hx) rfl (by simp [Matching, hx])

theorem potential_of_taken {s s' : Session} (h : Pushes s s') (ht : s.taken ≠ []) :
    potential s' < potential s + fare := by
  cases h with
  | terminal hx hk hrest he => exact potential_of_match (hrest ▸ hx) hk he
  | finish hx | nonterminal hx | action hx => simp [Session.taken, hx] at ht

/-- The tokens that a session has to match and the symbols on its control stack pay for each of its
moves. -/
theorem potential_of_pushes {s s' : Session} (h : Pushes s s') {ys : List Lexeme}
    (hf : Lexer.Follows s.lookahead s.lexer ys) :
    ∃ ys', Lexer.Follows s'.lookahead s'.lexer ys' ∧
      potential s' + fare * tokenCount (s'.lookahead :: ys') <
        potential s + fare * tokenCount (s.lookahead :: ys) := by
  rcases taken_of_pushes h with ⟨htaken, hlookahead, hlexer⟩ | ⟨htaken, hkind, hn⟩
  · have hlower := potential_of_idle h htaken
    rw [hlexer, hlookahead]
    exact ⟨ys, hf, Nat.add_lt_add_right hlower _⟩
  · have hlower := potential_of_taken h (by simp [htaken])
    cases hf with
    | ended hend => exact absurd hend hkind
    | failed _ hn' => simp [hn] at hn'
    | @more _ _ y l' ys _ hn' hf' =>
      obtain ⟨rfl, rfl⟩ : _ ∧ _ := by simpa [hn] using hn'
      refine ⟨ys, hf', ?_⟩
      rw [tokenCount_cons hkind, Nat.mul_add]
      omega

theorem potential_of_reaches {n : Nat} {s s' : Session} (h : Reaches n s s') {ys : List Lexeme}
    (hf : Lexer.Follows s.lookahead s.lexer ys) :
    ∃ ys', Lexer.Follows s'.lookahead s'.lexer ys' ∧
      n + (potential s' + fare * tokenCount (s'.lookahead :: ys')) ≤
        potential s + fare * tokenCount (s.lookahead :: ys) := by
  induction h generalizing ys with
  | here => exact ⟨ys, hf, by omega⟩
  | move hne hm _ ih =>
    obtain ⟨ys₁, hf₁, hlower⟩ := potential_of_pushes (pushes_of_move hne hm) hf
    obtain ⟨ys', hf', hle⟩ := ih hf₁
    exact ⟨ys', hf', by omega⟩

theorem length_of_reaches {n : Nat} {s s' : Session} (h : Reaches n s s') {ys : List Lexeme}
    (hf : Lexer.Follows s.lookahead s.lexer ys) (hs : ¬ Matching s) :
    n + totalCost s'.control ≤ totalCost s.control + fare * tokenCount (s.lookahead :: ys) := by
  obtain ⟨ys', -, hle⟩ := potential_of_reaches h hf
  rw [potential, potential, if_neg hs] at hle
  by_cases hm : Matching s'
  · -- The next token has not been counted as matched.
    rw [if_pos hm, tokenCount_cons hm.1, Nat.mul_add] at hle
    omega
  · rw [if_neg hm] at hle
    omega

/-- The budget outlasts every run from the beginning. -/
theorem lt_moveBudget {n : Nat} {s s' : Session} (h : Reaches n s s')
    (hc : s.control = initialControl) (hmode : s.lexer.mode = .start) :
    n + totalCost s'.control < moveBudget s.lexer.upcoming.length := by
  obtain ⟨ys, hf⟩ := Lexer.exists_follows s.lookahead hmode
  have hidle : ¬ Matching s := by simp [Matching, hc, initialControl]
  have hlength := length_of_reaches h hf hidle
  have hinitial : totalCost initialControl = 6 := by decide
  have htokens := tokenCount_le hf hmode
  have hfirst : tokenCount (s.lookahead :: ys) ≤ tokenCount ys + 1 := by
    simp only [tokenCount, List.countP_cons]
    split_ifs <;> omega
  rw [hc, hinitial, fare] at hlength
  rw [moveBudget]
  omega

/-- A run fails at one of its moves, or it uses up its budget. -/
theorem exists_failing_move {fuel : Nat} {s s' : Session} {d : Diagnostic}
    (h : run fuel s = .error d s') :
    ∃ n s₁, Reaches n s s₁ ∧ s₁.control ≠ [] ∧ (move s₁ = .error d s' ∨ n = fuel) := by
  induction fuel generalizing s with
  | zero =>
    by_cases hc : s.control = []
    · rw [run_of_control_nil hc] at h
      cases h
    · exact ⟨0, s, .here, hc, .inr rfl⟩
  | succ fuel ih =>
    by_cases hc : s.control = []
    · rw [run_of_control_nil hc] at h
      cases h
    · rw [run_succ hc] at h
      rcases exists_of_bind_error h with hm | ⟨_, s₂, hm, hr⟩
      · exact ⟨0, s, .here, hc, .inl hm⟩
      · obtain ⟨n, s₁, hn, hc₁, hfail⟩ := ih hr
        exact ⟨n + 1, s₁, .move hc hm hn, hc₁, hfail.imp_right (congrArg (· + 1))⟩

/-- From the beginning, a run fails at one of its moves. -/
theorem exists_failing_move_of_budget {s s' : Session} {d : Diagnostic}
    (hc : s.control = initialControl) (hmode : s.lexer.mode = .start)
    (h : run (moveBudget s.lexer.upcoming.length) s = .error d s') :
    ∃ n s₁, Reaches n s s₁ ∧ s₁.control ≠ [] ∧ move s₁ = .error d s' := by
  obtain ⟨n, s₁, hn, hc₁, hm | rfl⟩ := exists_failing_move h
  · exact ⟨n, s₁, hn, hc₁, hm⟩
  · have hlt := lt_moveBudget hn hc hmode
    omega

end Compiling

end OnePass
