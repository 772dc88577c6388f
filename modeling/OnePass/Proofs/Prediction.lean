import OnePass.Proofs.Analysis
import OnePass.Proofs.Pushdown

/-! # Predicting rules

With sets that are closed under the rules the table of the language can be compared: it chooses the
rule that a derivation uses, whatever comes next. Two of its cells have two rules with a
claim, since an `else` may belong to an outer conditional and a factor to the product around a
signed term. There a derivation by the other rule can be turned into one by the rule chosen.
-/
namespace OnePass

/-! ## The sets of the language -/

def languageSets : Grammar.Sets :=
  let statements :=
    [Terminal.variableWord, .printWord, .ifWord, .whileWord, .beginWord, .identifier]
  let operands := [Terminal.identifier, .number, .additiveOp, .leftParen]
  let afterStatement := [Terminal.elseWord, .endWord, .separator, .endOfInput]
  let afterExpression :=
    Terminal.thenWord :: .doWord :: .relationalOp :: .rightParen :: afterStatement
  let afterFactor := .multiplicativeOp :: .additiveOp :: afterExpression
  let pairs (rows : List (Nonterminal × List Terminal)) :=
    rows.flatMap fun (n, ts) => ts.map fun t => (n, t)
  { nullable :=
      [.program, .statement, .elseClause, .statementList, .separatedList, .addition,
        .multiplication]
    first := pairs
      [(.program, .separator :: statements), (.statement, statements), (.elseClause, [.elseWord]),
        (.statementList, .separator :: statements), (.separatedList, [.separator]),
        (.printExpression, .stringConst :: operands), (.booleanExpression, operands),
        (.expression, operands), (.addition, [.additiveOp]), (.term, operands),
        (.multiplication, [.multiplicativeOp]), (.factor, operands), (.signedTerm, [.additiveOp])]
    follow := pairs
      [(.program, [.endOfInput]), (.statement, afterStatement), (.elseClause, afterStatement),
        (.statementList, [.endWord]), (.separatedList, [.endWord, .endOfInput]),
        (.printExpression, afterStatement), (.booleanExpression, [.thenWord, .doWord]),
        (.expression, afterExpression), (.addition, afterExpression), (.term, afterFactor),
        (.multiplication, afterFactor), (.factor, afterFactor), (.signedTerm, afterFactor)] }

theorem closed_languageSets : language.Closed languageSets where
  nullable := by decide +kernel
  first := by decide +kernel
  follow := by decide +kernel
  start := by decide +kernel

/-- A terminal that begins one rule of the language only, although its nonterminal can vanish before
it too: a rule that dangles. -/
structure Dangles (n : Nonterminal) (t : Terminal) (body : List GrammarSymbol) : Prop where
  chosen : languageTable.rule? n t = some ⟨n, .terminal t :: body⟩
  vanishes : ⟨n, []⟩ ∈ languageRules
  only : ∀ r ∈ languageRules, .terminal t ∈ r.rhs → r = ⟨n, .terminal t :: body⟩
  once : .terminal t ∉ body

theorem dangles_else : Dangles .elseClause .elseWord [.nonterminal .statement] where
  chosen := by decide +kernel
  vanishes := by decide +kernel
  only := by decide +kernel
  once := by decide +kernel

theorem dangles_product : Dangles .multiplication .multiplicativeOp
    [.action .pushOperator, .nonterminal .factor, .action .compute,
      .nonterminal .multiplication] where
  chosen := by decide +kernel
  vanishes := by decide +kernel
  only := by decide +kernel
  once := by decide +kernel

theorem rule?_of_beginsWith : ∀ r ∈ languageRules, ∀ t ∈ Terminal.all,
    languageSets.beginsWith t r.rhs = true → languageTable.rule? r.lhs t = some r := by
  decide +kernel

theorem rule?_of_follow : ∀ r ∈ languageRules, languageSets.isNullable r.rhs = true →
    ∀ t ∈ Terminal.all, (r.lhs, t) ∈ languageSets.follow →
      languageTable.rule? r.lhs t = some r ∨
        (r.lhs, t) ∈ [(.elseClause, .elseWord), (.multiplication, .multiplicativeOp)] := by
  decide +kernel

theorem exists_dangles {n : Nonterminal} {t : Terminal}
    (h : (n, t) ∈ [(.elseClause, .elseWord), (.multiplication, .multiplicativeOp)]) :
    ∃ body, Dangles n t body := by
  simp only [List.mem_cons, Prod.mk.injEq, List.not_mem_nil, or_false] at h
  rcases h with ⟨rfl, rfl⟩ | ⟨rfl, rfl⟩
  · exact ⟨_, dangles_else⟩
  · exact ⟨_, dangles_product⟩

/-- Where a dangling rule could be applied further down, it can be applied here: the nonterminal
further down vanishes then, and what it derived is derived here. -/
theorem Dangles.yields {n : Nonterminal} {t : Terminal} {body symbols : List GrammarSymbol}
    {w : List Terminal} (h : Dangles n t body) (hs : .terminal t ∉ symbols)
    (hy : language.Yields symbols (t :: w)) : language.Yields (body ++ symbols) w := by
  -- The derivation is followed down to the nonterminal that gives the terminal.
  generalize hw : t :: w = w' at hy
  induction hy with
  | done => cases hw
  | terminal =>
    cases hw
    exact absurd List.mem_cons_self hs
  | @nonterminal r rest w' hr hy ih =>
    subst hw
    by_cases hm : .terminal t ∈ r.rhs
    · obtain rfl := h.only r hr hm
      obtain ⟨u, v, rfl, hu, hv⟩ : ∃ u v, w = u ++ v ∧ language.Yields body u ∧
          language.Yields rest v := by
        cases hy with
        | terminal hy => exact hy.split
      have hvanished : language.Yields (.nonterminal n :: rest) v :=
        .nonterminal (r := ⟨n, []⟩) h.vanishes hv
      exact hu.append hvanished
    · have hnot : .terminal t ∉ r.rhs ++ rest := by
        intro hmem
        rcases List.mem_append.mp hmem with hmem | hmem
        · exact hm hmem
        · exact hs (.tail _ hmem)
      obtain ⟨u, v, rfl, hu, hv⟩ := (ih hnot rfl).split
      exact hu.append (.nonterminal hr hv)
  | action hy ih =>
    obtain ⟨u, v, rfl, hu, hv⟩ := (ih (fun hm => hs (.tail _ hm)) hw).split
    exact hu.append (.action hv)

/-- No terminal that a dangling rule begins with waits below the top of the stack. -/
def Unclaimed (symbols : List GrammarSymbol) : Prop :=
  ∀ n t body, Dangles n t body → .terminal t ∉ symbols

theorem Unclaimed.tail {symbols : List GrammarSymbol} (h : Unclaimed symbols) :
    Unclaimed symbols.tail := by
  intro n t body hd hm
  exact h n t body hd (List.mem_of_mem_tail hm)

theorem Unclaimed.rule {r : Rule} (hr : r ∈ languageRules) {rest : List GrammarSymbol}
    (h : Unclaimed rest) : Unclaimed (r.rhs ++ rest).tail := by
  intro n t body hd hm
  have hrest := h n t body hd
  cases hrhs : r.rhs with
  | nil =>
    rw [hrhs] at hm
    exact hrest (List.mem_of_mem_tail hm)
  | cons x xs =>
    rw [hrhs] at hm
    rcases List.mem_append.mp hm with hm | hm
    · have hmem : .terminal t ∈ r.rhs := hrhs ▸ .tail _ hm
      rw [hd.only r hr hmem] at hrhs
      obtain ⟨-, rfl⟩ := List.cons.inj hrhs
      exact hd.once hm
    · exact hrest hm

/-- The table chooses a rule with which the derivation can go on. -/
theorem exists_rule_of_yields {n : Nonterminal} {t : Terminal} {rest : List GrammarSymbol}
    {w : List Terminal} (hp : Grammar.Proper languageSets (.nonterminal n :: rest))
    (hu : Unclaimed rest) (hy : language.Yields (.nonterminal n :: rest) (t :: w)) :
    ∃ r, languageTable.rule? n t = some r ∧ language.Yields (r.rhs ++ rest) (t :: w) := by
  cases hy with
  | @nonterminal r _ _ hr hy =>
    obtain ⟨u, v, huv, hrhs, hrest⟩ := hy.split
    cases u with
    | cons a u =>
      obtain ⟨rfl, rfl⟩ := List.cons.inj huv
      have hbegins := closed_languageSets.beginsWith ⟨_, hrhs.derives⟩
      exact ⟨r, rule?_of_beginsWith r hr _ (Terminal.mem_all _) hbegins, hy⟩
    | nil =>
      obtain rfl : t :: w = v := huv
      have hfollow := hp.follow (closed_languageSets.beginsWith ⟨_, hrest.derives⟩)
      rcases rule?_of_follow r hr (closed_languageSets.isNullable hrhs.derives) t t.mem_all hfollow with
        hchosen | hcell
      · exact ⟨r, hchosen, hy⟩
      · -- The rule vanishes here, but the table prefers the one that begins with the terminal.
        obtain ⟨body, hd⟩ := exists_dangles hcell
        exact ⟨_, hd.chosen, .terminal (hd.yields (hu _ t body hd) hrest)⟩

/-! ## Every stack yields something -/

/-- How deep the flattest parse trees of a nonterminal are. -/
def Nonterminal.depth : Nonterminal → Nat
  | .program | .statementList | .term => 1
  | .expression | .signedTerm => 2
  | .booleanExpression => 3
  | _ => 0

theorem exists_flat_rule : ∀ n ∈ Nonterminal.all, ∃ r ∈ languageRules, r.lhs = n ∧
    ∀ m ∈ Nonterminal.all, .nonterminal m ∈ r.rhs → m.depth < n.depth := by
  decide +kernel

theorem exists_yields_of_parts {symbols : List GrammarSymbol}
    (h : ∀ n, .nonterminal n ∈ symbols → ∃ w, language.Yields [.nonterminal n] w) :
    ∃ w, language.Yields symbols w := by
  induction symbols with
  | nil => exact ⟨[], .done⟩
  | cons x rest ih =>
    obtain ⟨w, hw⟩ := ih fun n hn => h n (.tail _ hn)
    cases x with
    | terminal t => exact ⟨t :: w, .terminal hw⟩
    | action a => exact ⟨w, .action hw⟩
    | nonterminal n =>
      obtain ⟨u, hu⟩ := h n List.mem_cons_self
      exact ⟨u ++ w, hu.append hw⟩

theorem exists_yields_nonterminal (n : Nonterminal) :
    ∃ w, language.Yields [.nonterminal n] w := by
  induction hd : n.depth using Nat.strongRecOn generalizing n with
  | ind depth ih =>
    obtain ⟨r, hr, rfl, hflat⟩ := exists_flat_rule n n.mem_all
    obtain ⟨w, hw⟩ := exists_yields_of_parts fun m hm =>
      ih m.depth (hd ▸ hflat m m.mem_all hm) m rfl
    refine ⟨w, .nonterminal hr ?_⟩
    rwa [List.append_nil]

theorem exists_yields (symbols : List GrammarSymbol) : ∃ w, language.Yields symbols w :=
  exists_yields_of_parts fun n _ => exists_yields_nonterminal n

end OnePass
