import OnePass.Proofs.Reached

/-! # The discipline of the stacks

Tokens push what they stand for when they are matched, and actions placed elsewhere pop it. What an
action demands of the stacks is known before it comes to the top of the control stack: each symbol
of the control stack demands of the stacks what it takes from them and that, with what it leaves on
them, the symbols below it are served. A rule demands no more than the nonterminal it replaces, so
the demands of the initial control stack, which are met, are met ever after.
-/
namespace OnePass

section AnyDistance

variable {distance : String → String → Nat} [NameDistance distance]

/-! ## Demands -/

structure Stacks where
  operands : List Value := []
  operators : List Operator := []
  labels : List Nat := []

abbrev Demand := Stacks → Prop

def drained : Demand := fun σ => σ.operands = [] ∧ σ.operators = [] ∧ σ.labels = []

/-- What a terminal demands if `k` is demanded behind it. It pushes what its token stands for. -/
def Terminal.demand (t : Terminal) (k : Demand) (σ : Stacks) : Prop :=
  match t with
  | .identifier => ∀ x, k { σ with operands := .var x :: σ.operands }
  | .number => ∀ digits, k { σ with operands := .number digits :: σ.operands }
  | .stringConst => ∀ literal, k { σ with operands := .text literal :: σ.operands }
  | .additiveOp =>
    k { σ with operators := .arithmetic .add :: σ.operators } ∧
      k { σ with operators := .arithmetic .subtract :: σ.operators }
  | .multiplicativeOp =>
    k { σ with operators := .arithmetic .multiply :: σ.operators } ∧
      k { σ with operators := .arithmetic .divide :: σ.operators }
  | .relationalOp => ∀ op, k { σ with operators := .comparison op :: σ.operators }
  | .assignOp => k { σ with operators := .assign :: σ.operators }
  | _ => k σ

def Action.demand (a : Action) (k : Demand) (σ : Stacks) : Prop :=
  match a with
  | .epilogue => drained σ ∧ k σ
  | .declare => ∃ x rest, σ.operands = .var x :: rest ∧ k { σ with operands := rest }
  | .store => ∃ value x rest operators, σ.operands = value :: .var x :: rest ∧
    σ.operators = .assign :: operators ∧ k { σ with operands := rest, operators }
  | .compute => ∃ right left rest, σ.operands = right :: left :: rest ∧
    ((∃ op operators, σ.operators = .arithmetic op :: operators ∧
        k { σ with operands := .temporary :: rest, operators }) ∨
      ∃ op operators, σ.operators = .comparison op :: operators ∧ σ.labels ≠ [] ∧
        k { σ with operands := rest, operators })
  | .sign => ∃ value rest operators, σ.operands = value :: rest ∧
    (σ.operators = .arithmetic .add :: operators ∧ k { σ with operators } ∨
      σ.operators = .arithmetic .subtract :: operators ∧
        k { σ with operands := .temporary :: rest, operators })
  | .callPrint => ∃ value rest, σ.operands = value :: rest ∧ k { σ with operands := rest }
  | .openLabels => ∀ n, k { σ with labels := n :: σ.labels }
  | .closeLabels => ∃ n labels, σ.labels = n :: labels ∧ k { σ with labels }
  | .placeBegin | .placeEnd | .jumpBegin | .jumpEnd => σ.operands = [] ∧ σ.labels ≠ [] ∧ k σ
  | .clearRegisters => σ.operands = [] ∧ k σ
  | .prologue | .integerFormat | .stringFormat | .pushOperator => k σ

/-- What a nonterminal demands if `k` is demanded behind it. A statement finds no values and
operators and leaves none; an expression leaves one value more; what continues an expression finds
the value of the part before it; a condition is inside a construct. -/
def Nonterminal.demand (n : Nonterminal) (k : Demand) (σ : Stacks) : Prop :=
  match n with
  | .program | .statement | .elseClause | .statementList | .separatedList =>
    σ.operands = [] ∧ σ.operators = [] ∧ k σ
  | .printExpression | .expression | .term | .factor | .signedTerm =>
    ∀ value, k { σ with operands := value :: σ.operands }
  | .addition | .multiplication =>
    ∃ value rest, σ.operands = value :: rest ∧ ∀ value', k { σ with operands := value' :: rest }
  | .booleanExpression => σ.labels ≠ [] ∧ k σ

def GrammarSymbol.demand : GrammarSymbol → Demand → Demand
  | .terminal t => t.demand
  | .nonterminal n => n.demand
  | .action a => a.demand

def demandAll : List GrammarSymbol → Demand → Demand
  | [], k => k
  | x :: rest, k => x.demand (demandAll rest k)

theorem demandAll_append (xs ys : List GrammarSymbol) (k : Demand) :
    demandAll (xs ++ ys) k = demandAll xs (demandAll ys k) := by
  induction xs with
  | nil => rfl
  | cons x xs ih => simp only [List.cons_append, demandAll, ih]

/-- A rule demands no more than the nonterminal it replaces. -/
theorem demand_of_rule {n : Nonterminal} {rhs : List GrammarSymbol}
    (hr : ⟨n, rhs⟩ ∈ languageRules) {k : Demand} {σ : Stacks} (h : n.demand k σ) :
    demandAll rhs k σ := by
  obtain ⟨operands, operators, labels⟩ := σ
  simp only [languageRules, List.mem_cons, Rule.mk.injEq, List.not_mem_nil, or_false] at hr
  cases n with simp only [reduceCtorEq, false_and, true_and, false_or, or_false] at hr
  | program | statementList =>
    obtain ⟨rfl, rfl, hk⟩ := h
    subst hr
    exact ⟨rfl, rfl, rfl, rfl, hk⟩
  | separatedList =>
    obtain ⟨rfl, rfl, hk⟩ := h
    rcases hr with rfl | rfl
    · exact ⟨rfl, rfl, rfl, rfl, hk⟩
    · exact hk
  | elseClause =>
    obtain ⟨rfl, rfl, hk⟩ := h
    rcases hr with rfl | rfl
    · exact ⟨rfl, rfl, hk⟩
    · exact hk
  | statement =>
    obtain ⟨rfl, rfl, hk⟩ := h
    rcases hr with rfl | rfl | rfl | rfl | rfl | rfl | rfl
    · intro x value
      exact ⟨value, x, [], [], rfl, rfl, hk⟩
    · -- The construct stays open up to its last action but one.
      intro construct
      have hopen : construct :: labels ≠ [] := List.cons_ne_nil _ _
      exact ⟨hopen, rfl, rfl, rfl, hopen, rfl, hopen, rfl, rfl, rfl, hopen, construct, labels, rfl,
        rfl, hk⟩
    · intro construct
      have hopen : construct :: labels ≠ [] := List.cons_ne_nil _ _
      exact ⟨rfl, hopen, rfl, hopen, rfl, rfl, rfl, hopen, rfl, hopen, construct, labels, rfl, rfl, hk⟩
    · intro value
      exact ⟨value, [], rfl, hk⟩
    · exact ⟨rfl, rfl, hk⟩
    · intro x
      exact ⟨x, [], rfl, hk⟩
    · exact hk
  | printExpression =>
    rcases hr with rfl | rfl
    · exact h
    · intro literal
      exact h (.text literal)
  | booleanExpression =>
    obtain ⟨hopen, hk⟩ := h
    subst hr
    intro left op right
    exact ⟨right, left, operands, rfl, .inr ⟨op, operators, rfl, hopen, hk⟩⟩
  | expression | term =>
    subst hr
    intro value
    exact ⟨value, operands, rfl, h⟩
  | addition | multiplication =>
    obtain ⟨left, rest, rfl, hk⟩ := h
    rcases hr with rfl | rfl
    · refine ⟨fun right => ?_, fun right => ?_⟩
      all_goals exact ⟨right, left, rest, rfl, .inl ⟨_, operators, rfl, .temporary, rest, rfl, hk⟩⟩
    · exact hk left
  | factor =>
    rcases hr with rfl | rfl | rfl | rfl
    · intro x
      exact h (.var x)
    · intro digits
      exact h (.number digits)
    · exact h
    · exact h
  | signedTerm =>
    subst hr
    refine ⟨fun value => ?_, fun value => ?_⟩
    · exact ⟨value, operands, operators, rfl, .inl ⟨rfl, h value⟩⟩
    · exact ⟨value, operands, operators, rfl, .inr ⟨rfl, h .temporary⟩⟩

/-! ## Snapshots whose demands are met -/

namespace Snapshot

variable {v : Snapshot} {k : Demand}

def waiting (v : Snapshot) : Stacks :=
  ⟨v.operands, v.operators, v.labels⟩

/-- The move ends as wanted or refuses the program; it misuses no stack. -/
def Passes (o : Except Fault Snapshot) (wanted : Snapshot → Prop) : Prop :=
  match o with
  | .ok v => wanted v
  | .error fault => fault = .rejected

theorem Passes.mono {o : Except Fault Snapshot} {p q : Snapshot → Prop} (h : Passes o p)
    (hpq : ∀ v, p v → q v) : Passes o q := by
  cases o with
  | ok v => exact hpq v h
  | error fault => exact h

theorem passes_accept {o : Option Snapshot} {p : Snapshot → Prop} (h : ∀ v, o = some v → p v) :
    Passes (accept o) p := by
  cases o with
  | none => exact rfl
  | some v => exact h v rfl

structure Serves (v : Snapshot) (k : Demand) (v' : Snapshot) : Prop where
  served : k v'.waiting
  tokens : v'.tokens = v.tokens
  control : v'.control = v.control

theorem passes_declare (h : Action.declare.demand k v.waiting) : Passes v.declare (v.Serves k) := by
  obtain ⟨x, rest, hv, hk⟩ := h
  replace hv : v.operands = .var x :: rest := hv
  rw [Snapshot.declare, hv]
  apply passes_accept
  intro v' hv'
  split_ifs at hv'
  cases hv'
  exact ⟨hk, rfl, rfl⟩

theorem passes_store (h : Action.store.demand k v.waiting) : Passes v.store (v.Serves k) := by
  obtain ⟨value, x, rest, operators, hv, ho, hk⟩ := h
  replace hv : v.operands = value :: .var x :: rest := hv
  replace ho : v.operators = .assign :: operators := ho
  rw [Snapshot.store, hv, ho]
  apply passes_accept
  intro v' hv'
  obtain ⟨slot, -, hv'⟩ := Option.bind_eq_some_iff.mp hv'
  obtain ⟨⟨load, r⟩, -, hv'⟩ := Option.bind_eq_some_iff.mp hv'
  cases hv'
  exact ⟨hk, rfl, rfl⟩

theorem passes_compute (h : Action.compute.demand k v.waiting) :
    Passes v.compute (v.Serves k) := by
  obtain ⟨right, left, rest, hv, ⟨op, operators, ho, hk⟩ | ⟨op, operators, ho, hl, hk⟩⟩ := h
  all_goals
    replace hv : v.operands = right :: left :: rest := hv
  · replace ho : v.operators = .arithmetic op :: operators := ho
    rw [Snapshot.compute, hv, ho]
    apply passes_accept
    intro v' hv'
    obtain ⟨⟨loads, a, b⟩, -, hv'⟩ := Option.bind_eq_some_iff.mp hv'
    obtain ⟨target, -, hv'⟩ := Option.bind_eq_some_iff.mp hv'
    cases hv'
    exact ⟨hk, rfl, rfl⟩
  · replace ho : v.operators = .comparison op :: operators := ho
    obtain ⟨construct, labels, hl⟩ := List.exists_cons_of_ne_nil hl
    rw [hl] at hk
    replace hl : v.labels = construct :: labels := hl
    rw [Snapshot.compute, hv, ho, hl]
    apply passes_accept
    intro v' hv'
    obtain ⟨⟨loads, a, b⟩, -, hv'⟩ := Option.bind_eq_some_iff.mp hv'
    cases hv'
    exact ⟨hk, rfl, rfl⟩

theorem passes_sign (h : Action.sign.demand k v.waiting) : Passes v.sign (v.Serves k) := by
  obtain ⟨value, rest, operators, hv, ⟨ho, hk⟩ | ⟨ho, hk⟩⟩ := h
  · rw [hv] at hk
    replace hv : v.operands = value :: rest := hv
    replace ho : v.operators = .arithmetic .add :: operators := ho
    rw [Snapshot.sign, hv, ho]
    exact ⟨hk, rfl, rfl⟩
  · replace hv : v.operands = value :: rest := hv
    replace ho : v.operators = .arithmetic .subtract :: operators := ho
    rw [Snapshot.sign, hv, ho]
    apply passes_accept
    intro v' hv'
    obtain ⟨⟨load, source⟩, -, hv'⟩ := Option.bind_eq_some_iff.mp hv'
    obtain ⟨target, -, hv'⟩ := Option.bind_eq_some_iff.mp hv'
    cases hv'
    exact ⟨hk, rfl, rfl⟩

theorem passes_callPrint (h : Action.callPrint.demand k v.waiting) :
    Passes v.callPrint (v.Serves k) := by
  obtain ⟨value, rest, hv, hk⟩ := h
  replace hv : v.operands = value :: rest := hv
  rw [Snapshot.callPrint, hv]
  apply passes_accept
  intro v' hv'
  obtain ⟨⟨load, r⟩, -, hv'⟩ := Option.bind_eq_some_iff.mp hv'
  cases hv'
  exact ⟨hk, rfl, rfl⟩

theorem passes_emitFor {line : Nat → Line} (hl : v.waiting.labels ≠ []) (hk : k v.waiting) :
    Passes (v.emitFor line) (v.Serves k) := by
  obtain ⟨construct, labels, hl⟩ := List.exists_cons_of_ne_nil hl
  replace hl : v.labels = construct :: labels := hl
  rw [Snapshot.emitFor, hl]
  exact ⟨hk, rfl, rfl⟩

/-- An action whose demand is met does not misuse the stacks. The lines before the program have to
come before its string constants. -/
theorem passes_perform {a : Action} (h : a.demand k v.waiting)
    (hl : a = .prologue → v.literals = []) : Passes (v.perform a) (v.Serves k) := by
  cases a with
  | prologue =>
    rw [Snapshot.perform, if_pos (hl rfl)]
    exact ⟨h, rfl, rfl⟩
  | epilogue =>
    obtain ⟨⟨hoperands, hoperators, hlabels⟩, hk⟩ := h
    rw [Snapshot.perform, if_pos ⟨hoperands, hoperators, hlabels⟩]
    exact ⟨hk, rfl, rfl⟩
  | declare => exact passes_declare h
  | store => exact passes_store h
  | compute => exact passes_compute h
  | sign => exact passes_sign h
  | callPrint => exact passes_callPrint h
  | integerFormat | stringFormat | pushOperator => exact ⟨h, rfl, rfl⟩
  | openLabels => exact ⟨h _, rfl, rfl⟩
  | closeLabels =>
    obtain ⟨n, labels, hlabels, hk⟩ := h
    replace hlabels : v.labels = n :: labels := hlabels
    rw [Snapshot.perform, hlabels]
    exact ⟨hk, rfl, rfl⟩
  | placeBegin | placeEnd | jumpBegin | jumpEnd => exact passes_emitFor h.2.1 h.2.2
  | clearRegisters =>
    obtain ⟨hoperands, hk⟩ := h
    replace hoperands : v.operands = [] := hoperands
    rw [Snapshot.perform, if_pos (by rw [hoperands]; rfl)]
    exact ⟨hk, rfl, rfl⟩

theorem exists_shift {t : Token} (ht : t.kind = .endOfInput ∨ t.Spelled)
    (h : t.kind.demand k v.waiting) : ∃ v', v.shift t = .ok v' ∧ v.Serves k v' := by
  obtain ⟨kind, text⟩ := t
  cases kind with
  | identifier | number | stringConst => exact ⟨_, rfl, h text, rfl, rfl⟩
  | additiveOp =>
    obtain ⟨op, hop⟩ := (ht.resolve_left (by simp)).additive
    rw [hop]
    cases op with
    | plus => exact ⟨_, rfl, h.1, rfl, rfl⟩
    | minus => exact ⟨_, rfl, h.2, rfl, rfl⟩
  | multiplicativeOp =>
    obtain ⟨op, hop⟩ := (ht.resolve_left (by simp)).multiplicative
    rw [hop]
    cases op with
    | times => exact ⟨_, rfl, h.1, rfl, rfl⟩
    | dividedBy => exact ⟨_, rfl, h.2, rfl, rfl⟩
  | relationalOp =>
    obtain ⟨op, hop⟩ := (ht.resolve_left (by simp)).relational
    rw [hop, Token.relational, shift, Operator.ofText?_text]
    exact ⟨_, rfl, h op, rfl, rfl⟩
  | assignOp =>
    obtain rfl : text = ":=" := (ht.resolve_left (by simp)).text_eq _ (by decide) (by decide)
    exact ⟨_, rfl, h, rfl, rfl⟩
  | _ => exact ⟨v, rfl, h, rfl, rfl⟩

/-- The end of the input stays; another token makes way for those behind it, if there are any. -/
theorem passes_advance (hne : v.tokens ≠ []) :
    Passes v.advance fun v' => v'.waiting = v.waiting ∧ v'.control = v.control ∧
      v'.tokens ≠ [] ∧ v'.tokens ⊆ v.tokens := by
  obtain ⟨t, rest, ht⟩ := List.exists_cons_of_ne_nil hne
  rw [Snapshot.advance, ht]
  dsimp only
  split_ifs with hk hrest
  · exact ⟨rfl, rfl, hne, ht ▸ List.Subset.refl _⟩
  · exact rfl
  · exact ⟨rfl, rfl, hrest, List.subset_cons_self _ _⟩

/-- The demands of the control stack are met, and the tokens are as the lexer spells them. -/
structure Safe (v : Snapshot) : Prop where
  tokens : v.tokens ≠ []
  spelled : ∀ t ∈ v.tokens, t.kind = .endOfInput ∨ t.Spelled
  demands : demandAll v.control drained v.waiting
  opening : .action .prologue ∈ v.control → v.control = Compiling.initialControl ∧ v.literals = []

theorem Safe.prologue_not_mem {x : GrammarSymbol} {rest : List GrammarSymbol} (h : v.Safe)
    (hc : v.control = x :: rest) : .action .prologue ∉ rest := by
  intro hm
  have hinitial := (h.opening (hc ▸ .tail _ hm)).1
  rw [hc, Compiling.initialControl] at hinitial
  obtain ⟨-, rfl⟩ := List.cons.inj hinitial
  simp at hm

theorem Safe.perform {a : Action} {rest : List GrammarSymbol} (h : v.Safe)
    (hc : v.control = .action a :: rest) :
    Passes (Snapshot.perform { v with control := rest } a) Safe := by
  have hdemand : a.demand (demandAll rest drained) v.waiting := by
    have hall := h.demands
    rwa [hc] at hall
  have hliterals : a = .prologue → v.literals = [] := by
    rintro rfl
    exact (h.opening (hc ▸ List.mem_cons_self)).2
  have hserves : Passes (Snapshot.perform { v with control := rest } a)
      (Serves { v with control := rest } (demandAll rest drained)) :=
    passes_perform hdemand hliterals
  apply hserves.mono
  intro v' hv'
  have htokens : v'.tokens = v.tokens := hv'.tokens
  have hcontrol : v'.control = rest := hv'.control
  exact
    { tokens := htokens ▸ h.tokens
      spelled := htokens ▸ h.spelled
      demands := hcontrol ▸ hv'.served
      opening := fun hm => absurd (hcontrol ▸ hm) (h.prologue_not_mem hc) }

theorem Safe.matchTerminal {t : Terminal} {rest : List GrammarSymbol} (h : v.Safe)
    (hc : v.control = .terminal t :: rest) :
    Passes (Snapshot.matchTerminal { v with control := rest } t) Safe := by
  have hdemand : t.demand (demandAll rest drained) v.waiting := by
    have hall := h.demands
    rwa [hc] at hall
  obtain ⟨u, us, hu⟩ := List.exists_cons_of_ne_nil h.tokens
  rw [Snapshot.matchTerminal]
  simp only [hu]
  split_ifs with hk
  · subst hk
    have hspelled := h.spelled u (hu ▸ List.mem_cons_self)
    obtain ⟨v₁, hshift, hv₁⟩ : ∃ v₁, Snapshot.shift { v with control := rest } u = .ok v₁ ∧
        Serves { v with control := rest } (demandAll rest drained) v₁ :=
      exists_shift hspelled hdemand
    have htokens : v₁.tokens = v.tokens := hv₁.tokens
    have hcontrol : v₁.control = rest := hv₁.control
    rw [← hu, hshift]
    apply (passes_advance (htokens ▸ h.tokens)).mono
    rintro v' ⟨hwaiting, hcontrol', hne, hsub⟩
    rw [hcontrol] at hcontrol'
    rw [htokens] at hsub
    exact
      { tokens := hne
        spelled := fun t ht => h.spelled t (hsub ht)
        demands := by
          rw [hcontrol', hwaiting]
          exact hv₁.served
        opening := fun hm => absurd (hcontrol' ▸ hm) (h.prologue_not_mem hc) }
  · exact rfl

theorem Safe.expand {n : Nonterminal} {rest : List GrammarSymbol} (h : v.Safe)
    (hc : v.control = .nonterminal n :: rest) :
    Passes (Snapshot.expand { v with control := rest } n) Safe := by
  obtain ⟨u, us, hu⟩ := List.exists_cons_of_ne_nil h.tokens
  rw [Snapshot.expand]
  simp only [hu]
  cases hr : languageTable.rule? n u.kind with
  | none => exact rfl
  | some r =>
    obtain ⟨hmem, rfl⟩ := Compiling.mem_of_rule? hr
    have hrules : ∀ r ∈ languageRules, .action .prologue ∉ r.rhs := by decide
    have hdemand : r.lhs.demand (demandAll rest drained) v.waiting := by
      have hall := h.demands
      rwa [hc] at hall
    exact
      { tokens := hu ▸ h.tokens
        spelled := hu ▸ h.spelled
        demands := by
          rw [demandAll_append]
          exact demand_of_rule hmem hdemand
        opening := by
          intro hm
          rcases List.mem_append.mp hm with hm | hm
          · exact absurd hm (hrules r hmem)
          · exact absurd hm (h.prologue_not_mem hc) }

/-- A move whose demands are met misuses no stack, and the demands behind it are met. -/
theorem Safe.step {x : GrammarSymbol} {rest : List GrammarSymbol} (h : v.Safe)
    (hc : v.control = x :: rest) : Passes (Snapshot.step { v with control := rest } x) Safe := by
  cases x with
  | terminal t => exact h.matchTerminal hc
  | nonterminal n => exact h.expand hc
  | action a => exact h.perform hc

end Snapshot

/-! ## Compilations -/

variable {input : Input} {matched : List Lexeme} {s : Session}

theorem safe_initial {tokens : List Token} (hne : tokens ≠ [])
    (ht : ∀ t ∈ tokens, t.kind = .endOfInput ∨ t.Spelled) :
    Snapshot.Safe { tokens, control := Compiling.initialControl } where
  tokens := hne
  spelled := ht
  demands := ⟨rfl, rfl, ⟨rfl, rfl, rfl⟩, rfl, rfl, rfl⟩
  opening _ := ⟨rfl, rfl⟩

/-- A move whose demands are met leads on, or the program is at fault. -/
theorem move_of_safe {v : Snapshot} (hr : Represents s v) (hsafe : v.Safe) (hc : s.control ≠ []) :
    (∃ s' v', Compiling.move s = .ok () s' ∧ Represents s' v' ∧ v'.Safe) ∨
      ∃ d s', Compiling.move s = .error d s' ∧ d.cause.isInternal = false := by
  obtain ⟨x, rest, hx⟩ := List.exists_cons_of_ne_nil hc
  have hv : v.control = x :: rest := hr.control.symm.trans hx
  have hstep := hsafe.step hv
  obtain ⟨-, hmove⟩ := agrees_move hr hv
  cases ho : Snapshot.step { v with control := rest } x with
  | error fault =>
    rw [ho] at hstep
    obtain rfl : fault = .rejected := hstep
    exact .inr (hmove none ho)
  | ok v' =>
    rw [ho] at hstep
    obtain ⟨_, s', hs', hr'⟩ := hmove (some v') ho
    exact .inl ⟨s', v', hs', hr', hstep⟩

/-- Every state of a compilation represents a snapshot whose demands are met. -/
theorem Reached.exists_safe (h : Reached input matched s) : ∃ v, Represents s v ∧ v.Safe := by
  induction h with
  | @start s hs =>
    have hn := (Compiling.start_ok hs).1
    have hmode := Compiling.mode_of_start hs
    obtain ⟨ys, hf⟩ := Lexer.exists_follows s.lookahead hmode
    obtain ⟨s', hs', -, -, hr⟩ := represents_start hn hf
    obtain rfl : s = s' := by
      rw [hs] at hs'
      cases hs'
      rfl
    refine ⟨_, hr, safe_initial (by simp) ?_⟩
    intro t ht
    obtain ⟨y, hy, rfl⟩ := List.mem_map.mp ht
    rcases List.mem_cons.mp hy with rfl | hy
    · exact (Lexer.next_ok rfl hn).2.imp_right And.left
    · exact hf.spelled hmode y hy
  | move _ hc hm ih =>
    obtain ⟨v, hr, hsafe⟩ := ih
    rcases move_of_safe hr hsafe hc with ⟨s₁, v', he, hr', hsafe'⟩ | ⟨d, s₁, he, -⟩
    · rw [he] at hm
      cases hm
      exact ⟨v', hr', hsafe'⟩
    · rw [he] at hm
      cases hm

/-- A move of a compilation does not fail because a stack was used out of order. -/
theorem Reached.not_internal_of_move {s' : Session} {d : Diagnostic}
    (h : Reached input matched s) (hc : s.control ≠ []) (hm : Compiling.move s = .error d s') :
    d.cause.isInternal = false := by
  obtain ⟨v, hr, hsafe⟩ := h.exists_safe
  rcases move_of_safe hr hsafe hc with ⟨s₁, v', he, -⟩ | ⟨d', s₁, he, hd⟩
  · rw [he] at hm
    cases hm
  · rw [he] at hm
    cases hm
    exact hd

/-! ## What actions find -/

/-- The stacks hold what the action takes from them, and at the end they are empty. -/
def Session.Supplies (s : Session) : Action → Prop
  | .declare | .callPrint => 1 ≤ s.operands.length
  | .store => 2 ≤ s.operands.length ∧ s.operators.head? = some .assign
  | .compute => 2 ≤ s.operands.length ∧
    ((∃ op, s.operators.head? = some (.arithmetic op)) ∨
      (∃ op, s.operators.head? = some (.comparison op)) ∧ s.workspace.emitter.labels ≠ [])
  | .sign => 1 ≤ s.operands.length ∧ (s.operators.head? = some (.arithmetic .add) ∨
    s.operators.head? = some (.arithmetic .subtract))
  | .closeLabels | .placeBegin | .placeEnd | .jumpBegin | .jumpEnd =>
    s.workspace.emitter.labels ≠ []
  | .epilogue => s.operands = [] ∧ s.operators = [] ∧ s.workspace.emitter.labels = []
  | .prologue | .integerFormat | .stringFormat | .openLabels | .clearRegisters
  | .pushOperator => True

theorem Represents.length_operands {v : Snapshot} (h : Represents s v) :
    s.operands.length = v.operands.length := by
  obtain ⟨live, bank, hw, -⟩ := h
  have hsymbols := congrArg List.length hw.symbols
  have hvalues := congrArg List.length hw.values
  simp only [List.length_map] at hsymbols hvalues
  omega

theorem Represents.operators {v : Snapshot} (h : Represents s v) : s.operators = v.operators := by
  obtain ⟨live, bank, hw, -⟩ := h
  exact hw.operators

theorem Represents.labels {v : Snapshot} (h : Represents s v) :
    s.workspace.emitter.labels = v.labels := by
  obtain ⟨live, bank, hw, -⟩ := h
  exact hw.emitter.labels

theorem Represents.supplies {v : Snapshot} {a : Action} {k : Demand} (h : Represents s v)
    (hd : a.demand k v.waiting) : s.Supplies a := by
  have hlength : s.operands.length = v.waiting.operands.length := h.length_operands
  have hoperators : s.operators = v.waiting.operators := h.operators
  have hlabels : s.workspace.emitter.labels = v.waiting.labels := h.labels
  cases a with
  | declare =>
    obtain ⟨x, rest, hv, -⟩ := hd
    simp [Session.Supplies, hlength, hv]
  | callPrint =>
    obtain ⟨value, rest, hv, -⟩ := hd
    simp [Session.Supplies, hlength, hv]
  | store =>
    obtain ⟨value, x, rest, operators, hv, ho, -⟩ := hd
    simp [Session.Supplies, hlength, hoperators, hv, ho]
  | compute =>
    obtain ⟨right, left, rest, hv, ⟨op, operators, ho, -⟩ | ⟨op, operators, ho, hl, -⟩⟩ := hd
    · simp [Session.Supplies, hlength, hoperators, hv, ho]
    · simp [Session.Supplies, hlength, hoperators, hlabels, hv, ho, hl]
  | sign =>
    obtain ⟨value, rest, operators, hv, ⟨ho, -⟩ | ⟨ho, -⟩⟩ := hd
    all_goals simp [Session.Supplies, hlength, hoperators, hv, ho]
  | closeLabels =>
    obtain ⟨n, labels, hl, -⟩ := hd
    simp [Session.Supplies, hlabels, hl]
  | placeBegin | placeEnd | jumpBegin | jumpEnd =>
    simp [Session.Supplies, hlabels, hd.2.1]
  | epilogue =>
    obtain ⟨⟨hv, ho, hl⟩, -⟩ := hd
    refine ⟨?_, hoperators.trans ho, hlabels.trans hl⟩
    rw [hv] at hlength
    exact List.length_eq_zero_iff.mp hlength
  | prologue | integerFormat | stringFormat | openLabels | clearRegisters | pushOperator => trivial

theorem Reached.supplies {a : Action} {rest : List GrammarSymbol} (h : Reached input matched s)
    (hc : s.control = .action a :: rest) : s.Supplies a := by
  obtain ⟨v, hr, hsafe⟩ := h.exists_safe
  have hdemands := hsafe.demands
  rw [← hr.control, hc] at hdemands
  exact hr.supplies hdemands

def Terminal.isOperator : Terminal → Bool
  | .additiveOp | .multiplicativeOp | .relationalOp | .assignOp => true
  | _ => false

theorem isSome_ofText?_of_spelled {t : Token} (h : t.Spelled) (hk : t.kind.isOperator = true) :
    (Operator.ofText? t.text).isSome = true := by
  have hreserved : ∀ p ∈ reservedTexts, p.2.isOperator = true →
      (Operator.ofText? p.1).isSome = true := by decide
  obtain ⟨kind, text⟩ := t
  refine hreserved (text, kind) (h.mem ?_ ?_ ?_) hk
  all_goals
    rintro rfl
    cases hk

/-- The discipline of the stacks never breaks: no input is refused with an internal error, every
action finds what it takes, and every operator token has a known text. -/
theorem discipline_of_compile (input : Input) :
    (∀ (τ : Type) [Target τ] (d : Diagnostic), compile τ input = .error d →
      d.cause.isInternal = false) ∧
    (∀ matched s a rest, Reached input matched s → s.control = .action a :: rest →
      s.Supplies a) ∧
    ∀ l, .ok l ∈ Lexer.lexemes input → l.kind.isOperator = true →
      (Operator.ofText? l.text).isSome = true := by
  refine ⟨?_, ?_, ?_⟩
  · intro τ _ d h
    rcases Reached.exists_of_compile_error h with ⟨l, hn⟩ | ⟨matched, s, s', hreached, hc, hm⟩
    · exact Lexer.not_internal_of_next hn
    · exact hreached.not_internal_of_move hc hm
  · intro matched s a rest hreached hc
    exact hreached.supplies hc
  · intro l hl hk
    rcases Lexer.spelled_of_mem_drain rfl hl with hend | hspelled
    · rw [hend] at hk
      cases hk
    · exact isSome_ofText?_of_spelled hspelled hk

end AnyDistance

theorem discipline_of_countdown :
    (∃ matched s rest, Reached (.ofText countdown) matched s ∧
      s.control = .action .compute :: rest ∧ s.Supplies .compute) ∧
    (∃ d, compile Assembly (.ofReads [.bytes [0x69, 0x66, 0xFF]]) = .error d ∧
      d.cause.isInternal = false) ∧
    ∃ l, .ok l ∈ Lexer.lexemes (.ofText countdown) ∧ l.kind.isOperator = true ∧
      (Operator.ofText? l.text).isSome = true := by
  refine ⟨?_, ?_, ?_⟩
  · obtain ⟨matched, s, hreached, hp⟩ : ∃ matched s, Reached (.ofText countdown) matched s ∧
        decide (s.control.head? = some (.action .compute)) = true :=
      exists_reached_of_stateAfter (n := 40) (by decide +kernel)
    obtain ⟨rest, hc⟩ := List.head?_eq_some_iff.mp (of_decide_eq_true hp)
    exact ⟨matched, s, rest, hreached, hc, (discipline_of_compile _).2.1 _ s _ rest hreached hc⟩
  · have herror : compile Assembly (.ofReads [.bytes [0x69, 0x66, 0xFF]]) =
        .error (.located (.readFailure .invalidUtf8) ⟨1, 1⟩) := by decide +kernel
    exact ⟨_, herror, (discipline_of_compile _).1 Assembly _ herror⟩
  · have hlexed : .ok ⟨":=", .assignOp, ⟨1, 15⟩⟩ ∈ Lexer.lexemes (.ofText countdown) := by
      decide +kernel
    exact ⟨_, hlexed, rfl, (discipline_of_compile _).2.2 _ hlexed rfl⟩

end OnePass
