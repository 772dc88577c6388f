import OnePass.Proofs.Discipline

/-! # The use of the registers

A register holds an intermediate result from the moment it is computed until it is used, and nothing
else between two moves: a variable or a literal has a register only while one action runs. The
results that wait stand in the lowest registers, in the order in which they were computed. No result
waits where a statement begins or ends, so none is carried past a label.
-/
namespace OnePass

section AnyDistance

variable {distance : String → String → Nat} [NameDistance distance]

namespace Session

def temporaries (s : Session) : List SymbolId :=
  (s.operands.reverse.map Operand.symbol).filter fun id =>
    (s.workspace.symbols.symbol id).lexeme.isNone

end Session

variable {input : Input} {matched : List Lexeme} {s : Session} {v : Snapshot}
  {live taken : List Holding} {bank : RegisterBank SymbolId}

theorem Coherent.lexeme_eq_none_iff {table : SymbolTable} {declared : List String}
    (h : Coherent table bank declared live) {hold : Holding} (hm : hold ∈ live) :
    (table.symbol hold.1).lexeme = none ↔ hold.2 = .temporary := by
  rw [← Option.map_eq_none_iff, h.kind_eq hm]
  cases hold.2 <;> simp [Value.kind?]

theorem filter_reverse_eq_held {p : SymbolId → Bool}
    (h : ∀ hold ∈ live, p hold.1 = true ↔ hold.2 = .temporary) :
    (live.map Prod.fst).reverse.filter p = held live := by
  induction live with
  | nil => rfl
  | cons hold live ih =>
    obtain ⟨id, value⟩ := hold
    have hlive := ih fun hold hm => h hold (.tail _ hm)
    have hid : p id = true ↔ value = .temporary := h _ List.mem_cons_self
    rw [List.map_cons, List.reverse_cons, List.filter_append, hlive, held]
    by_cases hv : value = .temporary
    · simp [hv, hid.mpr hv]
    · simp [hv, mt hid.mp hv]

theorem Working.temporaries_eq (h : Working s v live [] bank) : s.temporaries = held live := by
  rw [Session.temporaries, List.map_reverse, h.symbols]
  apply filter_reverse_eq_held
  intro hold hm
  rw [Option.isNone_iff_eq_none]
  exact h.coherent.lexeme_eq_none_iff hm

/-- The registers and the symbols agree, and what is in a register is an intermediate result. -/
structure Session.Banked (s : Session) : Prop where
  stacked : s.workspace.registers.Stacked s.temporaries
  bound : ∀ id r, (s.workspace.symbols.symbol id).register = some r ↔
    s.workspace.registers.holder r = some id
  unbound : ∀ id, (s.workspace.symbols.symbol id).lexeme ≠ none →
    (s.workspace.symbols.symbol id).register = none

theorem Represents.banked (h : Represents s v) : s.Banked := by
  obtain ⟨live, bank, hw, hs⟩ := h
  obtain rfl := hw.registers
  have hcoherent := hw.coherent
  refine ⟨hw.temporaries_eq ▸ hs, hcoherent.bound, ?_⟩
  -- Whatever is in a register is one of the results that wait.
  intro id hlexeme
  rw [Option.eq_none_iff_forall_ne_some]
  intro r hr
  have hholder := (hcoherent.bound id r).mp hr
  rw [hs.holder] at hholder
  have hmem := mem_held (List.mem_of_getElem? hholder)
  exact hlexeme ((hcoherent.lexeme_eq_none_iff hmem).mpr rfl)

/-- The moves before which no value waits: those that begin a statement, place a label, jump, or
clear the registers. -/
def GrammarSymbol.isBoundary : GrammarSymbol → Bool
  | .nonterminal .statement => true
  | .action a =>
    a ∈ [.placeBegin, .placeEnd, .jumpBegin, .jumpEnd, .clearRegisters]
  | _ => false

theorem operands_of_boundary {x : GrammarSymbol} {k : Demand} {σ : Stacks}
    (hx : x.isBoundary = true) (h : x.demand k σ) : σ.operands = [] := by
  cases x with
  | terminal t => cases hx
  | nonterminal n =>
    cases n with
    | statement => exact h.1
    | _ => cases hx
  | action a =>
    cases a with
    | placeBegin | placeEnd | jumpBegin | jumpEnd | clearRegisters => exact h.1
    | _ => cases hx

theorem Reached.registers_of_boundary {x : GrammarSymbol} {rest : List GrammarSymbol}
    (h : Reached input matched s) (hc : s.control = x :: rest) (hx : x.isBoundary = true) :
    s.workspace.registers = {} := by
  obtain ⟨v, hr, hsafe⟩ := h.exists_safe
  have hdemands := hsafe.demands
  rw [← hr.control, hc] at hdemands
  have hoperands : v.operands = [] := operands_of_boundary hx hdemands
  obtain ⟨live, bank, hw, hs⟩ := hr
  obtain rfl : live = [] := List.map_eq_nil_iff.mp (hw.values.symm.trans hoperands)
  rw [hw.registers]
  exact hs.eq_empty

/-- Between two moves the intermediate results on the operand stack, and nothing else, stand in the
lowest registers in their order. The bank is empty where a statement begins, where a label is placed
and where the registers are cleared. -/
theorem registers_of_reached (input : Input) (matched : List Lexeme) (s : Session)
    (h : Reached input matched s) :
    s.temporaries.length ≤ registerCount ∧
    (∀ r : Register, s.workspace.registers.holder r = s.temporaries[r.index.val]?) ∧
    (∀ id r, (s.workspace.symbols.symbol id).register = some r ↔
      s.workspace.registers.holder r = some id) ∧
    (∀ id, (s.workspace.symbols.symbol id).lexeme ≠ none →
      (s.workspace.symbols.symbol id).register = none) ∧
    (∀ x rest, s.control = x :: rest → x.isBoundary = true → s.workspace.registers = {}) ∧
    ∀ rest, s.control = .action .clearRegisters :: rest → s.workspace.registers.occupied = 0 := by
  obtain ⟨v, hr, -⟩ := h.exists_safe
  have hbanked := hr.banked
  refine ⟨hbanked.stacked.fits, hbanked.stacked.holder, hbanked.bound, hbanked.unbound, ?_, ?_⟩
  · intro x rest hc hx
    exact h.registers_of_boundary hc hx
  · intro rest hc
    rw [h.registers_of_boundary hc rfl]
    decide

end AnyDistance

def productOfSums : String :=
  "variable x; x := 1; print (x + 1) * (x + (x + 2))"

theorem registers_of_productOfSums :
    (∃ matched s, Reached (.ofText productOfSums) matched s ∧ s.temporaries.length = 2 ∧
      ∀ r : Register, s.workspace.registers.holder r = s.temporaries[r.index.val]?) ∧
    ∃ matched s rest, Reached (.ofText countdown) matched s ∧
      s.control = .action .clearRegisters :: rest ∧ s.workspace.registers = {} ∧
        s.workspace.registers.occupied = 0 := by
  constructor
  · obtain ⟨matched, s, hreached, hp⟩ : ∃ matched s, Reached (.ofText productOfSums) matched s ∧
        decide (s.temporaries.length = 2) = true :=
      exists_reached_of_stateAfter (n := 73) (by decide +kernel)
    exact ⟨matched, s, hreached, of_decide_eq_true hp, (registers_of_reached _ _ s hreached).2.1⟩
  · obtain ⟨matched, s, hreached, hp⟩ : ∃ matched s, Reached (.ofText countdown) matched s ∧
        decide (s.control.head? = some (.action .clearRegisters)) = true :=
      exists_reached_of_stateAfter (n := 24) (by decide +kernel)
    obtain ⟨rest, hc⟩ := List.head?_eq_some_iff.mp (of_decide_eq_true hp)
    obtain ⟨-, -, -, -, hboundary, hclear⟩ := registers_of_reached _ _ s hreached
    exact ⟨matched, s, rest, hreached, hc, hboundary _ rest hc rfl, hclear rest hc⟩

end OnePass
