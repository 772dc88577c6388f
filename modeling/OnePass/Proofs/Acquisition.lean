import OnePass.Proofs.Coherence

/-! # Acquiring a register

A symbol that has a register keeps it. Another one gets the lowest free register and is loaded into
it, or it is refused: because every register is taken, or because it is a variable without a slot.
The effects of an acquisition come one after the other, and a definition may be emitted before the
last check has been made; what is refused has changed nothing all the same.
-/
namespace OnePass

variable {distance : String → String → Nat} [NameDistance distance]

/-! ## The lowest free register -/

namespace RegisterBank

variable {α : Type} {bank : RegisterBank α} {r : Register}

theorem firstFree?_eq_none : bank.firstFree? = none ↔ ∀ r, (bank.holder r).isSome = true := by
  rw [firstFree?, List.find?_eq_none]
  constructor
  · intro h r
    simpa [Option.isSome_iff_ne_none] using h r r.mem_all
  · intro h r _
    simpa [Option.isSome_iff_ne_none] using h r

theorem holder_of_firstFree? (h : bank.firstFree? = some r) : bank.holder r = none := by
  simpa using List.find?_some h

theorem le_of_firstFree? (h : bank.firstFree? = some r) {q : Register}
    (hq : bank.holder q = none) : r.number ≤ q.number := by
  obtain ⟨-, lower, higher, hall, hlower⟩ := List.find?_eq_some_iff_append.mp h
  have hsorted : Register.all.Pairwise fun q r => q.number < r.number := by decide
  rw [hall, List.pairwise_append, List.pairwise_cons] at hsorted
  have hmem := q.mem_all
  rw [hall, List.mem_append, List.mem_cons] at hmem
  rcases hmem with hm | rfl | hm
  · simpa [hq] using hlower q hm
  · exact Nat.le_refl _
  · exact Nat.le_of_lt (hsorted.2.1.1 q hm)

end RegisterBank

/-! ## Pools and the emitter -/

theorem StringPool.label?_eq_none {pool : StringPool} {literal : String} :
    pool.label? literal = none ↔ literal ∉ pool.literals := by
  simp [label?]

def Emitter.emitLines (e : Emitter) (lines : List (Segment × Line)) : Emitter :=
  lines.foldl (fun e (segment, line) => e.emit segment line) e

open SymbolTable (symbol_update)

namespace Workspace

variable {w w' : Workspace} {id : SymbolId} {p : Position} {r : Register} {load : Load}
  {choice : Acquisition} {d : Diagnostic}

/-! ## Loads -/

inductive LoadsAs (s : Symbol) : Load → Prop
  | computed : s.lexeme = none → LoadsAs s .computed
  | number {l} : s.lexeme = some l → l.kind = .number → LoadsAs s (.number l.text)
  | constant {l} : s.lexeme = some l → l.kind = .stringConst → LoadsAs s (.constant l.text)
  | slot {l n} : s.lexeme = some l → l.kind ≠ .number → l.kind ≠ .stringConst →
    s.slot? = some n → LoadsAs s (.slot n)

def Slotless (s : Symbol) : Prop :=
  s.slot? = none ∧ ∃ l, s.lexeme = some l ∧ l.kind ≠ .number ∧ l.kind ≠ .stringConst

theorem LoadsAs.not_slotless {s : Symbol} (h : LoadsAs s load) : ¬ Slotless s := by
  rintro ⟨hslot, l, hl, hnumber, hstring⟩
  cases h with
  | computed hnone => simp [hnone] at hl
  | number hm hk | constant hm hk =>
    obtain rfl := Option.some.inj (hl.symm.trans hm)
    contradiction
  | slot _ _ _ hsome => simp [hslot] at hsome

/-- A symbol is loaded as what it is, or it is a variable without a slot. -/
theorem loadOf_cases (w : Workspace) (id : SymbolId) (p : Position) :
    (∃ load, w.loadOf id p = .ok load ∧ LoadsAs (w.symbols.symbol id) load) ∨
      w.loadOf id p = .error (w.undefined id p) ∧ Slotless (w.symbols.symbol id) := by
  unfold loadOf
  dsimp only
  split
  · next hnone => exact .inl ⟨_, rfl, .computed hnone⟩
  · next l hl =>
    split
    · next hk => exact .inl ⟨_, rfl, .number hl hk⟩
    · next hk => exact .inl ⟨_, rfl, .constant hl hk⟩
    · next hnumber hstring =>
      split
      · next slot hslot => exact .inl ⟨_, rfl, .slot hl hnumber hstring hslot⟩
      · next hslot => exact .inr ⟨rfl, hslot, l, hl, hnumber, hstring⟩

theorem symbols_load (w : Workspace) (r : Register) (load : Load) :
    (w.load r load).symbols = w.symbols := by
  cases load <;> rfl

theorem registers_load (w : Workspace) (r : Register) (load : Load) :
    (w.load r load).registers = w.registers := by
  cases load <;> rfl

/-! ## What is chosen -/

inductive Refuses (w : Workspace) (id : SymbolId) (p : Position) : Diagnostic → Prop
  | exhausted : (w.symbols.symbol id).register = none →
    (∀ r, (w.registers.holder r).isSome = true) →
    Refuses w id p (.located (.registersExhausted registerCount) p)
  | undefined : (w.symbols.symbol id).register = none → (∃ r, w.registers.holder r = none) →
    Slotless (w.symbols.symbol id) → Refuses w id p (w.undefined id p)

/-- The register that the symbol has, or the lowest free one and how the symbol is loaded. -/
inductive Chooses (w : Workspace) (id : SymbolId) : Acquisition → Prop
  | held {r : Register} : (w.symbols.symbol id).register = some r → Chooses w id (.held r)
  | fresh {r : Register} {load : Load} : (w.symbols.symbol id).register = none →
    w.registers.firstFree? = some r → LoadsAs (w.symbols.symbol id) load →
    Chooses w id (.fresh r load)

theorem choose_cases (w : Workspace) (id : SymbolId) (p : Position) :
    (∃ choice, w.choose id p = .ok choice ∧ w.Chooses id choice) ∨
      ∃ d, w.choose id p = .error d ∧ w.Refuses id p d := by
  unfold choose
  split
  · next r hr => exact .inl ⟨_, rfl, .held hr⟩
  · next hnone =>
    split
    · next hfull =>
      exact .inr ⟨_, rfl, .exhausted hnone (RegisterBank.firstFree?_eq_none.mp hfull)⟩
    · next r hr =>
      rcases w.loadOf_cases id p with ⟨load, hload, hloads⟩ | ⟨hload, hslotless⟩
      · exact .inl ⟨.fresh r load, by rw [hload]; rfl, .fresh hnone hr hloads⟩
      · exact .inr ⟨w.undefined id p, by rw [hload]; rfl,
          .undefined hnone ⟨r, RegisterBank.holder_of_firstFree? hr⟩ hslotless⟩

theorem choose_ok (h : w.choose id p = .ok choice) : w.Chooses id choice := by
  rcases w.choose_cases id p with ⟨choice', hchoose, hchooses⟩ | ⟨d, hchoose, -⟩
  · obtain rfl : choice = choice' := Except.ok.inj (h.symm.trans hchoose)
    exact hchooses
  · rw [hchoose] at h
    cases h

theorem choose_error (h : w.choose id p = .error d) : w.Refuses id p d := by
  rcases w.choose_cases id p with ⟨choice, hchoose, -⟩ | ⟨d', hchoose, hrefuses⟩
  · rw [hchoose] at h
    cases h
  · obtain rfl : d = d' := Except.error.inj (h.symm.trans hchoose)
    exact hrefuses

theorem Refuses.register (h : w.Refuses id p d) : (w.symbols.symbol id).register = none := by
  cases h <;> assumption

theorem Refuses.unique {d' : Diagnostic} (h : w.Refuses id p d) (h' : w.Refuses id p d') :
    d = d' := by
  cases h with
  | exhausted _ hfull =>
    cases h' with
    | exhausted => rfl
    | undefined _ hfree =>
      obtain ⟨r, hr⟩ := hfree
      simpa [hr] using hfull r
  | undefined _ hfree =>
    cases h' with
    | exhausted _ hfull =>
      obtain ⟨r, hr⟩ := hfree
      simpa [hr] using hfull r
    | undefined => rfl

theorem Chooses.not_refuses (h : w.Chooses id choice) : ¬ w.Refuses id p d := by
  intro hrefuses
  cases h with
  | held hr =>
    rw [hrefuses.register] at hr
    cases hr
  | @fresh r _ _ hr hloads =>
    cases hrefuses with
    | exhausted _ hfull => simpa [RegisterBank.holder_of_firstFree? hr] using hfull r
    | undefined _ _ hslotless => exact hloads.not_slotless hslotless

theorem acquire_error : w.acquire id p = .error d ↔ w.Refuses id p d := by
  rw [acquire]
  rcases w.choose_cases id p with ⟨choice, hchoose, hchooses⟩ | ⟨d', hchoose, hrefuses⟩
  · simp [hchoose, Except.map, hchooses.not_refuses]
  · simp only [hchoose, Except.map, Except.error.injEq]
    exact ⟨fun he => he ▸ hrefuses, hrefuses.unique⟩

/-! ## One effect after the other -/

def preparing (id : SymbolId) (p : Position) (r : Register) :
    EStateM Diagnostic Workspace (Option Instruction) := do
  let w ← get
  let symbol := w.symbols.symbol id
  match symbol.lexeme with
  | none => return none
  | some lexeme =>
    match lexeme.kind with
    | .number => return some (.loadNumber r lexeme.text)
    | .stringConst =>
      let (label, emitter) := w.emitter.intern lexeme.text
      set { w with emitter }
      return some (.loadAddress r label)
    | _ =>
      match symbol.slot? with
      | some slot => return some (.loadVariable r slot)
      | none => throw (w.undefined id p)

/-- Acquires a register with the effects in their order. An effect is not undone. -/
def acquiring (id : SymbolId) (p : Position) : EStateM Diagnostic Workspace Register := do
  let w ← get
  match (w.symbols.symbol id).register with
  | some r => return r
  | none =>
    match w.registers.firstFree? with
    | none => throw (.located (.registersExhausted registerCount) p)
    | some r =>
      let load? ← preparing id p r
      modify fun w => { w with registers := w.registers.bind r id }
      modify fun w => { w with symbols := w.symbols.setRegister id (some r) }
      match load? with
      | none => return r
      | some i =>
        modify fun w => w.instruction i
        return r

theorem get_bind {α : Type} (f : Workspace → EStateM Diagnostic Workspace α) (w : Workspace) :
    (get >>= f) w = f w w :=
  rfl

/-- A string constant is interned only where nothing can fail afterwards. -/
theorem preparing_eq (w : Workspace) (id : SymbolId) (p : Position) (r : Register) :
    preparing id p r w =
      match w.loadOf id p with
      | .error d => .error d w
      | .ok .computed => .ok none w
      | .ok (.number digits) => .ok (some (.loadNumber r digits)) w
      | .ok (.constant literal) => .ok (some (.loadAddress r (w.emitter.intern literal).1))
        { w with emitter := (w.emitter.intern literal).2 }
      | .ok (.slot n) => .ok (some (.loadVariable r n)) w := by
  rw [preparing, get_bind]
  rcases w.loadOf_cases id p with ⟨load, hload, hloads⟩ | ⟨hload, hslot, l, hl, hnumber, hstring⟩
  · rw [hload]
    cases hloads with
    | computed hnone => simp only [hnone]; rfl
    | number hl hk | constant hl hk => simp only [hl, hk]; rfl
    | slot hl _ _ hslot => simp only [hl, hslot]; rfl
  · rw [hload]
    simp only [hl, hslot]
    rfl

/-- No effect comes before a failure. -/
theorem acquiring_eq (w : Workspace) (id : SymbolId) (p : Position) : acquiring id p w =
    match w.acquire id p with
    | .ok (r, w') => .ok r w'
    | .error d => .error d w := by
  rw [acquiring, get_bind, acquire, choose]
  cases (w.symbols.symbol id).register with
  | some r => rfl
  | none =>
    cases w.registers.firstFree? with
    | none => rfl
    | some r =>
      simp only [Bind.bind, EStateM.bind, preparing_eq]
      cases w.loadOf id p with
      | error d => rfl
      | ok load => cases load <;> rfl

/-! ## What an acquisition brings about -/

/-- The lines that load the symbol into the register, and the pool with them: one instruction, or
none for an intermediate value, and before it the definition of a string constant that is new. -/
inductive Loads (e : Emitter) (s : Symbol) (r : Register) :
    List (Segment × Line) → StringPool → Prop
  | computed : s.lexeme = none → Loads e s r [] e.strings
  | number {l : Lexeme} : s.lexeme = some l → l.kind = .number →
    Loads e s r [(.text, .instruction (.loadNumber r l.text))] e.strings
  | pooled {l : Lexeme} {label : DataLabel} : s.lexeme = some l → l.kind = .stringConst →
    e.strings.label? l.text = some label →
    Loads e s r [(.text, .instruction (.loadAddress r label))] e.strings
  | unpooled {l : Lexeme} : s.lexeme = some l → l.kind = .stringConst →
    l.text ∉ e.strings.literals →
    Loads e s r [(.data, .definition (.literal (e.strings.size + 1)) l.text),
      (.text, .instruction (.loadAddress r (.literal (e.strings.size + 1))))]
      ⟨e.strings.literals ++ [l.text]⟩
  | slot {l : Lexeme} {n : Nat} : s.lexeme = some l → l.kind ≠ .number → l.kind ≠ .stringConst →
    s.slot? = some n → Loads e s r [(.text, .instruction (.loadVariable r n))] e.strings

theorem loads_load (h : LoadsAs (w.symbols.symbol id) load) (r : Register) :
    ∃ lines strings, Loads w.emitter (w.symbols.symbol id) r lines strings ∧
      (w.load r load).emitter = { w.emitter with strings }.emitLines lines := by
  cases h with
  | computed hnone => exact ⟨_, _, .computed hnone, rfl⟩
  | number hl hk => exact ⟨_, _, .number hl hk, rfl⟩
  | slot hl hnumber hstring hslot => exact ⟨_, _, .slot hl hnumber hstring hslot, rfl⟩
  | @constant l hl hk =>
    cases hlabel : w.emitter.strings.label? l.text with
    | some label =>
      refine ⟨_, _, .pooled hl hk hlabel, ?_⟩
      simp only [load, Emitter.intern, StringPool.intern, hlabel]
      rfl
    | none =>
      refine ⟨_, _, .unpooled hl hk (StringPool.label?_eq_none.mp hlabel), ?_⟩
      simp only [load, Emitter.intern, StringPool.intern, hlabel]
      rfl

/-- The symbol has got the register and is loaded, and nothing else has changed. -/
structure Acquired (w : Workspace) (id : SymbolId) (r : Register) (w' : Workspace) : Prop where
  free : w.registers.holder r = none
  lowest : ∀ q, w.registers.holder q = none → r.number ≤ q.number
  holder : ∀ q, w'.registers.holder q = if q = r then some id else w.registers.holder q
  symbol : ∀ j, w'.symbols.symbol j =
    if j = id then { w.symbols.symbol id with register := some r } else w.symbols.symbol j
  size : w'.symbols.symbols.size = w.symbols.symbols.size
  names : w'.symbols.names = w.symbols.names
  places : w'.symbols.free = w.symbols.free
  declared : w'.symbols.declared = w.symbols.declared
  loaded : ∃ lines strings, Loads w.emitter (w.symbols.symbol id) r lines strings ∧
    w'.emitter = { w.emitter with strings }.emitLines lines

theorem acquired_commit (hc : w.symbols.Contains id) (hr : w.registers.firstFree? = some r)
    (hloads : LoadsAs (w.symbols.symbol id) load) :
    w.Acquired id r (w.commit id (.fresh r load)) where
  free := RegisterBank.holder_of_firstFree? hr
  lowest _ hq := RegisterBank.le_of_firstFree? hr hq
  holder q := by rw [commit, bind, registers_load, RegisterBank.holder_bind]
  symbol j := by rw [commit, bind, symbols_load, SymbolTable.setRegister, symbol_update hc]
  size := by rw [commit, bind, symbols_load]; exact Array.size_modify ..
  names := by rw [commit, bind, symbols_load]; rfl
  places := by rw [commit, bind, symbols_load]; rfl
  declared := by rw [commit, bind, symbols_load]; rfl
  loaded := loads_load hloads r

/-- A symbol that has its register keeps everything as it is; another one acquires one. -/
theorem acquire_ok (hc : w.symbols.Contains id) (h : w.acquire id p = .ok (r, w')) :
    (w.symbols.symbol id).register = some r ∧ w' = w ∨
      (w.symbols.symbol id).register = none ∧ w.Acquired id r w' := by
  rw [acquire] at h
  rcases w.choose_cases id p with ⟨choice, hchoose, hchooses⟩ | ⟨d, hchoose, -⟩
  · rw [hchoose] at h
    cases h
    cases hchooses with
    | held hr => exact .inl ⟨hr, rfl⟩
    | fresh hnone hr hloads => exact .inr ⟨hnone, acquired_commit hc hr hloads⟩
  · rw [hchoose] at h
    cases h

end Workspace

end OnePass
