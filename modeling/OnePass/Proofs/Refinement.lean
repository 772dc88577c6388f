import OnePass.Proofs.Census
import OnePass.Proofs.Lexing
import OnePass.Proofs.Snapshot
import OnePass.Session.Moves

/-! # Sessions and snapshots

A session represents a snapshot, and its moves are those of the snapshot: where the snapshot moves
on, the session moves on to one that represents the next snapshot, and where the snapshot is
refused, the session fails with a diagnostic about the program.
-/
namespace OnePass

variable {distance : String → String → Nat} [NameDistance distance]

/-! ## Emitted lines -/

namespace Emitter

def lines (e : Emitter) (segment : Segment) : List Line :=
  (e.emitted.toList.filter fun x => x.segment = segment).map Emission.line

theorem lines_emit (e : Emitter) (segment other : Segment) (line : Line) :
    (e.emit other line).lines segment =
      e.lines segment ++ if other = segment then [line] else [] := by
  by_cases h : other = segment <;> simp [lines, emit, h]

end Emitter

def definitions (literals : List String) : List Line :=
  literals.zipIdx.map fun (literal, i) => .definition (.literal (i + 1)) literal

structure Emitter.Matches (e : Emitter) (v : Snapshot) : Prop where
  labels : e.labels = v.labels
  labelCount : e.labelCount = v.labelCount
  literals : e.strings.literals = v.literals
  text : e.lines .text = v.text
  data : e.lines .data = v.header ++ definitions v.literals

namespace Emitter.Matches

variable {e : Emitter} {v : Snapshot}

theorem emit (h : e.Matches v) (line : Line) : (e.emit .text line).Matches (v.emit [line]) where
  labels := h.labels
  labelCount := h.labelCount
  literals := h.literals
  text := by simp [lines_emit, h.text, Snapshot.emit]
  data := by simpa [lines_emit, Snapshot.emit] using h.data

theorem label? (h : e.Matches v) (literal : String) :
    e.strings.label? literal = literalLabel? v.literals literal := by
  rw [StringPool.label?, h.literals, literalLabel?]

theorem intern_known (h : e.Matches v) {literal : String} {label : DataLabel}
    (hl : literalLabel? v.literals literal = some label) : e.intern literal = (label, e) := by
  rw [← h.label?] at hl
  simp [Emitter.intern, StringPool.intern, hl]

theorem intern (h : e.Matches v) (literal : String) :
    (e.intern literal).2.Matches { v with literals := OnePass.intern v.literals literal } := by
  by_cases hm : literal ∈ v.literals
  · obtain ⟨i, hi⟩ := Option.isSome_iff_exists.mp (List.isSome_idxOf?.mpr hm)
    have hlabel : literalLabel? v.literals literal = some (.literal (i + 1)) := by
      simp [literalLabel?, hi]
    rw [h.intern_known hlabel]
    simpa [OnePass.intern, hm] using h
  · have hnone : e.strings.label? literal = none := by simp [h.label?, literalLabel?, hm]
    have heq : (e.intern literal).2 = Emitter.emit
        { e with strings := ⟨e.strings.literals ++ [literal]⟩ } .data
        (.definition (.literal (v.literals.length + 1)) literal) := by
      simp [Emitter.intern, StringPool.intern, hnone, StringPool.size, h.literals]
    rw [heq]
    exact
      { labels := h.labels
        labelCount := h.labelCount
        literals := by simp [OnePass.intern, hm, h.literals, Emitter.emit]
        text := by
          refine (lines_emit _ .text .data _).trans ?_
          rw [if_neg (by decide), List.append_nil]
          exact h.text
        data := by
          have hdata : Emitter.lines { e with strings := ⟨e.strings.literals ++ [literal]⟩ } .data =
            v.header ++ definitions v.literals := h.data
          rw [lines_emit, hdata]
          simp [OnePass.intern, hm, definitions, List.zipIdx_append] }

end Emitter.Matches

/-! ## Computations and their outcomes -/

namespace Compiling

variable {α β : Type} {s s' : Session} {x : Compiling α}

theorem bind_ok {a : α} (h : x s = .ok a s') (f : α → Compiling β) : (x >>= f) s = f a s' := by
  change EStateM.bind x f s = _
  simp only [EStateM.bind, h]

theorem bind_error {d : Diagnostic} (h : x s = .error d s') (f : α → Compiling β) :
    (x >>= f) s = .error d s' := by
  change EStateM.bind x f s = _
  simp only [EStateM.bind, h]

theorem get_ok (s : Session) : (get : Compiling Session) s = .ok s s := rfl

theorem popOperand_ok {o : Operand} {rest : List Operand} (h : s.operands = o :: rest) :
    popOperand s = .ok o { s with operands := rest } := by
  rw [popOperand, bind_ok (get_ok s), h]
  rfl

theorem popOperator_ok {op : Operator} {rest : List Operator} (h : s.operators = op :: rest) :
    popOperator s = .ok op { s with operators := rest } := by
  rw [popOperator, bind_ok (get_ok s), h]
  rfl

theorem currentLabel_ok {n : Nat} {rest : List Nat}
    (h : s.workspace.emitter.labels = n :: rest) : currentLabel s = .ok n s := by
  have hn : s.workspace.emitter.currentLabel? = some n := by simp [Emitter.currentLabel?, h]
  rw [currentLabel, bind_ok (get_ok s), hn]
  rfl

end Compiling

/-- The computation ends well exactly if the outcome is there, with results that are related to
it. It never fails because a stack was used out of order. -/
def Agrees {α β : Type} (result : EStateM.Result Diagnostic Session α) (outcome : Option β)
    (R : α → β → Session → Prop) : Prop :=
  match outcome with
  | some b => ∃ a s, result = .ok a s ∧ R a b s
  | none => ∃ d s, result = .error d s ∧ d.cause.isInternal = false

namespace Agrees

variable {α β γ δ : Type} {x : Compiling α} {f : α → Compiling γ} {s s' : Session} {a : α}
  {outcome : Option β} {g : β → Option δ} {R : α → β → Session → Prop}
  {Q : γ → δ → Session → Prop}

theorem bind (h : Agrees (x s) outcome R)
    (hf : ∀ a b s', outcome = some b → R a b s' → Agrees (f a s') (g b) Q) :
    Agrees ((x >>= f) s) (outcome.bind g) Q := by
  cases outcome with
  | none =>
    obtain ⟨d, s', he, hd⟩ := h
    exact ⟨d, s', Compiling.bind_error he f, hd⟩
  | some b =>
    obtain ⟨a, s', he, hr⟩ := h
    rw [Compiling.bind_ok he, Option.bind_some]
    exact hf a b s' rfl hr

theorem after {R' : γ → β → Session → Prop} (hx : x s = .ok a s')
    (h : Agrees (f a s') outcome R') : Agrees ((x >>= f) s) outcome R' := by
  rw [Compiling.bind_ok hx]
  exact h

theorem ok {b : β} (hx : x s = .ok a s') (h : R a b s') : Agrees (x s) (some b) R :=
  ⟨a, s', hx, h⟩

end Agrees

/-! ## Values in use -/

/-- The symbols of the intermediate results, those that wait longest first. -/
def held : List Holding → List SymbolId
  | [] => []
  | (id, value) :: rest => held rest ++ if value = .temporary then [id] else []

theorem length_held (live : List Holding) :
    (held live).length = Value.pending (live.map Prod.snd) := by
  induction live with
  | nil => rfl
  | cons hold live ih =>
    obtain ⟨id, value⟩ := hold
    cases value <;> simp [held, Value.pending, Value.held, ih, Nat.add_comm]

theorem mem_held {live : List Holding} {id : SymbolId} (h : id ∈ held live) :
    (id, Value.temporary) ∈ live := by
  induction live with
  | nil => cases h
  | cons hold live ih =>
    obtain ⟨j, value⟩ := hold
    rcases List.mem_append.mp h with h | h
    · exact .tail _ (ih h)
    · split at h
      · next hv =>
        rw [List.mem_singleton.mp h, hv]
        exact List.mem_cons_self
      · cases h

/-- No value that has been taken has the symbol of an intermediate result that waits. -/
theorem Coherent.not_mem_held {table : SymbolTable} {bank : RegisterBank SymbolId}
    {declared : List String} {live taken : List Holding}
    (h : Coherent table bank declared (taken ++ live)) (hold : Holding) (hm : hold ∈ taken) :
    hold.1 ∉ held live := by
  intro hid
  obtain ⟨x, -, hx⟩ := (List.pairwise_append.mp h.distinct).2.2 hold hm _ (mem_held hid) rfl
  cases hx

/-- The session has the tokens, stacks and lines of the snapshot. Values that have been taken from
the operand stack are still in use. -/
structure Working (s : Session) (v : Snapshot) (live taken : List Holding)
    (bank : RegisterBank SymbolId) : Prop where
  lexing : ∃ ys, v.tokens = (s.lookahead :: ys).map Lexeme.token ∧
    Lexer.Follows s.lookahead s.lexer ys
  mode : s.lexer.mode = .start
  control : s.control = v.control
  operators : s.operators = v.operators
  symbols : s.operands.map Operand.symbol = live.map Prod.fst
  values : v.operands = live.map Prod.snd
  emitter : s.workspace.emitter.Matches v
  registers : s.workspace.registers = bank
  coherent : Coherent s.workspace.symbols bank v.declared (taken ++ live)
  accounts : s.workspace.symbols.Accounts (taken ++ live)
  literals : ∀ hold ∈ taken ++ live, ∀ literal, hold.2 = .text literal → literal ∈ v.literals

/-- Between moves the intermediate results take the lowest registers, and nothing else takes one. -/
def Represents (s : Session) (v : Snapshot) : Prop :=
  ∃ live bank, Working s v live [] bank ∧ bank.Stacked (held live)

namespace Working

variable {s : Session} {v : Snapshot} {live taken : List Holding} {bank : RegisterBank SymbolId}

theorem record (h : Working s v live taken bank) (e : TraceEvent) :
    Working (s.record e) v live taken bank :=
  { h with }

theorem emit (h : Working s v live taken bank) (line : Line) :
    ∃ s', Compiling.emit .text line s = .ok () s' ∧ Working s' (v.emit [line]) live taken bank :=
  ⟨_, rfl, { h with emitter := h.emitter.emit line }⟩

theorem perm {taken' : List Holding} (h : Working s v live taken bank)
    (hp : taken.Perm taken') : Working s v live taken' bank :=
  { h with
    coherent := h.coherent.perm (hp.append_right live)
    accounts := h.accounts.perm (hp.append_right live)
    literals := fun hold hm => h.literals hold ((hp.append_right live).mem_iff.mpr hm) }

theorem pop (h : Working s v live taken bank) {value : Value} {rest : List Value}
    (hv : v.operands = value :: rest) :
    ∃ o live' s', live = (o.symbol, value) :: live' ∧ Compiling.popOperand s = .ok o s' ∧
      Working s' { v with operands := rest } live' ((o.symbol, value) :: taken) bank := by
  obtain ⟨hold, live', rfl⟩ : ∃ hold live', live = hold :: live' := by
    cases live with
    | nil => simp [h.values] at hv
    | cons hold live' => exact ⟨hold, live', rfl⟩
  obtain ⟨id, value'⟩ := hold
  obtain ⟨rfl, rfl⟩ : value' = value ∧ live'.map Prod.snd = rest := by
    simpa [h.values] using hv
  obtain ⟨o, operands, ho⟩ : ∃ o operands, s.operands = o :: operands := by
    cases ho : s.operands with
    | nil => simpa [ho] using h.symbols
    | cons o operands => exact ⟨o, operands, rfl⟩
  obtain ⟨rfl, hs⟩ : o.symbol = id ∧ operands.map Operand.symbol = live'.map Prod.fst := by
    simpa [ho] using h.symbols
  have hp : (taken ++ (o.symbol, value') :: live').Perm
      ((o.symbol, value') :: taken ++ live') := List.perm_middle
  exact ⟨o, live', _, rfl, Compiling.popOperand_ok ho,
    { h with
      symbols := hs
      values := rfl
      emitter := { h.emitter with }
      coherent := h.coherent.perm hp
      accounts := h.accounts.perm hp
      literals := fun hold hm => h.literals hold (hp.mem_iff.mpr hm) }⟩

theorem push {id : SymbolId} {value : Value} (h : Working s v live ((id, value) :: taken) bank)
    (p : Position) :
    Working { s with operands := ⟨id, p⟩ :: s.operands }
      { v with operands := value :: v.operands } ((id, value) :: live) taken bank := by
  have hp : ((id, value) :: taken ++ live).Perm (taken ++ (id, value) :: live) :=
    List.perm_middle.symm
  exact
    { h with
      symbols := by simp [h.symbols]
      values := by simp [h.values]
      emitter := { h.emitter with }
      coherent := h.coherent.perm hp
      accounts := h.accounts.perm hp
      literals := fun hold hm => h.literals hold (hp.mem_iff.mpr hm) }

theorem popOperator (h : Working s v live taken bank) {op : Operator} {rest : List Operator}
    (ho : v.operators = op :: rest) :
    ∃ s', Compiling.popOperator s = .ok op s' ∧
      Working s' { v with operators := rest } live taken bank :=
  ⟨_, Compiling.popOperator_ok (h.operators.trans ho),
    { h with operators := rfl, emitter := { h.emitter with } }⟩

theorem consume {o : Operand} {value : Value}
    (h : Working s v live ((o.symbol, value) :: taken) bank) :
    ∃ s', Compiling.consume o s = .ok () s' ∧
      Working s' v live taken (bank.release o.symbol) :=
  ⟨_, rfl,
    { h with
      registers := congrArg (RegisterBank.release · o.symbol) h.registers
      coherent := h.coherent.consume
      accounts := h.accounts.consume h.coherent
      literals := fun hold hm => h.literals hold (.tail _ hm) }⟩

theorem temporary (h : Working s v live taken bank) :
    ∃ o s', Compiling.temporary s = .ok o s' ∧
      Working s' v live ((o.symbol, .temporary) :: taken) bank :=
  ⟨⟨s.workspace.symbols.anonymous.1, _⟩, _, rfl,
    { h with
      coherent := h.coherent.anonymous
      accounts := h.accounts.anonymous h.coherent.tidy
      literals := fun hold hm literal hl => by
        rcases List.mem_cons.mp hm with rfl | hm
        · cases hl
        · exact h.literals hold hm literal hl }⟩

theorem pending (h : Working s v live taken bank) :
    Value.pending v.operands = (held live).length := by
  rw [length_held, h.values]

/-! ### Registers -/

theorem acquire_held (h : Working s v live taken bank) {o : Operand} {r : Register}
    (hr : bank.holder r = some o.symbol) : Compiling.acquire o s = .ok r s := by
  have hs := (h.coherent.bound o.symbol r).mpr hr
  simp [Compiling.acquire, Workspace.choose, hs, Workspace.commit]

theorem loadOf (h : Working s v live taken bank) {id : SymbolId} {value : Value}
    (hm : (id, value) ∈ taken ++ live) (r : Register) (p : Position) :
    match value.load? v.declared v.literals r with
    | some lines => ∃ load e, s.workspace.loadOf id p = .ok load ∧
      s.workspace.load r load = { s.workspace with emitter := e } ∧
        e.Matches (v.emit (instructions lines))
    | none => ∃ d, s.workspace.loadOf id p = .error d ∧ d.cause.isInternal = false := by
  have hd := h.coherent.denotes _ hm
  cases value with
  | number digits =>
    obtain ⟨q, hq⟩ := hd
    exact ⟨.number digits, _, by simp [Workspace.loadOf, hq], rfl, h.emitter.emit _⟩
  | temporary =>
    have hq : (s.workspace.symbols.symbol id).lexeme = none := hd
    exact ⟨.computed, s.workspace.emitter, by simp [Workspace.loadOf, hq], rfl,
      by simpa [Snapshot.emit, instructions] using h.emitter⟩
  | text literal =>
    obtain ⟨q, hq⟩ := hd
    obtain ⟨i, hi⟩ := Option.isSome_iff_exists.mp
      (List.isSome_idxOf?.mpr (h.literals _ hm literal rfl))
    have hl : literalLabel? v.literals literal = some (.literal (i + 1)) := by
      simp [literalLabel?, hi]
    simp only [Value.load?, hl, Option.map_some]
    refine ⟨.constant literal, _, by simp [Workspace.loadOf, hq], ?_, h.emitter.emit _⟩
    simp only [Workspace.load, h.emitter.intern_known hl]
    rfl
  | var x =>
    obtain ⟨⟨q, hq⟩, hslot⟩ := h.coherent.named x id hd
    simp only [Value.load?]
    cases hx : slot? v.declared x with
    | none =>
      refine ⟨s.workspace.undefined id p, ?_, rfl⟩
      simp [Workspace.loadOf, hq, hslot, hx]
    | some slot =>
      exact ⟨.slot slot, _, by simp [Workspace.loadOf, hq, hslot, hx], rfl, h.emitter.emit _⟩

theorem acquire_fresh (h : Working s v live taken bank) {o : Operand} {value : Value}
    (hm : (o.symbol, value) ∈ taken ++ live) {ids : List SymbolId} (hs : bank.Stacked ids)
    (ho : o.symbol ∉ ids) :
    Agrees (Compiling.acquire o s) (value.operand? v.declared v.literals ids.length)
      fun r x s' => r = x.2 ∧ ∃ bank', Working s' (v.emit (instructions x.1)) live taken bank' ∧
        bank'.Stacked (ids ++ [o.symbol]) := by
  have hnone : (s.workspace.symbols.symbol o.symbol).register = none := by
    cases hr : (s.workspace.symbols.symbol o.symbol).register with
    | none => rfl
    | some r =>
      have := (h.coherent.bound _ r).mp hr
      rw [hs.holder] at this
      exact absurd (List.mem_of_getElem? this) ho
  have hfree : s.workspace.registers.firstFree? = Register.above? ids.length := by
    rw [h.registers, hs.firstFree?]
  cases hr : Register.above? ids.length with
  | none =>
    rw [show value.operand? v.declared v.literals ids.length = none by simp [Value.operand?, hr]]
    exact ⟨.located (.registersExhausted registerCount) o.position, s,
      by simp [Compiling.acquire, Workspace.choose, hnone, hfree, hr], rfl⟩
  | some r =>
    have hload := h.loadOf hm r o.position
    cases hl : value.load? v.declared v.literals r with
    | none =>
      rw [show value.operand? v.declared v.literals ids.length = none by
        simp [Value.operand?, hr, hl]]
      rw [hl] at hload
      obtain ⟨d, hd, hblame⟩ := hload
      exact ⟨d, s, by simp [Compiling.acquire, Workspace.choose, hnone, hfree, hr, hd, Except.map],
        hblame⟩
    | some lines =>
      rw [show value.operand? v.declared v.literals ids.length = some (lines, r) by
        simp [Value.operand?, hr, hl]]
      rw [hl] at hload
      obtain ⟨load, e, hd, he, hmatches⟩ := hload
      have hempty : bank.holder r = none := by
        rw [hs.holder, Register.index_above hr]
        simp
      refine ⟨r, { s with workspace := { s.workspace with emitter := e }.bind o.symbol r }.record
          (.registerBound r o.symbol), ?_, rfl, bank.bind r o.symbol, ?_, hs.bind hr _⟩
      · simp [Compiling.acquire, Workspace.choose, hnone, hfree, hr, hd, Except.map,
          Workspace.commit, he]
      · exact
          { h with
            emitter := hmatches
            registers := congrArg (RegisterBank.bind · r o.symbol) h.registers
            coherent := h.coherent.bind (h.coherent.contains _ hm) (h.coherent.taken _ hm) hempty
              hnone
            accounts := h.accounts.update _ }

/-- A single operand is in the register above those that wait below it, or is loaded there. -/
theorem acquire_single (h : Working s v live taken bank) {o : Operand} (value : Value)
    (hm : (o.symbol, value) ∈ taken ++ live) {ids : List SymbolId}
    (hs : bank.Stacked (ids ++ if value = .temporary then [o.symbol] else []))
    (ho : o.symbol ∉ ids) :
    Agrees (Compiling.acquire o s) (value.operand? v.declared v.literals ids.length)
      fun r x s' => r = x.2 ∧ ∃ bank', Working s' (v.emit (instructions x.1)) live taken bank' ∧
        bank'.Stacked (ids ++ [o.symbol]) := by
  by_cases hv : value = .temporary
  · rw [if_pos hv] at hs
    obtain ⟨r, hr, hheld⟩ := hs.exists_above
    rw [show value.operand? v.declared v.literals ids.length = some ([], r) by
      simp [hv, Value.operand?, hr, Value.load?]]
    exact ⟨r, s, h.acquire_held hheld, rfl, bank, by simpa [Snapshot.emit, instructions] using h, hs⟩
  · rw [if_neg hv, List.append_nil] at hs
    exact h.acquire_fresh hm hs ho

end Working

/-! ### Two operands -/

def Compiling.acquireBoth (left right : Operand) : Compiling (Register × Register) := do
  let a ← acquire left
  let b ← acquire right
  return (a, b)

namespace Working

variable {s : Session} {v : Snapshot} {live taken : List Holding} {bank : RegisterBank SymbolId}

theorem emitted_append {is js : List Instruction}
    (h : Working s (Snapshot.emit (v.emit (instructions is)) (instructions js)) live taken bank) :
    Working s (v.emit (instructions (is ++ js))) live taken bank := by
  simpa [Snapshot.emit, instructions] using h

def BothAcquired (v : Snapshot) (live taken : List Holding) (left right : Operand)
    (x : Register × Register) (y : List Instruction × Register × Register) (s' : Session) : Prop :=
  x = y.2 ∧ ∃ bank' top, Working s' (v.emit (instructions y.1)) live taken bank' ∧
    bank'.Stacked (held live ++ top) ∧ ∀ id ∈ top, id ∈ [left.symbol, right.symbol]

variable {left right : Operand} {l r : Value}

theorem acquire_shared (h : Working s v live taken bank)
    (hm : (left.symbol, l) ∈ taken ++ live) (hs : bank.Stacked (held live))
    (hl : left.symbol ∉ held live) (hsame : right.symbol = left.symbol)
    (hshare : l.shares r = true) :
    Agrees (Compiling.acquireBoth left right s)
      (Value.operands? v.declared v.literals (held live).length l r)
      (BothAcquired v live taken left right) := by
  rw [Value.operands?_shared hshare]
  refine .bind (h.acquire_fresh hm hs hl) fun a y s₁ hy hacquired => ?_
  obtain ⟨ha, bank₁, hw, hst⟩ := hacquired
  obtain ⟨low, hlow, hheld⟩ := hst.exists_above
  obtain rfl : low = y.2 := Option.some.inj (hlow.symm.trans (Value.above?_of_operand? hy))
  refine .after (hw.acquire_held (hsame ▸ hheld)) (.ok rfl ⟨by rw [ha], bank₁, _, hw, hst, ?_⟩)
  simp

/-- The left operand has its register; the right one follows it. -/
theorem acquire_left_held (h : Working s v live taken bank)
    (hm : (right.symbol, r) ∈ taken ++ live)
    (hs : bank.Stacked ((held live ++ [left.symbol]) ++
      if r = .temporary then [right.symbol] else []))
    (hr : right.symbol ∉ held live) (hne : right.symbol ≠ left.symbol) :
    Agrees (Compiling.acquireBoth left right s)
      (Value.operands? v.declared v.literals (held live).length .temporary r)
      (BothAcquired v live taken left right) := by
  have hs' : bank.Stacked (held live ++ left.symbol ::
      if r = .temporary then [right.symbol] else []) := by simpa using hs
  obtain ⟨low, hlow, hheld⟩ := hs'.exists_above
  rw [Value.operands?_left hlow]
  refine .after (h.acquire_held hheld) ?_
  have hright := h.acquire_single _ hm hs (by simp [hr, hne])
  rw [List.length_append] at hright
  refine .bind hright fun b y s₁ _ hacquired => ?_
  obtain ⟨hb, bank₁, hw, hst⟩ := hacquired
  refine .ok rfl ⟨by rw [hb], bank₁, [left.symbol, right.symbol], hw, ?_, fun _ hid => hid⟩
  simpa using hst

/-- The right operand is below the left one, which is loaded last. -/
theorem acquire_right_held (h : Working s v live taken bank)
    (hm : (left.symbol, l) ∈ taken ++ live) (hs : bank.Stacked (held live ++ [right.symbol]))
    (hl : left.symbol ∉ held live) (hne : right.symbol ≠ left.symbol) (hlt : l ≠ .temporary) :
    Agrees (Compiling.acquireBoth left right s)
      (Value.operands? v.declared v.literals (held live).length l .temporary)
      (BothAcquired v live taken left right) := by
  obtain ⟨low, hlow, -⟩ := hs.exists_above
  rw [Value.operands?_right hlow hlt]
  have hleft := h.acquire_fresh hm hs (by simp [hl, hne.symm])
  rw [List.length_append] at hleft
  refine .bind hleft fun a y s₁ _ hacquired => ?_
  obtain ⟨ha, bank₁, hw, hst⟩ := hacquired
  rw [List.append_assoc] at hst
  obtain ⟨low', hlow', hheld⟩ := hst.exists_above
  obtain rfl : low = low' := Option.some.inj (hlow.symm.trans hlow')
  refine .after (hw.acquire_held hheld) (.ok rfl ⟨by rw [ha], bank₁, _, hw, hst, ?_⟩)
  simp

theorem acquire_leaves (h : Working s v live taken bank)
    (hm : (left.symbol, l) ∈ taken ++ live) (hm' : (right.symbol, r) ∈ taken ++ live)
    (hs : bank.Stacked (held live)) (hl : left.symbol ∉ held live)
    (hr : right.symbol ∉ held live) (hne : right.symbol ≠ left.symbol)
    (hshare : l.shares r = false) (hrt : r ≠ .temporary) :
    Agrees (Compiling.acquireBoth left right s)
      (Value.operands? v.declared v.literals (held live).length l r)
      (BothAcquired v live taken left right) := by
  rw [Value.operands?_leaves hshare hrt]
  refine .bind (h.acquire_fresh hm hs hl) fun a x s₁ _ hacquired => ?_
  obtain ⟨ha, bank₁, hw₁, hst₁⟩ := hacquired
  have hright := hw₁.acquire_fresh hm' hst₁ (by simp [hr, hne])
  rw [List.length_append] at hright
  refine .bind hright fun b y s₂ _ hacquired => ?_
  obtain ⟨hb, bank₂, hw₂, hst₂⟩ := hacquired
  rw [List.append_assoc] at hst₂
  refine .ok rfl ⟨by rw [ha, hb], bank₂, _, hw₂.emitted_append, hst₂, ?_⟩
  simp

/-- Two operands are in the registers above those that wait below them, or are loaded there. -/
theorem acquire_both
    (h : Working s v live ((left.symbol, l) :: (right.symbol, r) :: taken) bank)
    (hs : bank.Stacked (held ((right.symbol, r) :: (left.symbol, l) :: live))) :
    Agrees (Compiling.acquireBoth left right s)
      (Value.operands? v.declared v.literals (held live).length l r)
      (BothAcquired v live ((left.symbol, l) :: (right.symbol, r) :: taken) left right) := by
  have hleft : (left.symbol, l) ∈ ((left.symbol, l) :: (right.symbol, r) :: taken) ++ live := by
    simp
  have hright : (right.symbol, r) ∈ ((left.symbol, l) :: (right.symbol, r) :: taken) ++ live := by
    simp
  have hl : left.symbol ∉ held live := h.coherent.not_mem_held (_, l) (by simp)
  have hr : right.symbol ∉ held live := h.coherent.not_mem_held (_, r) (by simp)
  by_cases hshare : l.shares r = true
  · obtain ⟨x, rfl, rfl⟩ : ∃ x, l = .var x ∧ r = .var x := by
      cases l <;> cases r <;> simp_all [Value.shares]
    have hsame : right.symbol = left.symbol := by
      have hx := h.coherent.denotes _ hleft
      have hy := h.coherent.denotes _ hright
      exact Option.some.inj (hy.symm.trans hx)
    exact h.acquire_shared hleft (by simpa [held] using hs) hl hsame hshare
  · have hne : right.symbol ≠ left.symbol := by
      intro he
      obtain ⟨x, hx, hy⟩ := List.rel_of_pairwise_cons h.coherent.distinct
        (show (right.symbol, r) ∈ _ from List.mem_cons_self) he.symm
      simp_all [Value.shares]
    by_cases hlt : l = .temporary
    · subst hlt
      exact h.acquire_left_held hright (by simpa [held] using hs) hr hne
    · by_cases hrt : r = .temporary
      · subst hrt
        exact h.acquire_right_held hleft (by simpa [held, hlt] using hs) hl hne hlt
      · exact h.acquire_leaves hleft hright (by simpa [held, hlt, hrt] using hs) hl hr hne
          (by simpa using hshare) hrt

end Working

end OnePass
