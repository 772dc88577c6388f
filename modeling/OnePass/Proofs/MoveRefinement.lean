import OnePass.Proofs.Refinement

/-! # Moves of sessions and snapshots

Each action, and with them each move, does to a session what it does to the snapshot that the
session represents.
-/
namespace OnePass

open Snapshot (accept)

variable {distance : String → String → Nat} [NameDistance distance]

theorem accept_injective {o o' : Option Snapshot} (h : accept o = accept o') : o = o' := by
  cases o <;> cases o' <;> simp_all [accept]

theorem misused_ne_accept {o : Option Snapshot} : .error .misused ≠ accept o := by
  cases o <;> simp [accept]

/-- The move ends well exactly if the snapshot moves on. -/
def Refines (result : EStateM.Result Diagnostic Session Unit) (o : Except Fault Snapshot) : Prop :=
  ∀ outcome, o = accept outcome → Agrees result outcome fun _ v s => Represents s v

namespace Refines

variable {result : EStateM.Result Diagnostic Session Unit}

theorem misused : Refines result (.error .misused) :=
  fun _ h => absurd h misused_ne_accept

theorem of_agrees {o : Option Snapshot}
    (h : Agrees result o fun _ v s => Represents s v) : Refines result (accept o) :=
  fun _ ho => accept_injective ho ▸ h

end Refines

variable {s : Session} {v : Snapshot} {live : List Holding} {bank : RegisterBank SymbolId}

/-! ## Actions -/

theorem refines_store (h : Represents s v) : Refines (Compiling.store s) v.store := by
  obtain ⟨live, bank, hw, hs⟩ := h
  unfold Snapshot.store
  split
  · next operators value x rest ho hv =>
    refine .of_agrees ?_
    unfold Compiling.store
    obtain ⟨o, live₁, s₁, rfl, hpop₁, hw₁⟩ := hw.pop hv
    refine .after hpop₁ ?_
    obtain ⟨target, live₂, s₂, rfl, hpop₂, hw₂⟩ := hw₁.pop rfl
    refine .after hpop₂ ?_
    obtain ⟨s₃, hop, hw₃⟩ := hw₂.popOperator ho
    refine .after hop ?_
    simp only [ne_eq, not_true_eq_false, if_false]
    refine .after rfl ?_
    replace hw₃ : Working s₃ { v with operators, operands := rest } live₂
      [(target.symbol, .var x), (o.symbol, value)] bank := hw₃
    have hslot : (s₃.workspace.symbols.symbol target.symbol).slot? = slot? v.declared x :=
      (hw₃.coherent.named x _ (hw₃.coherent.denotes _ List.mem_cons_self)).2
    simp only [hslot]
    cases slot? v.declared x with
    | none => exact ⟨_, s₃, rfl, rfl⟩
    | some slot =>
      simp only [Option.bind_eq_bind, Option.bind_some]
      rw [hw₃.pending]
      have hvalue : o.symbol ∉ held live₂ := hw₃.coherent.not_mem_held (_, value) (by simp)
      have htarget : target.symbol ∉ held live₂ :=
        hw₃.coherent.not_mem_held (_, .var x) (by simp)
      have hs' : bank.Stacked (held live₂ ++ if value = .temporary then [o.symbol] else []) := by
        simpa [held] using hs
      refine .bind (hw₃.acquire_single value (by simp) hs' hvalue) fun r y s₄ _ hacquired => ?_
      obtain ⟨hr, bank₄, hw₄, hs₄⟩ := hacquired
      obtain ⟨s₅, hemit, hw₅⟩ := hw₄.emit (.instruction (.storeVariable r slot))
      refine .after hemit ?_
      obtain ⟨s₆, hconsume, hw₆⟩ := (hw₅.perm (.swap _ _ [])).consume
      refine .after hconsume ?_
      obtain ⟨s₇, hconsume', hw₇⟩ := hw₆.consume
      have hs₇ := hs₄.release_all [o.symbol, target.symbol] (by simp [hvalue, htarget])
        (by simp)
      rw [hr] at hw₇
      exact .ok hconsume' ⟨live₂, _, hw₇.emitted_append, hs₇⟩
  · exact .misused

/-- A result takes the lowest free register and waits there. -/
theorem agrees_result (hw : Working s v live [] bank) (hs : bank.Stacked (held live))
    (i : Register → Instruction) :
    Agrees
      ((do
        let result ← Compiling.temporary
        let r ← Compiling.acquire result
        Compiling.instruction (i r)
        Compiling.pushOperand result : Compiling Unit) s)
      ((Register.above? (Value.pending v.operands)).bind fun target =>
        some (Snapshot.emit { v with operands := .temporary :: v.operands }
          (instructions [i target])))
      fun _ v' s' => Represents s' v' := by
  obtain ⟨o, s₁, htemp, hw₁⟩ := hw.temporary
  refine .after htemp ?_
  have ho : o.symbol ∉ held live :=
    hw₁.coherent.not_mem_held (_, .temporary) List.mem_cons_self
  have hacquire := hw₁.acquire_fresh List.mem_cons_self hs ho
  rw [hw.pending]
  cases hr : Register.above? (held live).length with
  | none =>
    rw [Value.operand?, hr] at hacquire
    obtain ⟨d, s₂, he, hd⟩ := hacquire
    exact ⟨d, s₂, Compiling.bind_error he _, hd⟩
  | some target =>
    rw [Value.operand?, hr] at hacquire
    obtain ⟨r, s₂, hok, hr', bank₂, hw₂, hs₂⟩ := hacquire
    refine .after hok ?_
    obtain ⟨s₃, hemit, hw₃⟩ := hw₂.emit (.instruction (i r))
    rw [show r = target from hr'] at hw₃
    refine .after hemit (.ok rfl ⟨(o.symbol, .temporary) :: live, bank₂, ?_, hs₂⟩)
    simpa [Snapshot.emit, instructions] using hw₃.push o.position

/-- Two operands are taken, get their registers and are used up. -/
theorem agrees_operands {left right : Value} {rest : List Value} {δ : Type}
    {f : Register → Register → Compiling Unit} {g : List Instruction × Register × Register → Option δ}
    {Q : Unit → δ → Session → Prop} (hw : Working s v live [] bank)
    (hs : bank.Stacked (held live)) (hv : v.operands = right :: left :: rest)
    (hf : ∀ x live' bank' s',
      Working s' (Snapshot.emit { v with operands := rest } (instructions x.1)) live' [] bank' →
      bank'.Stacked (held live') → Agrees (f x.2.1 x.2.2 s') (g x) Q) :
    Agrees
      ((do
        let right ← Compiling.popOperand
        let left ← Compiling.popOperand
        let a ← Compiling.acquire left
        let b ← Compiling.acquire right
        Compiling.consume left
        Compiling.consume right
        f a b : Compiling Unit) s)
      ((Value.operands? v.declared v.literals (Value.pending rest) left right).bind g) Q := by
  obtain ⟨b, live₁, s₁, rfl, hpop₁, hw₁⟩ := hw.pop hv
  refine .after hpop₁ ?_
  obtain ⟨a, live₂, s₂, rfl, hpop₂, hw₂⟩ := hw₁.pop rfl
  refine .after hpop₂ ?_
  replace hw₂ : Working s₂ { v with operands := rest } live₂
    [(a.symbol, left), (b.symbol, right)] bank := hw₂
  have ha : a.symbol ∉ held live₂ := hw₂.coherent.not_mem_held (_, left) (by simp)
  have hb : b.symbol ∉ held live₂ := hw₂.coherent.not_mem_held (_, right) (by simp)
  rw [hw₂.pending]
  have hboth : ∀ k : Register → Register → Compiling Unit,
      (do let x ← Compiling.acquire a; let y ← Compiling.acquire b; k x y : Compiling Unit) =
        (do let p ← Compiling.acquireBoth a b; k p.1 p.2 : Compiling Unit) := fun k => by
    simp [Compiling.acquireBoth]
  rw [hboth]
  refine .bind (hw₂.acquire_both hs) fun p x s₃ _ hacquired => ?_
  obtain ⟨hp, bank₃, top, hw₃, hs₃, htop⟩ := hacquired
  obtain ⟨s₄, hconsume, hw₄⟩ := hw₃.consume
  refine .after hconsume ?_
  obtain ⟨s₅, hconsume', hw₅⟩ := hw₄.consume
  refine .after hconsume' ?_
  rw [hp]
  exact hf x live₂ _ s₅ hw₅ (hs₃.release_all [a.symbol, b.symbol]
    (by simp [ha, hb]) htop)

theorem refines_compute (h : Represents s v) : Refines (Compiling.compute s) v.compute := by
  obtain ⟨live, bank, hw, hs⟩ := h
  unfold Snapshot.compute
  split
  · next op operators right left rest ho hv =>
    refine .of_agrees ?_
    obtain ⟨s₁, hop, hw₁⟩ := hw.popOperator ho
    refine .after hop ?_
    refine agrees_operands (v := { v with operators }) hw₁ hs hv fun x live' bank' s' hw' hs' => ?_
    simpa [Snapshot.emit, instructions] using agrees_result hw' hs' (.arithmetic op · x.2.1 x.2.2)
  · next op operators right left rest ho hv =>
    split
    · next construct labels hl =>
      refine .of_agrees ?_
      obtain ⟨s₁, hop, hw₁⟩ := hw.popOperator ho
      refine .after hop ?_
      refine agrees_operands (v := { v with operators }) hw₁ hs hv fun x live' bank' s' hw' hs' => ?_
      refine .after (Compiling.currentLabel_ok (hw'.emitter.labels.trans hl)) ?_
      obtain ⟨s₂, hemit₂, hw₂⟩ := hw'.emit (.instruction (.compare x.2.1 x.2.2))
      refine .after hemit₂ ?_
      obtain ⟨s₃, hemit₃, hw₃⟩ := hw₂.emit (.instruction (.branchUnless op (.endOf construct)))
      refine .ok hemit₃ ⟨live', bank', ?_, hs'⟩
      simpa [Snapshot.emit, instructions] using hw₃
    · exact .misused
  · exact .misused

theorem refines_sign (h : Represents s v) : Refines (Compiling.sign s) v.sign := by
  obtain ⟨live, bank, hw, hs⟩ := h
  unfold Snapshot.sign
  split
  · next operators operand rest ho hv =>
    refine .of_agrees (o := some _) ?_
    obtain ⟨s₁, hop, hw₁⟩ := hw.popOperator ho
    refine .after hop ?_
    obtain ⟨o, live₂, s₂, rfl, hpop, hw₂⟩ := hw₁.pop hv
    refine .after hpop (.ok rfl ⟨_, bank, ?_, hs⟩)
    simpa [hv] using hw₂.push o.position
  · next operators operand rest ho hv =>
    refine .of_agrees ?_
    obtain ⟨s₁, hop, hw₁⟩ := hw.popOperator ho
    refine .after hop ?_
    obtain ⟨o, live₂, s₂, rfl, hpop, hw₂⟩ := hw₁.pop hv
    refine .after hpop ?_
    replace hw₂ : Working s₂ { v with operators, operands := rest } live₂
      [(o.symbol, operand)] bank := hw₂
    have ho : o.symbol ∉ held live₂ := hw₂.coherent.not_mem_held (_, operand) (by simp)
    rw [hw₂.pending]
    refine .bind (hw₂.acquire_single operand (by simp) hs ho)
      fun a x s₃ _ hacquired => ?_
    obtain ⟨ha, bank₃, hw₃, hs₃⟩ := hacquired
    obtain ⟨s₄, hconsume, hw₄⟩ := hw₃.consume
    refine .after hconsume ?_
    have hs₄ := hs₃.release_all [o.symbol] (by simp [ho]) (by simp)
    have hresult := agrees_result hw₄ hs₄ (.negate · a)
    rw [hw₄.pending, ha] at hresult
    simpa [Snapshot.emit, instructions, ha] using hresult
  · exact .misused

theorem refines_callPrint (h : Represents s v) :
    Refines (Compiling.callPrint s) v.callPrint := by
  obtain ⟨live, bank, hw, hs⟩ := h
  unfold Snapshot.callPrint
  split
  · next value rest hv =>
    refine .of_agrees ?_
    obtain ⟨o, live₁, s₁, rfl, hpop, hw₁⟩ := hw.pop hv
    refine .after hpop ?_
    have ho : o.symbol ∉ held live₁ := hw₁.coherent.not_mem_held (_, value) (by simp)
    have hlength : Value.pending rest = (held live₁).length := hw₁.pending
    rw [hlength]
    refine .bind (hw₁.acquire_single value (by simp) hs ho)
      fun r x s₂ _ hacquired => ?_
    obtain ⟨hr, bank₂, hw₂, hs₂⟩ := hacquired
    obtain ⟨s₃, hemit₃, hw₃⟩ := hw₂.emit (.instruction .saveScratch)
    refine .after hemit₃ ?_
    obtain ⟨s₄, hemit₄, hw₄⟩ := hw₃.emit (.instruction (.passArgument r))
    refine .after hemit₄ ?_
    obtain ⟨s₅, hemit₅, hw₅⟩ := hw₄.emit (.instruction .callPrintf)
    refine .after hemit₅ ?_
    obtain ⟨s₆, hemit₆, hw₆⟩ := hw₅.emit (.instruction .restoreScratch)
    refine .after hemit₆ ?_
    obtain ⟨s₇, hconsume, hw₇⟩ := hw₆.consume
    have hs₇ := hs₂.release_all [o.symbol] (by simp [ho]) (by simp)
    refine .ok hconsume ⟨live₁, _, ?_, hs₇⟩
    simpa [Snapshot.emit, instructions, printCall, hr] using hw₇
  · exact .misused

theorem refines_declare (h : Represents s v) : Refines (Compiling.declare s) v.declare := by
  obtain ⟨live, bank, hw, hs⟩ := h
  unfold Snapshot.declare
  split
  · next x rest hv =>
    refine .of_agrees ?_
    obtain ⟨o, live₁, s₁, rfl, hpop, hw₁⟩ := hw.pop hv
    refine .after hpop ?_
    refine .after (Compiling.get_ok _) ?_
    have hx : s₁.workspace.symbols.lookup x = some o.symbol :=
      hw₁.coherent.denotes _ List.mem_cons_self
    by_cases hd : x ∈ v.declared
    · obtain ⟨earlier, he⟩ := hw₁.coherent.declare_error o.position hx hd
      simp only [he, hd, if_true]
      exact ⟨_, _, rfl, rfl⟩
    · obtain ⟨slot, table, he, hc⟩ := hw₁.coherent.declare_ok o.position hx hd
      simp only [he, hd, if_false]
      have hw₂ : Working ({ s₁ with workspace.symbols := table }.record (.slotDeclared slot))
          { v with operands := rest, declared := v.declared ++ [x] } live₁ [] bank :=
        { hw₁ with
          emitter := { hw₁.emitter with }
          coherent := hc.of_cons
          accounts := (hw₁.accounts.of_cons_named hx).declare he
          literals := fun hold hm => hw₁.literals hold (.tail _ hm) }
      obtain ⟨s₃, hemit, hw₃⟩ := hw₂.emit (.instruction .reserveSlot)
      have hs' : bank.Stacked (held live₁) := by simpa [held] using hs
      exact .after rfl (.after rfl (.ok hemit ⟨live₁, bank, hw₃, hs'⟩))
  · exact .misused

theorem Represents.emit (h : Represents s v) (line : Line) :
    ∃ s', Compiling.emit .text line s = .ok () s' ∧ Represents s' (v.emit [line]) := by
  obtain ⟨live, bank, hw, hs⟩ := h
  obtain ⟨s', he, hw'⟩ := hw.emit line
  exact ⟨s', he, live, bank, hw', hs⟩

theorem refines_emit (h : Represents s v) (line : Line) :
    Refines (Compiling.emit .text line s) (.ok (v.emit [line])) := by
  obtain ⟨s', he, hr⟩ := h.emit line
  exact .of_agrees (o := some _) (.ok he hr)

theorem refines_emitFor (h : Represents s v) (line : Nat → Line) :
    Refines ((do Compiling.emit .text (line (← Compiling.currentLabel)) : Compiling Unit) s)
      (v.emitFor line) := by
  unfold Snapshot.emitFor
  split
  · next n labels hl =>
    obtain ⟨live, bank, hw, hs⟩ := h
    rw [Compiling.bind_ok (Compiling.currentLabel_ok (hw.emitter.labels.trans hl))]
    exact refines_emit ⟨live, bank, hw, hs⟩ (line n)
  · exact .misused

theorem refines_prologue (h : Represents s v) :
    Refines (Compiling.perform .prologue s) (v.perform .prologue) := by
  simp only [Snapshot.perform]
  split
  · next hl =>
    obtain ⟨live, bank, hw, hs⟩ := h
    refine .of_agrees (o := some _) (.ok rfl ⟨live, bank, ?_, hs⟩)
    exact
      { hw with
        emitter :=
          { labels := hw.emitter.labels
            labelCount := hw.emitter.labelCount
            literals := hw.emitter.literals
            text := by simp [Emitter.lines_emit, hw.emitter.text, Snapshot.emit, openingText]
            data := by
              simp [Emitter.lines_emit, hw.emitter.data, Snapshot.emit, openingData, hl,
                definitions] } }
  · exact .misused

theorem refines_epilogue (h : Represents s v) :
    Refines (Compiling.perform .epilogue s) (v.perform .epilogue) := by
  simp only [Snapshot.perform]
  split
  · next hempty =>
    obtain ⟨live, bank, hw, hs⟩ := h
    obtain ⟨hoperands, hoperators, hlabels⟩ := hempty
    have hdrained : s.isDrained = true := by
      have hlive : live = [] := by simpa [hw.values] using hoperands
      have hsymbols := hw.symbols
      rw [hlive, List.map_nil, List.map_eq_nil_iff] at hsymbols
      simp [Session.isDrained, hsymbols, hw.operators, hoperators, hw.emitter.labels, hlabels]
    refine .of_agrees (o := some _) ?_
    refine .after (Compiling.get_ok s) ?_
    rw [if_pos hdrained]
    obtain ⟨s₁, hemit₁, hw₁⟩ := hw.emit (.instruction .clearResult)
    obtain ⟨s₂, hemit₂, hw₂⟩ := hw₁.emit (.instruction .leaveFrame)
    obtain ⟨s₃, hemit₃, hw₃⟩ := hw₂.emit (.instruction .returnToCaller)
    refine .after hemit₁ (.after hemit₂ (.after hemit₃ (.ok rfl ⟨live, bank, ?_, hs⟩)))
    simpa [Snapshot.emit, closingText] using hw₃
  · exact .misused

theorem refines_closeLabels (h : Represents s v) :
    Refines (Compiling.perform .closeLabels s) (v.perform .closeLabels) := by
  simp only [Snapshot.perform]
  split
  · next n labels hl =>
    obtain ⟨live, bank, hw, hs⟩ := h
    have hn : s.workspace.emitter.labels = n :: labels := hw.emitter.labels.trans hl
    refine .of_agrees (o := some _) ?_
    refine .after (Compiling.get_ok s) ?_
    have hcurrent : s.workspace.emitter.currentLabel? = some n := by
      simp [Emitter.currentLabel?, hn]
    rw [hcurrent]
    refine .ok rfl ⟨live, bank, ?_, hs⟩
    exact
      { hw with
        emitter := { hw.emitter with labels := by simp [Emitter.closeLabel, hn] } }
  · exact .misused

theorem Workspace.releaseAll_empty {w : Workspace} (h : w.registers = {}) : w.releaseAll = w := by
  obtain ⟨symbols, registers, emitter⟩ := w
  cases h
  rfl

/-- Where no result waits, every register is free already. -/
theorem refines_clearRegisters (h : Represents s v) :
    Refines (Compiling.perform .clearRegisters s) (v.perform .clearRegisters) := by
  simp only [Snapshot.perform]
  split
  · next hp =>
    obtain ⟨live, bank, hw, hs⟩ := h
    have hheld : held live = [] := List.eq_nil_of_length_eq_zero (hw.pending.symm.trans hp)
    have hbank : s.workspace.registers = {} := by
      rw [hheld] at hs
      rw [hw.registers, hs.eq_empty]
    refine .of_agrees (o := some _) ?_
    refine .after (Compiling.get_ok s) (.after rfl (.ok rfl ⟨live, bank, ?_, hs⟩))
    change Working { s.record _ with workspace := s.workspace.releaseAll } v live [] bank
    rw [Workspace.releaseAll_empty hbank]
    exact hw.record _
  · exact .misused

theorem refines_perform (h : Represents s v) (a : Action) :
    Refines (Compiling.perform a s) (v.perform a) := by
  cases a with
  | prologue => exact refines_prologue h
  | epilogue => exact refines_epilogue h
  | declare => exact refines_declare h
  | store => exact refines_store h
  | compute => exact refines_compute h
  | sign => exact refines_sign h
  | integerFormat => exact refines_emit h _
  | stringFormat => exact refines_emit h _
  | callPrint => exact refines_callPrint h
  | placeBegin => exact refines_emitFor h fun n => .label (.beginOf n)
  | placeEnd => exact refines_emitFor h fun n => .label (.endOf n)
  | jumpBegin => exact refines_emitFor h fun n => .instruction (.branch (.beginOf n))
  | jumpEnd => exact refines_emitFor h fun n => .instruction (.branch (.endOf n))
  | pushOperator => exact .of_agrees (o := some _) (.ok rfl h)
  | openLabels =>
    obtain ⟨live, bank, hw, hs⟩ := h
    refine .of_agrees (o := some _) (.ok rfl ⟨live, bank, ?_, hs⟩)
    exact
      { hw with
        emitter :=
          { hw.emitter with
            labels := by
              change _ :: _ = _ :: _
              rw [hw.emitter.labels, hw.emitter.labelCount]
            labelCount := congrArg (· + 1) hw.emitter.labelCount } }
  | closeLabels => exact refines_closeLabels h
  | clearRegisters => exact refines_clearRegisters h

/-! ## Moves -/

theorem Working.lookahead {taken : List Holding} (h : Working s v live taken bank) {t : Token}
    {rest : List Token} (ht : v.tokens = t :: rest) : t = s.lookahead.token := by
  obtain ⟨ys, hys, -⟩ := h.lexing
  rw [ht] at hys
  exact (List.cons.inj hys).1

theorem refines_expand (h : Represents s v) (n : Nonterminal) :
    Refines (Compiling.expand n s) (v.expand n) := by
  obtain ⟨live, bank, hw, hs⟩ := h
  unfold Snapshot.expand
  split
  · next t rest ht =>
    have hk : t.kind = s.lookahead.kind := by rw [hw.lookahead ht]; rfl
    rw [hk]
    cases hr : languageTable.rule? n s.lookahead.kind with
    | none =>
      refine .of_agrees (o := none) (.after (Compiling.get_ok s) ?_)
      simp only [hr]
      exact ⟨_, s, rfl, rfl⟩
    | some rule =>
      refine .of_agrees (o := some _) (.after (Compiling.get_ok s) ?_)
      simp only [hr]
      refine .after rfl (.ok rfl ⟨live, bank, ?_, hs⟩)
      exact
        { hw with
          control := congrArg (rule.rhs ++ ·) hw.control
          emitter := { hw.emitter with } }
  · exact .misused

theorem Working.reference (h : Working s v live [] bank) {l : Lexeme} (hk : l.kind = .identifier) :
    Working { s with workspace.symbols := (s.workspace.symbols.reference l).2 } v live [] bank :=
  { h with
    coherent := (h.coherent.reference hk).1
    accounts := h.accounts.reference h.coherent.tidy l }

theorem Working.mention (h : Working s v live [] bank) {l : Lexeme} (hk : l.kind = .identifier) :
    Working
      { s with
        workspace.symbols := (s.workspace.symbols.reference l).2
        operands := ⟨(s.workspace.symbols.reference l).1, l.position⟩ :: s.operands }
      { v with operands := .var l.text :: v.operands }
      (((s.workspace.symbols.reference l).1, .var l.text) :: live) [] bank :=
  { h with
    symbols := congrArg (_ :: ·) h.symbols
    values := congrArg (_ :: ·) h.values
    emitter := { h.emitter with }
    coherent := (h.coherent.reference hk).1.cons_var (h.coherent.reference hk).2
    accounts := (h.accounts.reference h.coherent.tidy l).cons _
    literals := List.forall_mem_cons.mpr ⟨nofun, h.literals⟩ }

theorem Working.literal (h : Working s v live [] bank) (l : Lexeme) (value : Value)
    (hd : (s.workspace.symbols.literal l).2.Denotes (s.workspace.symbols.literal l).1 value)
    (hl : ∀ literal, value = .text literal → literal ∈ v.literals) :
    Working
      { s with
        workspace.symbols := (s.workspace.symbols.literal l).2
        operands := ⟨(s.workspace.symbols.literal l).1, l.position⟩ :: s.operands }
      { v with operands := value :: v.operands }
      (((s.workspace.symbols.literal l).1, value) :: live) [] bank :=
  { h with
    symbols := congrArg (_ :: ·) h.symbols
    values := congrArg (value :: ·) h.values
    emitter := { h.emitter with }
    coherent := h.coherent.literal l hd
    accounts := h.accounts.literal h.coherent.tidy l
    literals := List.forall_mem_cons.mpr ⟨hl, h.literals⟩ }

theorem Represents.shift (h : Represents s v) (l : Lexeme) {v' : Snapshot}
    (hv : v.shift l.token = .ok v') :
    ∃ s', Compiling.shift l s = .ok () s' ∧ Represents s' v' := by
  obtain ⟨live, bank, hw, hs⟩ := h
  obtain ⟨text, kind, position⟩ := l
  unfold Snapshot.shift at hv
  simp only [Lexeme.token] at hv
  split at hv
  · cases hv
    exact ⟨_, rfl, _, bank, hw.mention (l := ⟨text, .identifier, position⟩) rfl,
      by simpa [held] using hs⟩
  · cases hv
    refine ⟨_, rfl, _, bank, hw.literal ⟨text, .number, position⟩ (.number text) ?_ (by simp),
      by simpa [held] using hs⟩
    exact ⟨position, by rw [hw.coherent.symbol_literal]⟩
  · cases hv
    have hw' : Working { s with workspace.emitter := (s.workspace.emitter.intern text).2 }
        { v with literals := intern v.literals text } live [] bank :=
      { hw with
        emitter := hw.emitter.intern text
        literals := fun hold hm literal hl =>
          (prefix_intern v.literals text).subset (hw.literals hold hm literal hl) }
    refine ⟨_, rfl, _, bank,
      hw'.literal ⟨text, .stringConst, position⟩ (.text text) ?_ ?_,
      by simpa [held] using hs⟩
    · exact ⟨position, by rw [hw.coherent.symbol_literal]⟩
    · intro literal he
      cases he
      exact mem_intern _ _
  case h_4 | h_5 | h_6 | h_7 =>
    split at hv
    · next op hop =>
      cases hv
      refine ⟨{ s with operators := op :: s.operators }, ?_, live, bank, ?_, hs⟩
      · simp only [Compiling.shift, hop]
        rfl
      · exact
          { hw with
            operators := congrArg (op :: ·) hw.operators
            emitter := { hw.emitter with } }
    · cases hv
  · cases hv
    refine ⟨s, ?_, live, bank, hw, hs⟩
    cases kind <;> first | rfl | simp_all

/-- Reading a lexeme brings the session to the tokens that it begins. -/
theorem Working.read (h : Working s v live [] bank) {y : Lexeme} {l : Lexer} {ys : List Lexeme}
    (hn : Lexer.next s.lexer = .ok y l) (hf : Lexer.Follows y l ys) :
    ∃ s', Compiling.readLexeme s = .ok y s' ∧
      Working { s' with lookahead := y } { v with tokens := (y :: ys).map Lexeme.token } live []
        bank := by
  refine ⟨{ s with lexer := l }.noteLexeme y, by simp [Compiling.readLexeme, hn], ?_⟩
  have hw : Working { s with lexer := l, lookahead := y }
      { v with tokens := (y :: ys).map Lexeme.token } live [] bank :=
    { h with
      lexing := ⟨ys, rfl, hf⟩
      mode := (Lexer.next_ok h.mode hn).1
      emitter := { h.emitter with } }
  unfold Session.noteLexeme
  split
  · next hk => exact (hw.reference hk).record _
  · exact hw.record _

theorem refines_advance (h : Represents s v) : Refines (Compiling.advance s) v.advance := by
  obtain ⟨live, bank, hw, hs⟩ := h
  obtain ⟨ys, hys, hf⟩ := hw.lexing
  unfold Snapshot.advance
  split
  · next t rest ht =>
    have hk : t.kind = s.lookahead.kind := by rw [hw.lookahead ht]; rfl
    have hrest : rest = ys.map Lexeme.token := by
      rw [ht] at hys
      exact (List.cons.inj hys).2
    rw [hk]
    split
    · next hend =>
      refine .of_agrees (o := some _) (.after (Compiling.get_ok s) ?_)
      simp only [hend, ne_eq, not_true_eq_false, if_false]
      exact .ok rfl ⟨live, bank, hw, hs⟩
    · next hend =>
      split
      · next hnil =>
        refine .of_agrees (o := none) (.after (Compiling.get_ok s) ?_)
        simp only [hend, ne_eq, not_false_eq_true, if_true]
        obtain rfl : ys = [] := by simpa [hnil] using hrest.symm
        cases hf with
        | ended hx => exact absurd hx hend
        | @failed _ _ d l _ hn =>
          have hread : Compiling.readLexeme s = .error d { s with lexer := l } := by
            simp only [Compiling.readLexeme, hn]
          exact ⟨d, _, Compiling.bind_error hread _, Lexer.not_internal_of_next hn⟩
      · next hne =>
        refine .of_agrees (o := some _) (.after (Compiling.get_ok s) ?_)
        simp only [hend, ne_eq, not_false_eq_true, if_true]
        cases hf with
        | ended _ => exact absurd hrest hne
        | failed _ _ => exact absurd hrest hne
        | more _ hn hf =>
          obtain ⟨s', hread, hw'⟩ := hw.read hn hf
          rw [← hrest] at hw'
          exact .after hread (.ok rfl ⟨live, bank, hw', hs⟩)
  · exact .misused

theorem shift_misused {t : Token} {fault : Fault} (h : v.shift t = .error fault) :
    fault = .misused := by
  unfold Snapshot.shift at h
  split at h
  case h_4 | h_5 | h_6 | h_7 =>
    split at h
    · cases h
    · cases h
      rfl
  all_goals cases h

theorem refines_matchTerminal (h : Represents s v) (t : Terminal) :
    Refines (Compiling.matchTerminal t s) (v.matchTerminal t) := by
  obtain ⟨live, bank, hw, hs⟩ := h
  unfold Snapshot.matchTerminal
  split
  · next u rest ht =>
    obtain rfl := hw.lookahead ht
    by_cases hk : s.lookahead.kind = t
    · rw [if_pos (show s.lookahead.token.kind = t from hk)]
      cases hshift : v.shift s.lookahead.token with
      | error fault =>
        rw [shift_misused hshift]
        exact .misused
      | ok v' =>
        have hw' : Working { s with
            workspace.emitter := s.workspace.emitter.moveTo s.lookahead.position }
            v live [] bank :=
          { hw with emitter := { hw.emitter with } }
        obtain ⟨s₁, hs₁, hr₁⟩ :=
          Represents.shift ⟨live, bank, hw'.record (.terminalMatched t s.lookahead.text), hs⟩
            s.lookahead hshift
        intro outcome ho
        refine .after (Compiling.get_ok s) ?_
        simp only [hk, ne_eq, not_true_eq_false, if_false]
        exact .after rfl (.after rfl (.after hs₁ (refines_advance hr₁ outcome ho)))
    · rw [if_neg (show ¬ s.lookahead.token.kind = t from hk)]
      refine .of_agrees (o := none) (.after (Compiling.get_ok s) ?_)
      simp only [hk, ne_eq, not_false_eq_true, if_true]
      exact ⟨_, _, rfl, rfl⟩
  · exact .misused

theorem refines_step (h : Represents s v) (x : GrammarSymbol) :
    Refines (Compiling.step x s) (v.step x) := by
  cases x with
  | terminal t => exact refines_matchTerminal h t
  | nonterminal n => exact refines_expand h n
  | action a =>
    obtain ⟨live, bank, hw, hs⟩ := h
    exact refines_perform ⟨live, bank, hw.record _, hs⟩ a

end OnePass
