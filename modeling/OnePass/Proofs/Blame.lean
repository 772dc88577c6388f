import OnePass.Proofs.Acquisition
import OnePass.Proofs.Recycling

/-! # What a failing action blames

An action that fails because of the program fails because of a value that waited on the operand
stack before it: a variable without a slot, a value for which no register is left, or a variable
that is declared already. An action that ends well leaves values that waited before, and results;
and declarations are made by one action only.
-/
namespace OnePass

variable {distance : String → String → Nat} [NameDistance distance]

namespace SymbolTable

variable {table table' table'' : SymbolTable} {id : SymbolId}

/-! ## Declarations are left as they are -/

/-- The table has evolved without a declaration being made, and the variables keep theirs. -/
structure Spares (table table' : SymbolTable) : Prop extends Evolves table table' where
  kept : table.Steady → ∀ id l, (table.symbol id).lexeme = some l → l.kind = .identifier →
    (table'.symbol id).declaration = (table.symbol id).declaration
  made : ∀ id d, (table'.symbol id).declaration = some d → (table.symbol id).declaration = some d

theorem Spares.refl (table : SymbolTable) : table.Spares table :=
  ⟨.refl table, fun _ _ _ _ _ => rfl, fun _ _ h => h⟩

theorem Spares.trans (h : table.Spares table') (h' : table'.Spares table'') :
    table.Spares table'' where
  toEvolves := h.toEvolves.trans h'.toEvolves
  kept ht id l hl hk :=
    (h'.kept (h.steady ht) id l (h.lexeme ht id l hl hk) hk).trans (h.kept ht id l hl hk)
  made id d hd := h.made id d (h'.made id d hd)

/-- A place that is emptied belonged to no variable. -/
theorem Evolves.spares (h : table.Evolves table')
    (hs : ∀ j, table'.symbol j = table.symbol j ∨ table'.symbol j = {}) : table.Spares table' where
  toEvolves := h
  kept ht j l hl hk := by
    rcases hs j with hj | hj
    · rw [hj]
    · have hlexeme := h.lexeme ht j l hl hk
      rw [hj] at hlexeme
      cases hlexeme
  made j d hd := by
    rcases hs j with hj | hj
    · rwa [hj] at hd
    · rw [hj] at hd
      cases hd

theorem symbol_erase (id j : SymbolId) :
    (table.update id fun _ => {}).symbol j = if j = id then {} else table.symbol j := by
  by_cases hc : table.Contains id
  · exact symbol_update hc _ j
  · rw [update_of_not_contains hc]
    split
    · next he => rw [he, symbol_of_not_contains hc]
    · rfl

theorem symbol_anonymous (table : SymbolTable) (j : SymbolId) :
    table.anonymous.2.symbol j = if j = table.anonymous.1 then {} else table.symbol j := by
  unfold anonymous add
  split
  · exact symbol_erase _ j
  · simp only [SymbolTable.symbol, Array.getElem?_push]
    by_cases hj : j.index = table.symbols.size
    · have he : j = ⟨table.symbols.size⟩ := by
        cases j
        congr
      simp [he]
    · have he : j ≠ ⟨table.symbols.size⟩ := fun he => hj (by rw [he])
      simp [hj, he]

theorem spares_anonymous : table.Spares table.anonymous.2 := by
  apply evolves_anonymous.spares
  intro j
  rw [symbol_anonymous]
  split_ifs
  · exact .inr rfl
  · exact .inl rfl

theorem spares_discard : table.Spares (table.discard id) := by
  apply evolves_discard.spares
  intro j
  unfold discard
  split
  · exact .inl rfl
  · have herase : ({ table.update id fun _ => {} with free := id :: table.free }).symbol j =
        if j = id then {} else table.symbol j := symbol_erase id j
    rw [herase]
    split_ifs
    · exact .inr rfl
    · exact .inl rfl

/-! ## Symbols get registers -/

theorem symbol_setRegister_cases (table : SymbolTable) (id : SymbolId) (r : Option Register)
    (j : SymbolId) : (table.setRegister id r).symbol j = table.symbol j ∨
      j = id ∧ (table.setRegister id r).symbol j = { table.symbol j with register := r } := by
  by_cases hc : table.Contains id
  · by_cases hj : j = id
    · refine .inr ⟨hj, ?_⟩
      rw [setRegister, symbol_update hc, if_pos hj, hj]
    · refine .inl ?_
      rw [setRegister, symbol_update hc, if_neg hj]
  · rw [setRegister, update_of_not_contains hc]
    exact .inl rfl

theorem spares_setRegister (r : Option Register) : table.Spares (table.setRegister id r) := by
  have hdeclaration : ∀ j, ((table.setRegister id r).symbol j).declaration =
      (table.symbol j).declaration := by
    intro j
    rcases table.symbol_setRegister_cases id r j with hj | ⟨-, hj⟩ <;> rw [hj]
  exact ⟨evolves_setRegister r, fun _ j _ _ _ => hdeclaration j,
    fun j _ hd => (hdeclaration j).symm.trans hd⟩

theorem filterMap_modify {α β : Type} {f : α → α} {g : α → Option β} (h : ∀ a, g (f a) = g a)
    (xs : List α) (i : Nat) : (xs.modify i f).filterMap g = xs.filterMap g := by
  induction xs generalizing i with
  | nil => simp
  | cons x xs ih =>
    cases i with
    | zero => simp [List.filterMap_cons, h]
    | succ i => simp [List.filterMap_cons, ih]

/-- The tables differ in registers only, and no symbol has lost its register. -/
structure Binds (table table' : SymbolTable) : Prop where
  spares : table.Spares table'
  lexeme : ∀ id, (table'.symbol id).lexeme = (table.symbol id).lexeme
  declaration : ∀ id, (table'.symbol id).declaration = (table.symbol id).declaration
  register : ∀ id, (table'.symbol id).register = none → (table.symbol id).register = none
  declaredNames : table'.declaredNames = table.declaredNames

theorem Binds.refl (table : SymbolTable) : table.Binds table :=
  ⟨.refl table, fun _ => rfl, fun _ => rfl, fun _ h => h, rfl⟩

theorem Binds.trans (h : table.Binds table') (h' : table'.Binds table'') : table.Binds table'' where
  spares := h.spares.trans h'.spares
  lexeme id := (h'.lexeme id).trans (h.lexeme id)
  declaration id := (h'.declaration id).trans (h.declaration id)
  register id hr := h.register id (h'.register id hr)
  declaredNames := h'.declaredNames.trans h.declaredNames

theorem binds_setRegister (r : Register) : table.Binds (table.setRegister id (some r)) := by
  have hcases := table.symbol_setRegister_cases id (some r)
  refine ⟨spares_setRegister _, fun j => ?_, fun j => ?_, fun j hr => ?_, ?_⟩
  · rcases hcases j with hj | ⟨-, hj⟩ <;> rw [hj]
  · rcases hcases j with hj | ⟨-, hj⟩ <;> rw [hj]
  · rcases hcases j with hj | ⟨-, hj⟩
    · rwa [hj] at hr
    · rw [hj] at hr
      cases hr
  · have hmodify : (table.setRegister id (some r)).symbols.toList =
        table.symbols.toList.modify id.index fun s => { s with register := some r } :=
      Array.toList_modify ..
    rw [SymbolTable.declaredNames, SymbolTable.declaredNames, hmodify]
    apply filterMap_modify
    intro s
    rfl

end SymbolTable

open SymbolTable (Spares)
open Compiling (bind_ok get_ok)

namespace Workspace

variable {w : Workspace} {id : SymbolId} {p : Position} {choice : Acquisition} {d : Diagnostic}

theorem binds_commit (w : Workspace) (id : SymbolId) (choice : Acquisition) :
    w.symbols.Binds (w.commit id choice).symbols := by
  cases choice with
  | held r => exact .refl _
  | fresh r load =>
    rw [commit, bind, symbols_load]
    exact SymbolTable.binds_setRegister r

theorem spares_consume (w : Workspace) (id : SymbolId) :
    w.symbols.Spares (w.consume id).symbols :=
  (SymbolTable.spares_setRegister none).trans SymbolTable.spares_discard

theorem spares_releaseAll (w : Workspace) : w.symbols.Spares w.releaseAll.symbols :=
  List.foldlRecOn _ _ (.refl _) fun _ h _ _ => h.trans (SymbolTable.spares_setRegister _)

def Bound (w : Workspace) : Prop :=
  ∀ id r, (w.symbols.symbol id).register = some r → w.registers.holder r = some id

/-- A register that is chosen holds the symbol then, and the others hold what they held. -/
theorem holder_commit (hb : w.Bound) (h : w.choose id p = .ok choice) :
    (w.commit id choice).registers.holder choice.register = some id ∧
      ∀ q j, w.registers.holder q = some j → (w.commit id choice).registers.holder q = some j := by
  cases choose_ok h with
  | @held r hr => exact ⟨hb id r hr, fun _ _ hq => hq⟩
  | @fresh r load _ hr =>
    have hfree := RegisterBank.holder_of_firstFree? hr
    have hholder : ∀ q, (w.commit id (.fresh r load)).registers.holder q =
        if q = r then some id else w.registers.holder q := by
      intro q
      rw [commit, bind, registers_load, RegisterBank.holder_bind]
    refine ⟨(hholder r).trans (if_pos rfl), fun q j hq => ?_⟩
    rw [hholder, if_neg, hq]
    rintro rfl
    rw [hfree] at hq
    cases hq

theorem Bound.commit (hb : w.Bound) (h : w.choose id p = .ok choice) :
    (w.commit id choice).Bound := by
  obtain ⟨hheld, hkept⟩ := holder_commit hb h
  intro j q hj
  cases choose_ok h with
  | held => exact hb j q hj
  | @fresh r =>
    rw [Workspace.commit, bind, symbols_load] at hj
    rcases w.symbols.symbol_setRegister_cases id (some r) j with hsame | ⟨rfl, hnew⟩
    · rw [hsame] at hj
      exact hkept q j (hb j q hj)
    · rw [hnew] at hj
      obtain rfl : r = q := Option.some.inj hj
      exact hheld

theorem firstFree?_isSome {bank : RegisterBank SymbolId} {r : Register} (h : bank.holder r = none) :
    bank.firstFree?.isSome = true := by
  rw [Option.isSome_iff_ne_none]
  intro hnone
  simpa [h] using RegisterBank.firstFree?_eq_none.mp hnone r

end Workspace

/-! ## What is blamed -/

/-- The diagnostic is about a value that waits: a variable without a slot, or a value without a
register where none is left. -/
inductive Session.Blames (s : Session) : Diagnostic → Prop
  | undefined {o l} : o ∈ s.operands → (s.workspace.symbols.symbol o.symbol).lexeme = some l →
    l.kind ≠ .number → l.kind ≠ .stringConst →
    (s.workspace.symbols.symbol o.symbol).slot? = none →
    Blames s (s.workspace.undefined o.symbol o.position)
  | exhausted {o} : o ∈ s.operands → (s.workspace.symbols.symbol o.symbol).register = none →
    Blames s (.located (.registersExhausted registerCount) o.position)

/-- What waits has waited before or is a result, and the declarations are as before. -/
structure Session.Leaves (s s' : Session) : Prop where
  operands : ∀ o ∈ s'.operands,
    o ∈ s.operands ∨ (s'.workspace.symbols.symbol o.symbol).lexeme = none
  symbols : s.workspace.symbols.Spares s'.workspace.symbols

/-- The second session is the first one while its operands are taken and loaded. -/
structure Session.Loading (s₀ s : Session) : Prop where
  operands : ∀ o ∈ s.operands, o ∈ s₀.operands
  binds : s₀.workspace.symbols.Binds s.workspace.symbols
  bound : s.workspace.Bound

variable {s₀ s s' : Session} {o : Operand} {d : Diagnostic}

theorem Session.Leaves.extend (h : s₀.Leaves s) (ho : s'.operands = s.operands)
    (hs : s.workspace.symbols.Spares s'.workspace.symbols) : s₀.Leaves s' where
  operands := by
    intro o hm
    refine (h.operands o (ho ▸ hm)).imp_right fun hnone => ?_
    cases hl : (s'.workspace.symbols.symbol o.symbol).lexeme with
    | none => rfl
    | some l =>
      rw [hs.origin _ l hl] at hnone
      exact hnone
  symbols := h.symbols.trans hs

namespace Session.Loading

theorem leaves (h : s₀.Loading s) : s₀.Leaves s :=
  ⟨fun o ho => .inl (h.operands o ho), h.binds.spares⟩

theorem undefined_eq (h : s₀.Loading s) (id : SymbolId) (p : Position) :
    s.workspace.undefined id p = s₀.workspace.undefined id p := by
  simp only [Workspace.undefined, Symbol.name?, h.binds.lexeme, SymbolTable.suggest,
    h.binds.declaredNames]

/-- A variable without a slot is blamed as it was before anything was loaded. -/
theorem blames_undefined {l : Lexeme} (h : s₀.Loading s) (ho : o ∈ s₀.operands)
    (hl : (s.workspace.symbols.symbol o.symbol).lexeme = some l) (hnumber : l.kind ≠ .number)
    (hstring : l.kind ≠ .stringConst)
    (hslot : (s.workspace.symbols.symbol o.symbol).slot? = none) :
    s₀.Blames (s.workspace.undefined o.symbol o.position) := by
  rw [h.undefined_eq]
  refine .undefined ho ((h.binds.lexeme _).symm.trans hl) hnumber hstring ?_
  rw [Symbol.slot?, ← h.binds.declaration]
  exact hslot

theorem blames (h : s₀.Loading s) (ho : o ∈ s₀.operands)
    (he : s.workspace.choose o.symbol o.position = .error d) : s₀.Blames d := by
  cases Workspace.choose_error he with
  | exhausted hregister => exact .exhausted ho (h.binds.register _ hregister)
  | undefined _ _ hslotless =>
    obtain ⟨hslot, l, hl, hnumber, hstring⟩ := hslotless
    exact h.blames_undefined ho hl hnumber hstring hslot

end Session.Loading

/-! ## Parts of actions -/

/-- The computation ends as wanted, or it fails and blames what waited. It may also find that a
stack was used out of order. -/
def Settles {α : Type} (s : Session) (wanted : α → Session → Prop)
    (result : EStateM.Result Diagnostic Session α) : Prop :=
  match result with
  | .ok a s' => wanted a s'
  | .error d _ => d.cause.isInternal = true ∨ s.Blames d

namespace Settles

open Compiling (bind_error)

variable {α β : Type} {x : Compiling α} {f : α → Compiling β} {wanted : α → Session → Prop}
  {wanted' : β → Session → Prop}

theorem bind (h : Settles s₀ wanted (x s))
    (hf : ∀ a s', wanted a s' → Settles s₀ wanted' (f a s')) :
    Settles s₀ wanted' ((x >>= f) s) := by
  cases hx : x s with
  | ok a s' =>
    rw [bind_ok hx]
    rw [hx] at h
    exact hf a s' h
  | error d s' =>
    rw [bind_error hx]
    rw [hx] at h
    exact h

theorem popOperand (h : s₀.Loading s) :
    Settles s₀ (fun o s' => o ∈ s₀.operands ∧ s₀.Loading s' ∧ s.operands = o :: s'.operands ∧
      s'.workspace = s.workspace) (Compiling.popOperand s) := by
  rw [Compiling.popOperand, bind_ok (get_ok s)]
  cases ho : s.operands with
  | nil => exact .inl rfl
  | cons o rest =>
    have hmem : ∀ o' ∈ o :: rest, o' ∈ s₀.operands := ho ▸ h.operands
    have hloading : s₀.Loading { s with operands := rest } :=
      ⟨fun o' ho' => hmem o' (.tail _ ho'), h.binds, h.bound⟩
    exact ⟨hmem o List.mem_cons_self, hloading, rfl, rfl⟩

theorem popOperator (h : s₀.Loading s) :
    Settles s₀ (fun _ s' => s₀.Loading s' ∧ s'.operands = s.operands ∧ s'.workspace = s.workspace)
      (Compiling.popOperator s) := by
  rw [Compiling.popOperator, bind_ok (get_ok s)]
  cases s.operators with
  | nil => exact .inl rfl
  | cons op rest =>
    have hloading : s₀.Loading { s with operators := rest } := ⟨h.operands, h.binds, h.bound⟩
    exact ⟨hloading, rfl, rfl⟩

theorem currentLabel (h : s₀.Leaves s) :
    Settles s₀ (fun _ s' => s₀.Leaves s') (Compiling.currentLabel s) := by
  rw [Compiling.currentLabel, bind_ok (get_ok s)]
  cases s.workspace.emitter.currentLabel? with
  | none => exact .inl rfl
  | some n => exact h

/-- An operand is in a register then, and so is what was in one before; or the operand is
blamed. -/
theorem acquire (h : s₀.Loading s) (ho : o ∈ s₀.operands) :
    Settles s₀ (fun r s' => s₀.Loading s' ∧ s'.workspace.registers.holder r = some o.symbol ∧
      ∀ q id, s.workspace.registers.holder q = some id →
        s'.workspace.registers.holder q = some id) (Compiling.acquire o s) := by
  unfold Compiling.acquire
  cases hchoose : s.workspace.choose o.symbol o.position with
  | error d => exact .inr (h.blames ho hchoose)
  | ok choice =>
    obtain ⟨hheld, hkept⟩ := Workspace.holder_commit h.bound hchoose
    have hbinds := h.binds.trans (s.workspace.binds_commit o.symbol choice)
    have hbound := h.bound.commit hchoose
    cases choice with
    | held r => exact ⟨⟨h.operands, hbinds, hbound⟩, hheld, hkept⟩
    | fresh r load => exact ⟨⟨h.operands, hbinds, hbound⟩, hheld, hkept⟩

theorem instruction (h : s₀.Leaves s) (i : Instruction) :
    Settles s₀ (fun _ s' => s₀.Leaves s') (Compiling.instruction i s) :=
  h.extend rfl (.refl _)

theorem consume (h : s₀.Leaves s) (o : Operand) :
    Settles s₀ (fun _ s' => s₀.Leaves s' ∧
      s'.workspace.registers = s.workspace.registers.release o.symbol) (Compiling.consume o s) :=
  ⟨h.extend rfl (s.workspace.spares_consume o.symbol), rfl⟩

theorem result {r : Register} (h : s₀.Leaves s) (hr : s.workspace.registers.holder r = none)
    (i : Register → Instruction) :
    Settles s₀ (fun _ s' => s₀.Leaves s') ((do
      let result ← Compiling.temporary
      let r ← Compiling.acquire result
      Compiling.instruction (i r)
      Compiling.pushOperand result : Compiling Unit) s) := by
  let w : Workspace := { s.workspace with symbols := s.workspace.symbols.anonymous.2 }
  let o : Operand := ⟨s.workspace.symbols.anonymous.1, s.position⟩
  have hempty : w.symbols.symbol o.symbol = {} := by
    rw [SymbolTable.symbol_anonymous, if_pos rfl]
  obtain ⟨q, hq⟩ := Option.isSome_iff_exists.mp (Workspace.firstFree?_isSome hr)
  have hchoose : w.choose o.symbol o.position = .ok (.fresh q .computed) := by
    rw [Workspace.choose, hempty, Workspace.loadOf, hempty]
    simp only [w, hq]
    rfl
  have hacquire : Compiling.acquire o { s with workspace := w } = .ok q
      ({ s with workspace := w.commit o.symbol (.fresh q .computed) }.record
        (.registerBound q o.symbol)) := by
    simp only [Compiling.acquire, hchoose]
  have hbinds := w.binds_commit o.symbol (.fresh q .computed)
  have hleaves : s₀.Leaves { s with workspace := w.commit o.symbol (.fresh q .computed) } :=
    h.extend rfl (SymbolTable.spares_anonymous.trans hbinds.spares)
  have hlexeme : ((w.commit o.symbol (.fresh q .computed)).symbols.symbol o.symbol).lexeme =
      none := by
    rw [hbinds.lexeme, hempty]
  have htemporary : Compiling.temporary s = .ok o { s with workspace := w } := rfl
  rw [bind_ok htemporary, bind_ok hacquire]
  exact ⟨List.forall_mem_cons.mpr ⟨.inr hlexeme, hleaves.operands⟩, hleaves.symbols⟩

end Settles

/-! ## Actions -/

theorem settles_callPrint (h : s₀.Loading s) :
    Settles s₀ (fun _ s' => s₀.Leaves s') (Compiling.callPrint s) := by
  refine .bind (.popOperand h) fun value s₁ ⟨hvalue, h₁, _⟩ => ?_
  refine .bind (.acquire h₁ hvalue) fun r s₂ ⟨h₂, _⟩ => ?_
  refine .bind (.instruction h₂.leaves _) fun _ s₃ h₃ => ?_
  refine .bind (.instruction h₃ _) fun _ s₄ h₄ => ?_
  refine .bind (.instruction h₄ _) fun _ s₅ h₅ => ?_
  refine .bind (.instruction h₅ _) fun _ s₆ h₆ => ?_
  exact h₆.extend rfl (s₆.workspace.spares_consume value.symbol)

/-- The target of an assignment is blamed before the value is. -/
theorem settles_store (h : s₀.Loading s)
    (hnamed : ∀ value target rest, s.operands = value :: target :: rest →
      ∃ l, (s.workspace.symbols.symbol target.symbol).lexeme = some l ∧ l.kind = .identifier) :
    Settles s₀ (fun _ s' => s₀.Leaves s') (Compiling.store s) := by
  refine .bind (.popOperand h) fun value s₁ ⟨hvalue, h₁, hs, hw₁⟩ => ?_
  refine .bind (.popOperand h₁) fun target s₂ ⟨htarget, h₂, hs₁, hw₂⟩ => ?_
  refine .bind (.popOperator h₂) fun op s₃ ⟨h₃, _, hw₃⟩ => ?_
  by_cases hop : op = .assign
  · simp only [hop, ne_eq, not_true_eq_false, if_false]
    rw [bind_ok (get_ok s₃)]
    cases hslot : (s₃.workspace.symbols.symbol target.symbol).slot? with
    | none =>
      obtain ⟨l, hl, hk⟩ := hnamed value target s₂.operands (by rw [hs, hs₁])
      rw [← hw₁, ← hw₂, ← hw₃] at hl
      exact .inr (h₃.blames_undefined htarget hl (by simp [hk]) (by simp [hk]) hslot)
    | some slot =>
      refine .bind (.acquire h₃ hvalue) fun r s₄ ⟨h₄, _⟩ => ?_
      refine .bind (.instruction h₄.leaves _) fun _ s₅ h₅ => ?_
      refine .bind (.consume h₅ value) fun _ s₆ ⟨h₆, _⟩ => ?_
      exact h₆.extend rfl (s₆.workspace.spares_consume target.symbol)
  · simp only [hop, ne_eq, not_false_eq_true, if_true]
    exact .inl rfl

theorem settles_sign (h : s₀.Loading s) :
    Settles s₀ (fun _ s' => s₀.Leaves s') (Compiling.sign s) := by
  refine .bind (.popOperator h) fun op s₁ ⟨h₁, _⟩ => ?_
  refine .bind (.popOperand h₁) fun value s₂ ⟨hvalue, h₂, _⟩ => ?_
  split
  · exact ⟨List.forall_mem_cons.mpr ⟨.inl hvalue, h₂.leaves.operands⟩, h₂.leaves.symbols⟩
  · refine .bind (.acquire h₂ hvalue) fun a s₃ ⟨h₃, ha, _⟩ => ?_
    refine .bind (.consume h₃.leaves value) fun _ s₄ ⟨h₄, hr⟩ => ?_
    -- The operand has left its register to the result.
    have hfree : s₄.workspace.registers.holder a = none := by
      rw [hr, RegisterBank.holder_release, if_pos ha]
    exact .result h₄ hfree _
  · exact .inl rfl

theorem settles_compute (h : s₀.Loading s) :
    Settles s₀ (fun _ s' => s₀.Leaves s') (Compiling.compute s) := by
  refine .bind (.popOperator h) fun op s₁ ⟨h₁, _⟩ => ?_
  refine .bind (.popOperand h₁) fun right s₂ ⟨hright, h₂, _⟩ => ?_
  refine .bind (.popOperand h₂) fun left s₃ ⟨hleft, h₃, _⟩ => ?_
  refine .bind (.acquire h₃ hleft) fun a s₄ ⟨h₄, ha, _⟩ => ?_
  refine .bind (.acquire h₄ hright) fun b s₅ ⟨h₅, _, hkept⟩ => ?_
  refine .bind (.consume h₅.leaves left) fun _ s₆ ⟨h₆, hr₆⟩ => ?_
  refine .bind (.consume h₆ right) fun _ s₇ ⟨h₇, hr₇⟩ => ?_
  have hleft₆ : s₆.workspace.registers.holder a = none := by
    rw [hr₆, RegisterBank.holder_release, if_pos (hkept a _ ha)]
  have hfree : s₇.workspace.registers.holder a = none := by
    rw [hr₇, RegisterBank.holder_release, hleft₆]
    rfl
  split
  · refine .bind (.currentLabel h₇) fun n s₈ h₈ => ?_
    refine .bind (.instruction h₈ _) fun _ s₉ h₉ => ?_
    exact h₉.extend rfl (.refl _)
  · exact .result h₇ hfree _
  · exact .inl rfl

/-- A variable is declared where it was matched, unless it is declared already. -/
theorem declare_cases {rest : List Operand} (ho : s.operands = o :: rest) :
    (∃ earlier s', (s.workspace.symbols.symbol o.symbol).declaration = some earlier ∧
      Compiling.declare s = .error (.located (.redeclaration
        ((s.workspace.symbols.symbol o.symbol).name?.getD "") earlier.site) o.position) s') ∨
    (s.workspace.symbols.symbol o.symbol).declaration = none ∧
      ∃ slot s', Compiling.declare s = .ok () s' ∧ s'.operands = rest ∧
        s'.workspace.symbols = { s.workspace.symbols.update o.symbol fun x =>
          { x with declaration := some ⟨slot, o.position⟩ } with declared := slot } := by
  rw [Compiling.declare, bind_ok (Compiling.popOperand_ok ho), bind_ok (get_ok _)]
  simp only [SymbolTable.declare]
  cases (s.workspace.symbols.symbol o.symbol).declaration with
  | some earlier => exact .inl ⟨earlier, _, rfl, rfl⟩
  | none => exact .inr ⟨rfl, _, _, rfl, rfl, rfl⟩

/-- An action other than the one that makes declarations makes none. -/
theorem settles_perform {a : Action} (h : s₀.Loading s) (ha : a ≠ .declare)
    (hnamed : a = .store → ∀ value target rest, s.operands = value :: target :: rest →
      ∃ l, (s.workspace.symbols.symbol target.symbol).lexeme = some l ∧ l.kind = .identifier) :
    Settles s₀ (fun _ s' => s₀.Leaves s') (Compiling.perform a s) := by
  have hleaves := h.leaves
  cases a with
  | declare => exact absurd rfl ha
  | store => exact settles_store h (hnamed rfl)
  | compute => exact settles_compute h
  | sign => exact settles_sign h
  | callPrint => exact settles_callPrint h
  | prologue | integerFormat | stringFormat | openLabels | pushOperator =>
    exact hleaves.extend rfl (.refl _)
  | clearRegisters => exact hleaves.extend rfl s.workspace.spares_releaseAll
  | placeBegin | placeEnd | jumpBegin | jumpEnd =>
    exact .bind (.currentLabel hleaves) fun n s₁ h₁ => h₁.extend rfl (.refl _)
  | closeLabels =>
    change Settles s₀ _ (Compiling.closeLabel s)
    rw [Compiling.closeLabel, bind_ok (get_ok s)]
    cases s.workspace.emitter.currentLabel? with
    | none => exact .inl rfl
    | some n => exact hleaves.extend rfl (.refl _)
  | epilogue =>
    change Settles s₀ _ (Compiling.epilogue s)
    rw [Compiling.epilogue, bind_ok (get_ok s)]
    split_ifs
    · exact hleaves.extend rfl (.refl _)
    · exact .inl rfl

end OnePass
