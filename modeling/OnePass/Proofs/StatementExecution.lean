import OnePass.Proofs.ExpressionExecution
import OnePass.Proofs.Need
import OnePass.Proofs.Placement

/-! # Execution of statements

The machine is in step with a program on its way if its place in the text carries out what is still
to be done, and its cells, output and frame are those of the store. Entering a statement keeps them
in step: the machine takes the steps of the statement's code and accesses the slots of the names that
the statement uses.
-/
namespace OnePass

variable {p : Platform} {text data : List Line} {literals declared : List String} {m m' : Machine}

/-! ## Places in the text -/

/-- From the index on, the text carries out the statements and then closes. A place may also lead to
them by a branch or past a label. -/
inductive Continues (text : List Line) (literals declared : List String) :
    Nat → List Statement → Prop where
  | close {n : Nat} : Located text n closingText → Continues text literals declared n []
  | statement {n : Nat} {s : Statement} {rest : List Statement} {before : Progress}
      {x : List Line × Progress} : s.code literals before = some x → x.2.declared <+: declared →
      Located text n x.1 → Continues text literals declared (n + x.1.length) rest →
      Continues text literals declared n (s :: rest)
  | branch {n n' : Nat} {l : CodeLabel} {todo : List Statement} :
      text[n]? = some (.instruction (.branch l)) → text[n']? = some (.label l) →
      Continues text literals declared n' todo → Continues text literals declared n todo
  | label {n : Nat} {l : CodeLabel} {todo : List Statement} : text[n]? = some (.label l) →
      Continues text literals declared (n + 1) todo → Continues text literals declared n todo

def Ready (text : List Line) (literals declared : List String) (n : Nat) : List Statement → Prop
  | [] => Located text n closingText
  | s :: rest => ∃ before x, s.code literals before = some x ∧ x.2.declared <+: declared ∧
      Located text n x.1 ∧ Continues text literals declared (n + x.1.length) rest

/-- The machine gets past branches and labels to the code of what is to be done next. -/
theorem Continues.exists_ready {n : Nat} {todo : List Statement} (hd : (labelsIn text).Nodup)
    (h : Continues text literals declared n todo) (hn : m.line = n) (hrun : m.halted = false) :
    ∃ ms n', Passage p text m ms (m.goto n') [] ∧ Ready text literals declared n' todo := by
  induction h generalizing m with
  | close hclose =>
    subst hn
    exact ⟨[], m.line, .here m, hclose⟩
  | statement hcode hextended hlocated hrest _ =>
    subst hn
    exact ⟨[], m.line, .here m, _, _, hcode, hextended, hlocated, hrest⟩
  | @branch n n' l todo hline htarget _ ih =>
    subst hn
    have hsuccessor : m.successor text (.instruction (.branch l)) = some n' :=
      (Machine.successor_of_target? rfl).trans (idxOf?_label hd htarget)
    have hfirst : Passage p text m [m] (m.goto n') [] := .single hline hrun hsuccessor
    obtain ⟨ms, n'', hpassage, hready⟩ := ih (m := m.goto n') rfl hrun
    exact ⟨_, n'', hfirst.trans (Machine.Steady.refl m).goto hpassage, hready⟩
  | @label n l todo hline _ ih =>
    subst hn
    have hfirst : Passage p text m [m] (m.goto (m.line + 1)) [] := .straight hline hrun rfl
    obtain ⟨ms, n'', hpassage, hready⟩ := ih (m := m.goto (m.line + 1)) rfl hrun
    exact ⟨_, n'', hfirst.trans (Machine.Steady.refl m).goto hpassage, hready⟩

/-- The statements of a sequence are carried out one behind the other. -/
theorem Sequence.continues {n : Nat} {rest : List Statement} (b : Sequence) {before : Progress}
    {x : List Line × Progress} (h : b.code literals before = some x)
    (hp : x.2.declared <+: declared) (hl : Located text n x.1)
    (hr : Continues text literals declared (n + x.1.length) rest) :
    Continues text literals declared n (b.statements ++ rest) := by
  match b with
  | .last s => exact .statement h hp hl hr
  | .more s b =>
    rw [Sequence.code_more] at h
    obtain ⟨y, hy, h⟩ := Option.bind_eq_some_iff.mp h
    obtain ⟨z, hz, h⟩ := Option.bind_eq_some_iff.mp h
    cases h
    have hextended : y.2.declared <+: z.2.declared := ⟨_, (b.spans hz).declared.symm⟩
    rw [located_append] at hl
    rw [List.length_append, ← Nat.add_assoc] at hr
    exact .statement hy (hextended.trans hp) hl.1 (b.continues hz hp hl.2 hr)

theorem prefix_declared {s : Statement} {before : Progress} {x : List Line × Progress}
    (h : s.code literals before = some x) : before.declared <+: x.2.declared :=
  ⟨_, (s.spans h).declared.symm⟩

/-! ## States in step -/

/-- The two states agree on everything but registers, flags and the place in the text. -/
structure Machine.Alike (m m' : Machine) : Prop extends m.Steady m' where
  cells : m'.cells = m.cells
  halted : m'.halted = m.halted

theorem Machine.Alike.trans {m'' : Machine} (h : m.Alike m') (h' : m'.Alike m'') : m.Alike m'' where
  toSteady := h.toSteady.trans h'.toSteady
  cells := h'.cells.trans h.cells
  halted := h'.halted.trans h.halted

structure Reflects (data : List Line) (declared : List String) (m : Machine) (σ : Store) : Prop where
  running : m.halted = false
  cells : m.Holds declared σ.values
  output : m.output.map (printed? data) = σ.output.map some
  reserved : m.reserved = σ.declarations
  stack : m.sp = m.fp - 4 * m.reserved

/-- The machine reflects the store, and its place carries out what is still to be done. -/
structure InStep (text data : List Line) (literals declared : List String) (m : Machine)
    (c : Activity) : Prop where
  reflects : Reflects data declared m c.store
  place : Continues text literals declared m.line c.todo

theorem Reflects.alike {σ : Store} (h : Reflects data declared m σ) (ha : m.Alike m') :
    Reflects data declared m' σ where
  running := ha.halted.trans h.running
  cells x slot hslot := (congrFun ha.cells slot).trans (h.cells x slot hslot)
  output := ha.output ▸ h.output
  reserved := ha.reserved.trans h.reserved
  stack := by rw [ha.sp, ha.fp, ha.reserved, h.stack]

theorem alike_execute {is : List Instruction} (h : ∀ i ∈ is, i.isComputation = true) (m : Machine) :
    m.Alike (execute p is m) := by
  rw [execute_of_isComputation h]
  exact ⟨⟨rfl, rfl, rfl, rfl⟩, rfl, rfl⟩

theorem alike_selectFormat (format : DataLabel) (m : Machine) :
    m.Alike ((Instruction.selectFormat format).effect p m) :=
  ⟨⟨rfl, rfl, rfl, rfl⟩, rfl, rfl⟩

/-- In at least `least` steps, the machine gets in step with the program on its way, and the slots
that it accesses are those of the names. -/
def Arrives (p : Platform) (text data : List Line) (literals declared : List String) (least : Nat)
    (names : List String) (m : Machine) (c : Activity) : Prop :=
  ∃ ms m' slots, Passage p text m ms m' slots ∧ least ≤ ms.length ∧
    InStep text data literals declared m' c ∧
    ∀ slot, slot ∈ slots ↔ ∃ x ∈ names, slot? declared x = some slot

/-- Names that were declared early have the slots that they had then. -/
theorem exists_slot?_iff_of_extended {known names : List String} (hp : known <+: declared)
    (hn : ∀ x ∈ names, x ∈ known) (slot : Nat) :
    (∃ x ∈ names, slot? known x = some slot) ↔ ∃ x ∈ names, slot? declared x = some slot := by
  constructor
  · rintro ⟨x, hx, hslot⟩
    exact ⟨x, hx, slot?_of_extended hp (hn x hx) ▸ hslot⟩
  · rintro ⟨x, hx, hslot⟩
    exact ⟨x, hx, (slot?_of_extended hp (hn x hx)).symm ▸ hslot⟩

theorem Machine.Holds.of_extended {known : List String} {values : String → BitVec 32}
    (h : m.Holds declared values) (hp : known <+: declared) : m.Holds known values := by
  intro x slot hslot
  have hx : x ∈ known := isSome_slot?.mp (by rw [hslot]; rfl)
  exact h x slot (slot?_of_extended hp hx ▸ hslot)

/-! ## Assignments -/

section

variable {known : List String} {values : String → BitVec 32} {e : Expr} {code : List Instruction}
  {y : List Instruction × Register}

theorem Expr.mem_accessed_use (hc : e.code known 0 = some code)
    (hy : e.value.operand? known [] 0 = some y) (slot : Nat) :
    slot ∈ accessed (code ++ y.1) ↔ ∃ x ∈ e.vars, slot? known x = some slot := by
  rw [accessed_append, List.mem_append, Value.mem_accessed_load? (Value.exists_of_operand? hy).2,
    e.mem_accessed_code hc]

theorem Expr.work_of_use (hc : e.code known 0 = some code)
    (hy : e.value.operand? known [] 0 = some y) (hm : m.Holds known values) :
    (∀ i ∈ code ++ y.1, i.isComputation = true) ∧
      (execute p (code ++ y.1) m).work y.2 = .word (e.eval p.quotient values) := by
  obtain ⟨hr, hload⟩ := Value.exists_of_operand? hy
  have he : e.Evaluated p values 0 m code := e.evaluated_of_code hc hm
  refine ⟨List.forall_mem_append.mpr ⟨he.computation, Value.isComputation_of_load? hload⟩, ?_⟩
  rw [execute_append]
  exact e.work_of_load? hload (hm.execute he.computation) fun ht => he.result ht _ hr

end

theorem arrives_assign {σ : Store} {x : String} {e : Expression} {before : Progress}
    {y : List Line × Progress} {rest : List Statement} (h : Reflects data declared m σ)
    (hc : (Statement.assign x e).code literals before = some y) (hp : y.2.declared <+: declared)
    (hl : Located text m.line y.1)
    (hr : Continues text literals declared (m.line + y.1.length) rest) :
    Arrives p text data literals declared 1 (Statement.assign x e).uses m
      ⟨rest, σ.assign x (e.eval p.quotient σ.values)⟩ := by
  have hbound := (Statement.isSome_assign.mp (by rw [hc]; rfl)).2
  rw [Statement.code_assign] at hc
  obtain ⟨code, hcode, hc⟩ := Option.bind_eq_some_iff.mp hc
  obtain ⟨slot, hslot, hc⟩ := Option.bind_eq_some_iff.mp hc
  obtain ⟨z, hz, hc⟩ := Option.bind_eq_some_iff.mp hc
  cases hc
  obtain ⟨hcomputation, hwork⟩ := Expr.work_of_use (p := p) hcode hz (h.cells.of_extended hp)
  have hquiet : ∀ i ∈ code ++ z.1 ++ [.storeVariable z.2 slot], i.isQuiet = true := by
    rw [List.forall_mem_append]
    exact ⟨fun i hi => Instruction.isQuiet_of_isComputation (hcomputation i hi),
      by simp [Instruction.isQuiet]⟩
  obtain ⟨ms, hms, hpassage⟩ := exists_passage_of_isQuiet (p := p) hquiet hl h.running
  have hslot' : slot? declared x = some slot := slot?_of_extended hp hbound.1 ▸ hslot
  refine ⟨ms, _, _, hpassage, ?_, ⟨?_, ?_⟩, fun slot' => ?_⟩
  · rw [hms, List.length_append]
    exact Nat.le_add_left _ _
  · rw [execute_append]
    have hafter : Reflects data declared (execute p (code ++ z.1) m) σ :=
      h.alike (alike_execute hcomputation m)
    refine { hafter with cells := fun w slot' hw => ?_ }
    change Function.update (execute p (code ++ z.1) m).cells slot
        (p.wordOf ((execute p (code ++ z.1) m).work z.2)) slot' =
      Function.update σ.values x (e.eval p.quotient σ.values) w
    rw [hwork, Platform.wordOf, Expression.eval_expr]
    by_cases hwx : w = x
    · subst hwx
      obtain rfl : slot = slot' := Option.some.inj (hslot'.symm.trans hw)
      rw [Function.update_self, Function.update_self]
    · have hne : slot' ≠ slot := fun he => hwx (eq_of_slot? (he ▸ hw) hslot')
      rw [Function.update_of_ne hne, Function.update_of_ne hwx]
      exact hafter.cells w slot' hw
  · rw [length_instructions] at hr
    exact hr
  · have hstore : accessed [.storeVariable z.2 slot] = [slot] := rfl
    rw [accessed_append, List.mem_append, Expr.mem_accessed_use hcode hz,
      exists_slot?_iff_of_extended hp hbound.2, hstore, List.mem_singleton]
    simp [Statement.uses, hslot', or_comm, eq_comm]

/-! ## Prints -/

/-- The call prints what is in the register and leaves the frame as it was. -/
theorem exists_passage_printCall {r : Register}
    (hl : Located text m.line (instructions (printCall r))) (hrun : m.halted = false) :
    ∃ ms m', Passage p text m ms m' [] ∧ m'.line = m.line + 4 ∧
      m'.output = m.output ++ [(m.scratch.r0, m.work r)] ∧ m'.cells = m.cells ∧
      m'.halted = false ∧ m'.reserved = m.reserved ∧ m'.sp = m.sp ∧ m'.fp = m.fp := by
  obtain ⟨hsave, hpass, hcall, hrestore, -⟩ := hl
  let m₁ := (Instruction.saveScratch.effect p m).goto (m.line + 1)
  let m₂ := ((Instruction.passArgument r).effect p m₁).goto (m.line + 2)
  let m₃ := (Instruction.callPrintf.effect p m₂).goto (m.line + 3)
  let m₄ := (Instruction.restoreScratch.effect p m₃).goto (m.line + 4)
  have h₁ : Passage p text m [m] m₁ [] := .straight hsave hrun rfl
  have h₂ : Passage p text m₁ [m₁] m₂ [] := .straight hpass (show m₁.halted = false from hrun) rfl
  have h₃ : Passage p text m₂ [m₂] m₃ [] := .straight hcall (show m₂.halted = false from hrun) rfl
  have h₄ : Passage p text m₃ [m₃] m₄ [] := .straight hrestore (show m₃.halted = false from hrun) rfl
  -- The output changes once on the way, from its first to its last state.
  have hpassage := (h₁.append h₂ (.inl rfl) (.inl rfl)).append
    (h₃.append h₄ (.inr rfl) (.inl rfl)) (.inl rfl) (.inl rfl)
  exact ⟨_, m₄, hpassage, rfl, rfl, rfl, hrun, rfl, Int.sub_add_cancel m.sp 16, rfl⟩

/-- Quiet instructions bring a value into a register and choose its format; then it is printed. -/
theorem arrives_printCall {σ : Store} {is : List Instruction} {r : Register} {d : Datum}
    {format : DataLabel} {shown : Printed} {names : List String} {rest : List Statement}
    (h : Reflects data declared m σ) (hquiet : ∀ i ∈ is, i.isQuiet = true)
    (halike : m.Alike (execute p is m)) (hformat : (execute p is m).scratch.r0 = .address format)
    (hwork : (execute p is m).work r = d) (hshown : printed? data (.address format, d) = some shown)
    (hslots : ∀ slot, slot ∈ accessed is ↔ ∃ x ∈ names, slot? declared x = some slot)
    (hl : Located text m.line (instructions (is ++ printCall r)))
    (hr : Continues text literals declared
      (m.line + (instructions (is ++ printCall r)).length) rest) :
    Arrives p text data literals declared 1 names m ⟨rest, σ.print shown⟩ := by
  have hafter := h.alike halike
  rw [instructions, List.map_append] at hl
  obtain ⟨hfirst, hcall⟩ := located_append.mp hl
  rw [List.length_map] at hcall
  obtain ⟨ms, hms, hpassage⟩ := exists_passage_of_isQuiet (p := p) hquiet hfirst h.running
  obtain ⟨ms', m', hpassage', hline, houtput, hcells, hhalted, hreserved, hsp, hfp⟩ :=
    exists_passage_printCall (m := (execute p is m).goto (m.line + is.length)) hcall hafter.running
  refine ⟨_, m', _, hpassage.trans halike.toSteady.goto hpassage', ?_, ⟨?_, ?_⟩, ?_⟩
  · have hne : ms' ≠ [] := by
      rintro rfl
      cases hpassage'.run
      simp [Machine.goto] at hline
    rw [List.length_append]
    have := List.length_pos_iff.mpr hne
    omega
  · have hprinted : m'.output = m.output ++ [(.address format, d)] := by
      rw [houtput, ← hformat, ← hwork, ← halike.output]
      rfl
    exact {
      running := hhalted
      cells := fun x slot hslot => (congrFun hcells slot).trans (hafter.cells x slot hslot)
      output := by simp [hprinted, h.output, Store.print, hshown]
      reserved := hreserved.trans hafter.reserved
      stack := by
        rw [hsp, hfp, hreserved]
        exact hafter.stack }
  · rw [length_instructions, List.length_append] at hr
    rw [hline]
    exact hr
  · intro slot
    rw [List.append_nil]
    exact hslots slot

structure Defines (data : List Line) (literals : List String) : Prop where
  integerFormat : definition? data .integerFormat = some "\"%d\""
  stringFormat : definition? data .stringFormat = some "\"%s\""
  literal : ∀ literal label, literalLabel? literals literal = some label →
    definition? data label = some literal

theorem Defines.printed?_number (h : Defines data literals) (value : BitVec 32) :
    printed? data (.address .integerFormat, .word value) = some (.number value) := by
  simp [printed?, h.integerFormat]

theorem Defines.printed?_text (h : Defines data literals) {literal : String} {label : DataLabel}
    (hl : literalLabel? literals literal = some label) :
    printed? data (.address .stringFormat, .address label) = some (.text literal) := by
  simp [printed?, h.stringFormat, h.literal literal label hl]

theorem arrives_print {σ : Store} {e : Expression} {before : Progress} {y : List Line × Progress}
    {rest : List Statement} (h : Reflects data declared m σ) (hdata : Defines data literals)
    (hc : (Statement.print e).code literals before = some y) (hp : y.2.declared <+: declared)
    (hl : Located text m.line y.1)
    (hr : Continues text literals declared (m.line + y.1.length) rest) :
    Arrives p text data literals declared 1 (Statement.print e).uses m
      ⟨rest, σ.print (.number (e.eval p.quotient σ.values))⟩ := by
  have hbound := (Statement.isSome_print.mp (by rw [hc]; rfl)).2
  rw [Statement.code_print] at hc
  obtain ⟨code, hcode, hc⟩ := Option.bind_eq_some_iff.mp hc
  obtain ⟨z, hz, hc⟩ := Option.bind_eq_some_iff.mp hc
  cases hc
  obtain ⟨habove, hload⟩ := Value.exists_of_operand? hz
  have hm : m.Holds before.declared σ.values := h.cells.of_extended hp
  have he : e.expr.Evaluated p σ.values 0 m code := Expr.evaluated_of_code hcode hm
  have hcomputation := Value.isComputation_of_load? hload
  -- The format is chosen between the code and the load, and leaves the registers of the bank alone.
  have hexecute : execute p (code ++ .selectFormat .integerFormat :: z.1) m =
      execute p z.1 ((Instruction.selectFormat .integerFormat).effect p (execute p code m)) :=
    execute_append _ _ _
  have hwork : (execute p (code ++ .selectFormat .integerFormat :: z.1) m).work z.2 =
      .word (e.expr.eval p.quotient σ.values) := by
    rw [hexecute]
    exact Expr.work_of_load? hload (hm.execute he.computation) fun ht => he.result ht _ habove
  rw [Expression.eval_expr] at hwork
  refine arrives_printCall h ?_ ?_ ?_ hwork (hdata.printed?_number _) ?_ hl hr
  · simp only [List.forall_mem_append, List.forall_mem_cons]
    exact ⟨fun i hi => Instruction.isQuiet_of_isComputation (he.computation i hi), rfl,
      fun i hi => Instruction.isQuiet_of_isComputation (hcomputation i hi)⟩
  · rw [hexecute]
    exact ((alike_execute he.computation m).trans (alike_selectFormat _ _)).trans
      (alike_execute hcomputation _)
  · rw [hexecute, execute_of_isComputation hcomputation]
    rfl
  · intro slot
    rw [Statement.uses, ← exists_slot?_iff_of_extended hp hbound, ← Expr.mem_accessed_use hcode hz,
      accessed_append, accessed_append]
    rfl

theorem arrives_printText {σ : Store} {literal : String} {before : Progress}
    {y : List Line × Progress} {rest : List Statement} (h : Reflects data declared m σ)
    (hdata : Defines data literals)
    (hc : (Statement.printText literal).code literals before = some y)
    (hl : Located text m.line y.1)
    (hr : Continues text literals declared (m.line + y.1.length) rest) :
    Arrives p text data literals declared 1 (Statement.printText literal).uses m
      ⟨rest, σ.print (.text literal)⟩ := by
  rw [Statement.code_printText] at hc
  obtain ⟨z, hz, hc⟩ := Option.bind_eq_some_iff.mp hc
  cases hc
  obtain ⟨-, hload⟩ := Value.exists_of_operand? hz
  obtain ⟨label, hlabel, hloads⟩ := Option.map_eq_some_iff.mp hload
  rw [← hloads] at hl hr
  have hwork : (execute p [.selectFormat .stringFormat, .loadAddress z.2 label] m).work z.2 =
      .address label := Function.update_self _ _ _
  refine arrives_printCall h ?_ ?_ rfl hwork (hdata.printed?_text hlabel) ?_ hl hr
  · simp [Instruction.isQuiet, Instruction.isComputation]
  · exact ⟨⟨rfl, rfl, rfl, rfl⟩, rfl, rfl⟩
  · simp [accessed, Instruction.slot?, Statement.uses]

/-! ## Declarations -/

theorem arrives_declare {σ : Store} {x : String} {before : Progress} {y : List Line × Progress}
    {rest : List Statement} (h : Reflects data declared m σ)
    (hc : (Statement.declare x).code literals before = some y) (hl : Located text m.line y.1)
    (hr : Continues text literals declared (m.line + y.1.length) rest) :
    Arrives p text data literals declared 1 (Statement.declare x).uses m ⟨rest, σ.declare⟩ := by
  rw [Statement.code] at hc
  split at hc
  · cases hc
  cases hc
  have hpassage : Passage p text m [m] ((Instruction.reserveSlot.effect p m).goto (m.line + 1)) [] :=
    .straight hl.1 h.running rfl
  refine ⟨_, _, _, hpassage, Nat.le_refl _, ⟨?_, hr⟩, by simp [Statement.uses]⟩
  refine { h with reserved := ?_, stack := ?_ }
  · exact congrArg Nat.succ h.reserved
  · have hstack := h.stack
    change m.sp - 4 = m.fp - 4 * ((m.reserved + 1 : Nat) : Int)
    omega

/-! ## Conditions -/

theorem Machine.successor_branchUnless {u v : BitVec 32} {op : Comparison} {n target : Nat}
    (hd : (labelsIn text).Nodup) (ht : text[target]? = some (.label (.endOf n)))
    (hflags : m.flags = Ord.compare u.toInt v.toInt) :
    m.successor text (.instruction (.branchUnless op (.endOf n))) =
      some (if op.holds u v then m.line + 1 else target) := by
  have htaken : branchTaken op.negatedBranch m.flags = !op.holds u v := by
    rw [← branchTaken_negatedBranch, hflags]
  unfold Machine.successor Line.target? Instruction.target?
  by_cases hholds : op.holds u v = true
  · simp [htaken, hholds]
  · simp [htaken, hholds, idxOf?_label hd ht]

theorem exists_passage_comparison {is : List Instruction} {a b : Register} {u v : BitVec 32}
    {op : Comparison} {n target : Nat} (hd : (labelsIn text).Nodup) (hrun : m.halted = false)
    (his : ∀ i ∈ is, i.isComputation = true) (ha : (execute p is m).work a = .word u)
    (hb : (execute p is m).work b = .word v)
    (hl : Located text m.line (instructions (is ++ [.compare a b, .branchUnless op (.endOf n)])))
    (ht : text[target]? = some (.label (.endOf n))) :
    ∃ ms m', Passage p text m ms m' (accessed is) ∧ 1 ≤ ms.length ∧ m.Alike m' ∧
      m'.line = if op.holds u v then m.line + (is.length + 2) else target := by
  have hquiet : ∀ i ∈ is ++ [.compare a b], i.isQuiet = true := by
    rw [List.forall_mem_append]
    exact ⟨fun i hi => Instruction.isQuiet_of_isComputation (his i hi), by simp [Instruction.isQuiet]⟩
  have hsplit : instructions (is ++ [.compare a b, .branchUnless op (.endOf n)]) =
      instructions (is ++ [.compare a b]) ++ [.instruction (.branchUnless op (.endOf n))] := by
    simp [instructions]
  rw [hsplit, located_append, length_instructions] at hl
  obtain ⟨ms, hms, hpassage⟩ := exists_passage_of_isQuiet (p := p) hquiet hl.1 hrun
  have halike : m.Alike (execute p (is ++ [.compare a b]) m) := by
    rw [execute_append]
    exact (alike_execute his m).trans ⟨⟨rfl, rfl, rfl, rfl⟩, rfl, rfl⟩
  have hflags : (execute p (is ++ [.compare a b]) m).flags = Ord.compare u.toInt v.toInt := by
    rw [execute_append, execute_cons, execute_nil, Instruction.effect, ha, hb]
    rfl
  have hlength : (is ++ [Instruction.compare a b]).length = is.length + 1 := List.length_append
  have hslots : accessed (is ++ [.compare a b]) = accessed is := by
    rw [accessed_append]
    exact List.append_nil _
  rw [hlength] at hl hms hpassage
  rw [hslots] at hpassage
  generalize execute p (is ++ [.compare a b]) m = m₁ at *
  generalize hm₂ : m₁.goto (m.line + (is.length + 1)) = m₂ at hpassage
  have halike₂ : m.Alike m₂ := by
    rw [← hm₂]
    exact { halike with }
  have hline : m₂.line = m.line + (is.length + 1) := by rw [← hm₂]; rfl
  have hflags₂ : m₂.flags = Ord.compare u.toInt v.toInt := by
    rw [← hm₂]
    exact hflags
  have hlast : Passage p text m₂ [m₂] (m₂.goto _) [] :=
    .single (hline ▸ hl.2.1) (halike₂.halted.trans hrun) (m₂.successor_branchUnless hd ht hflags₂)
  have hboth := hpassage.trans halike₂.toSteady hlast
  rw [List.append_nil] at hboth
  refine ⟨_, _, hboth, ?_, { halike₂ with }, ?_⟩
  · rw [List.length_append]
    exact Nat.le_add_left _ _
  · change (if op.holds u v then m₂.line + 1 else target) = _
    rw [hline]
    rfl

/-- Behind a condition the machine is at the next line if the condition holds, and else at the label
that the condition branches to. -/
theorem Condition.exists_passage {σ : Store} {c : Condition} {known : List String} {n target : Nat}
    {lines : List Line} (hd : (labelsIn text).Nodup) (h : Reflects data declared m σ)
    (hc : c.code known n = some lines) (hp : known <+: declared) (hl : Located text m.line lines)
    (ht : text[target]? = some (.label (.endOf n))) :
    ∃ ms m' slots, Passage p text m ms m' slots ∧ 1 ≤ ms.length ∧ m.Alike m' ∧
      m'.line = (if c.holds p.quotient σ.values then m.line + lines.length else target) ∧
      ∀ slot, slot ∈ slots ↔
        ∃ x ∈ c.left.expr.vars ++ c.right.expr.vars, slot? declared x = some slot := by
  have hbound := ((c.isSome_code known n).mp (by rw [hc]; rfl)).2
  rw [Condition.code_eq] at hc
  obtain ⟨left, hleft, hc⟩ := Option.bind_eq_some_iff.mp hc
  obtain ⟨right, hright, hc⟩ := Option.bind_eq_some_iff.mp hc
  obtain ⟨x, hx, hc⟩ := Option.bind_eq_some_iff.mp hc
  cases hc
  have hm : m.Holds known σ.values := h.cells.of_extended hp
  have hevaluated : c.left.expr.Evaluated p σ.values 0 m left := Expr.evaluated_of_code hleft hm
  obtain ⟨hcomputation, ha, hb, -⟩ := Expr.work_of_pair hm hevaluated
    (Expr.evaluated_of_code hright (hm.execute hevaluated.computation)) hx
  obtain ⟨ms, m', hpassage, hms, halike, hline⟩ :=
    exists_passage_comparison hd h.running hcomputation ha hb hl ht
  rw [Expression.eval_expr, Expression.eval_expr] at hline
  refine ⟨ms, m', _, hpassage, hms, halike, ?_, fun slot => ?_⟩
  · have hlength : (left ++ right ++ x.1 ++ [Instruction.compare x.2.1 x.2.2,
        .branchUnless c.op (.endOf n)]).length = (left ++ right ++ x.1).length + 2 :=
      List.length_append
    rw [hline, length_instructions, hlength]
    rfl
  · rw [Expr.mem_accessed_pair (Expr.mem_accessed_code hleft slot) (Expr.mem_accessed_code hright slot)
      hx]
    exact exists_slot?_iff_of_extended hp (List.forall_mem_append.mpr hbound) slot

/-! ## Constructs -/

/-- The machine goes from place to place without a change to the store. -/
theorem Arrives.of_alike {σ : Store} {ms : List Machine} {slots : List Nat} {names : List String}
    {least : Nat} {todo : List Statement} (h : Reflects data declared m σ)
    (hpassage : Passage p text m ms m' slots) (hms : least ≤ ms.length) (halike : m.Alike m')
    (hslots : ∀ slot, slot ∈ slots ↔ ∃ x ∈ names, slot? declared x = some slot)
    (hplace : Continues text literals declared m'.line todo) :
    Arrives p text data literals declared least names m ⟨todo, σ⟩ :=
  ⟨ms, m', slots, hpassage, hms, ⟨h.alike halike, hplace⟩, hslots⟩

theorem arrives_ifThen {σ : Store} {c : Condition} {s : Statement} {before : Progress}
    {x : List Line × Progress} {rest : List Statement} (hd : (labelsIn text).Nodup)
    (h : Reflects data declared m σ)
    (hc : (Statement.ifThen c s).code literals before = some x) (hp : x.2.declared <+: declared)
    (hl : Located text m.line x.1)
    (hr : Continues text literals declared (m.line + x.1.length) rest) :
    Arrives p text data literals declared 1 (Statement.ifThen c s).uses m
      ⟨(if c.holds p.quotient σ.values then [s] else []) ++ rest, σ⟩ := by
  rw [Statement.code_ifThen] at hc
  obtain ⟨condition, hcondition, hc⟩ := Option.bind_eq_some_iff.mp hc
  obtain ⟨y, hy, hc⟩ := Option.bind_eq_some_iff.mp hc
  cases hc
  have hknown : before.declared <+: declared := (prefix_declared hy).trans hp
  simp only [located_append, Located, List.length_append, List.length_cons, List.length_nil,
    ← Nat.add_assoc, and_true] at hl hr
  obtain ⟨⟨⟨hcond, hbody⟩, hbranch, hend⟩, hbegin⟩ := hl
  obtain ⟨ms, m', slots, hpassage, hms, halike, hline, hslots⟩ :=
    c.exists_passage (p := p) hd h hcondition hknown hcond hend
  refine .of_alike h hpassage hms halike hslots ?_
  rw [hline]
  split
  · exact .statement hy hp hbody (.branch hbranch hbegin (.label hbegin hr))
  · exact .label hend (.label hbegin hr)

theorem arrives_ifElse {σ : Store} {c : Condition} {s t : Statement} {before : Progress}
    {x : List Line × Progress} {rest : List Statement} (hd : (labelsIn text).Nodup)
    (h : Reflects data declared m σ)
    (hc : (Statement.ifElse c s t).code literals before = some x) (hp : x.2.declared <+: declared)
    (hl : Located text m.line x.1)
    (hr : Continues text literals declared (m.line + x.1.length) rest) :
    Arrives p text data literals declared 1 (Statement.ifElse c s t).uses m
      ⟨[if c.holds p.quotient σ.values then s else t] ++ rest, σ⟩ := by
  rw [Statement.code_ifElse] at hc
  obtain ⟨condition, hcondition, hc⟩ := Option.bind_eq_some_iff.mp hc
  obtain ⟨y, hy, hc⟩ := Option.bind_eq_some_iff.mp hc
  obtain ⟨z, hz, hc⟩ := Option.bind_eq_some_iff.mp hc
  cases hc
  have hpy : y.2.declared <+: declared := (prefix_declared hz).trans hp
  have hknown : before.declared <+: declared := (prefix_declared hy).trans hpy
  simp only [located_append, Located, List.length_append, List.length_cons, List.length_nil,
    ← Nat.add_assoc, and_true] at hl hr
  obtain ⟨⟨⟨⟨hcond, hbody⟩, hbranch, hend⟩, hother⟩, hbegin⟩ := hl
  obtain ⟨ms, m', slots, hpassage, hms, halike, hline, hslots⟩ :=
    c.exists_passage (p := p) hd h hcondition hknown hcond hend
  refine .of_alike h hpassage hms halike hslots ?_
  rw [hline]
  split
  · exact .statement hy hpy hbody (.branch hbranch hbegin (.label hbegin hr))
  · exact .label hend (.statement hz hp hother (.label hbegin hr))

theorem arrives_whileDo {σ : Store} {c : Condition} {s : Statement} {before : Progress}
    {x : List Line × Progress} {rest : List Statement} (hd : (labelsIn text).Nodup)
    (h : Reflects data declared m σ)
    (hc : (Statement.whileDo c s).code literals before = some x) (hp : x.2.declared <+: declared)
    (hl : Located text m.line x.1)
    (hr : Continues text literals declared (m.line + x.1.length) rest) :
    Arrives p text data literals declared 1 (Statement.whileDo c s).uses m
      ⟨(if c.holds p.quotient σ.values then [s, .whileDo c s] else []) ++ rest, σ⟩ := by
  have hagain : Continues text literals declared m.line (.whileDo c s :: rest) :=
    .statement hc hp hl hr
  rw [Statement.code_whileDo] at hc
  obtain ⟨condition, hcondition, hc⟩ := Option.bind_eq_some_iff.mp hc
  obtain ⟨y, hy, hc⟩ := Option.bind_eq_some_iff.mp hc
  cases hc
  have hknown : before.declared <+: declared := (prefix_declared hy).trans hp
  simp only [List.cons_append, located_append, Located, List.length_append, List.length_cons,
    List.length_nil, ← Nat.add_assoc, and_true] at hl hr
  obtain ⟨hbegin, ⟨hcond, hbody⟩, hbranch, hend⟩ := hl
  have hfirst : Passage p text m [m] (m.goto (m.line + 1)) [] := .straight hbegin h.running rfl
  have halike₁ : m.Alike (m.goto (m.line + 1)) := ⟨⟨rfl, rfl, rfl, rfl⟩, rfl, rfl⟩
  obtain ⟨ms, m', slots, hpassage, hms, halike, hline, hslots⟩ :=
    c.exists_passage (p := p) hd (h.alike halike₁) hcondition hknown hcond hend
  refine .of_alike h (hfirst.trans halike₁.toSteady hpassage) ?_ (halike₁.trans halike) hslots ?_
  · exact Nat.le_add_left _ _
  · rw [hline]
    split
    · exact .statement hy hp hbody (.branch hbranch hbegin hagain)
    · refine .label hend ?_
      have hplace : m.line + 1 + condition.length + y.1.length + 1 + 1 =
          m.line + condition.length + y.1.length + 0 + 1 + 1 + 1 := by omega
      rw [List.nil_append, hplace]
      exact hr

/-! ## Entering a statement -/

def Statement.leastSteps : Statement → Nat
  | .block _ => 0
  | .skip => 0
  | _ => 1

/-- Entering the statement whose code stands at the machine's place keeps the machine in step. -/
theorem arrives_enter {σ : Store} {s : Statement} {before : Progress} {x : List Line × Progress}
    {rest : List Statement} (hd : (labelsIn text).Nodup) (hdata : Defines data literals)
    (h : Reflects data declared m σ) (hc : s.code literals before = some x)
    (hp : x.2.declared <+: declared) (hl : Located text m.line x.1)
    (hr : Continues text literals declared (m.line + x.1.length) rest) :
    Arrives p text data literals declared s.leastSteps s.uses m
      ⟨(s.enter p.quotient σ).1 ++ rest, (s.enter p.quotient σ).2⟩ := by
  have halike : m.Alike m := ⟨.refl m, rfl, rfl⟩
  cases s with
  | assign y e => exact arrives_assign h hc hp hl hr
  | ifThen c s => exact arrives_ifThen hd h hc hp hl hr
  | ifElse c s t => exact arrives_ifElse hd h hc hp hl hr
  | whileDo c s => exact arrives_whileDo hd h hc hp hl hr
  | print e => exact arrives_print h hdata hc hp hl hr
  | printText literal => exact arrives_printText h hdata hc hl hr
  | declare y => exact arrives_declare h hc hl hr
  | block b =>
    exact .of_alike h (.here m) (Nat.le_refl _) halike (by simp [Statement.uses])
      (b.continues hc hp hl hr)
  | skip =>
    cases hc
    exact .of_alike h (.here m) (Nat.le_refl _) halike (by simp [Statement.uses]) hr

theorem InStep.arrives {s : Statement} {rest : List Statement} {σ : Store}
    (hd : (labelsIn text).Nodup) (hdata : Defines data literals)
    (h : InStep text data literals declared m ⟨s :: rest, σ⟩) :
    Arrives p text data literals declared s.leastSteps s.uses m
      ⟨(s.enter p.quotient σ).1 ++ rest, (s.enter p.quotient σ).2⟩ := by
  obtain ⟨ms, n, hpassage, before, x, hc, hp, hl, hr⟩ :=
    h.place.exists_ready (p := p) hd rfl h.reflects.running
  have halike : m.Alike (m.goto n) := ⟨⟨rfl, rfl, rfl, rfl⟩, rfl, rfl⟩
  obtain ⟨ms', m', slots, hpassage', hms, hinstep, hslots⟩ :=
    arrives_enter (p := p) hd hdata (h.reflects.alike halike) hc hp hl hr
  refine ⟨ms ++ ms', m', slots, hpassage.trans halike.toSteady hpassage', ?_, hinstep, hslots⟩
  rw [List.length_append]
  exact Nat.le_trans hms (Nat.le_add_left _ _)

end OnePass
