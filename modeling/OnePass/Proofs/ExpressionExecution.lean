import OnePass.Proofs.Execution

/-! # Execution of expressions

The code of an expression changes nothing but the registers above those that hold waiting results,
and leaves its value in the lowest of them. The slots that it accesses are those of its names.
-/
namespace OnePass

section

variable {p : Platform} {m : Machine}

/-! ## Operands -/

def Machine.Holds (m : Machine) (declared : List String) (values : String → BitVec 32) : Prop :=
  ∀ x slot, slot? declared x = some slot → m.cells slot = values x

theorem Machine.Holds.execute {declared : List String} {values : String → BitVec 32}
    {is : List Instruction} (h : m.Holds declared values)
    (his : ∀ i ∈ is, i.isComputation = true) : (execute p is m).Holds declared values := by
  rw [execute_of_isComputation his]
  exact h

theorem Platform.compute_eq_apply (p : Platform) (a b : BitVec 32) (op : Arithmetic) :
    p.compute a b op = op.apply p.quotient a b := by
  cases op <;> rfl

theorem branchTaken_negatedBranch (op : Comparison) (a b : BitVec 32) :
    branchTaken op.negatedBranch (Ord.compare a.toInt b.toInt) = !op.holds a b := by
  have heq : a = b ↔ a.toInt = b.toInt := BitVec.toInt_inj.symm
  rw [Int.compare_eq_ite_lt]
  split_ifs with hlt hgt
  all_goals
    cases op <;>
      simp [branchTaken, Comparison.negatedBranch, Comparison.holds, BitVec.slt, BitVec.sle, heq] <;>
      omega

variable {declared literals : List String} {values : String → BitVec 32} {k : Nat} {r : Register}
  {load : List Instruction}

theorem Value.isComputation_of_load? {v : Value} (h : v.load? declared literals r = some load) :
    ∀ i ∈ load, i.isComputation = true := by
  cases v with
  | number digits =>
    cases h
    simp [Instruction.isComputation]
  | var x =>
    obtain ⟨slot, -, rfl⟩ := Option.map_eq_some_iff.mp h
    simp [Instruction.isComputation]
  | text literal =>
    obtain ⟨label, -, rfl⟩ := Option.map_eq_some_iff.mp h
    simp [Instruction.isComputation]
  | temporary =>
    cases h
    simp

theorem Value.work_of_load? {v : Value} (h : v.load? declared literals r = some load) {q : Register}
    (hq : q ≠ r) : (execute p load m).work q = m.work q := by
  cases v with
  | number digits =>
    cases h
    exact Function.update_of_ne hq _ _
  | var x =>
    obtain ⟨slot, -, rfl⟩ := Option.map_eq_some_iff.mp h
    exact Function.update_of_ne hq _ _
  | text literal =>
    obtain ⟨label, -, rfl⟩ := Option.map_eq_some_iff.mp h
    exact Function.update_of_ne hq _ _
  | temporary =>
    cases h
    rfl

theorem Expr.work_of_load? {e : Expr} (h : e.value.load? declared [] r = some load)
    (hm : m.Holds declared values)
    (hr : e.value = .temporary → m.work r = .word (e.eval p.quotient values)) :
    (execute p load m).work r = .word (e.eval p.quotient values) := by
  cases e with
  | number digits =>
    cases h
    exact Function.update_self _ _ _
  | var x =>
    obtain ⟨slot, hslot, rfl⟩ := Option.map_eq_some_iff.mp h
    have hcell : m.cells slot = values x := hm x slot hslot
    simp [Instruction.effect, Machine.setWork, Expr.eval, hcell]
  | binary op e f =>
    cases h
    exact hr rfl
  | negate e =>
    cases h
    exact hr rfl

theorem Value.exists_of_operand? {v : Value} {x : List Instruction × Register}
    (h : v.operand? declared literals k = some x) :
    Register.above? k = some x.2 ∧ v.load? declared literals x.2 = some x.1 := by
  have hr := Value.above?_of_operand? h
  cases hl : v.load? declared literals x.2 with
  | none => simp [Value.operand?, hr, hl] at h
  | some load =>
    simp only [Value.operand?, hr, hl, Option.bind_eq_bind, Option.bind_some, pure,
      Option.some.injEq] at h
    exact ⟨hr, congrArg some (congrArg Prod.fst h)⟩

/-- Where two operands are, and how they get there. -/
theorem Value.operands?_inv {left right : Value} {x : List Instruction × Register × Register}
    (h : Value.operands? declared literals k left right = some x) :
    ∃ low, Register.above? k = some low ∧
      (left.shares right = true ∧ x.2 = (low, low) ∧
          left.load? declared literals low = some x.1 ∨
        ∃ high, Register.above? (k + 1) = some high ∧
          (left ≠ .temporary ∧ right = .temporary ∧ x.2 = (high, low) ∧
              left.load? declared literals high = some x.1 ∨
            (left ≠ .temporary → right ≠ .temporary) ∧ x.2 = (low, high) ∧
              ∃ first second, left.load? declared literals low = some first ∧
                right.load? declared literals high = some second ∧ x.1 = first ++ second)) := by
  unfold Value.operands? at h
  obtain ⟨low, hlow, h⟩ := Option.bind_eq_some_iff.mp h
  refine ⟨low, hlow, ?_⟩
  split at h
  case isTrue hs =>
    obtain ⟨load, hload, h⟩ := Option.bind_eq_some_iff.mp h
    cases h
    exact .inl ⟨hs, rfl, hload⟩
  case isFalse hs =>
    obtain ⟨high, hhigh, h⟩ := Option.bind_eq_some_iff.mp h
    refine .inr ⟨high, hhigh, ?_⟩
    split at h
    case isTrue ht =>
      obtain ⟨load, hload, h⟩ := Option.bind_eq_some_iff.mp h
      cases h
      exact .inl ⟨ht.1, ht.2, rfl, hload⟩
    case isFalse ht =>
      obtain ⟨first, hfirst, h⟩ := Option.bind_eq_some_iff.mp h
      obtain ⟨second, hsecond, h⟩ := Option.bind_eq_some_iff.mp h
      cases h
      exact .inr ⟨fun hl hr => ht ⟨hl, hr⟩, rfl, first, second, hfirst, hsecond, rfl⟩

theorem Expr.eq_of_shares {e f : Expr} (h : e.value.shares f.value = true) : e = f := by
  cases e <;> cases f <;> simp [Expr.value, Value.shares] at h
  rw [h]

/-- The registers of two operands, once each of them is either loaded or was there before. -/
theorem Expr.work_of_operands? {e f : Expr} {x : List Instruction × Register × Register}
    (h : Value.operands? declared [] k e.value f.value = some x) (hm : m.Holds declared values)
    (he : e.value = .temporary → ∀ q, Register.above? k = some q →
      m.work q = .word (e.eval p.quotient values))
    (hf : f.value = .temporary → ∀ q, Register.above? (e.value.held + k) = some q →
      m.work q = .word (f.eval p.quotient values)) :
    (∀ i ∈ x.1, i.isComputation = true) ∧
      (execute p x.1 m).work x.2.1 = .word (e.eval p.quotient values) ∧
      (execute p x.1 m).work x.2.2 = .word (f.eval p.quotient values) ∧
      ∀ q : Register, q.index.val < k → (execute p x.1 m).work q = m.work q := by
  obtain ⟨low, hlow, ⟨hs, hx, hload⟩ | ⟨high, hhigh, hcases⟩⟩ := Value.operands?_inv h
  · obtain rfl : e = f := Expr.eq_of_shares hs
    have hwork := e.work_of_load? hload hm fun ht => he ht _ hlow
    rw [hx]
    exact ⟨Value.isComputation_of_load? hload, hwork, hwork,
      fun q hq => Value.work_of_load? hload (Register.ne_of_above hlow hq)⟩
  have hlow_ne : low ≠ high := Register.ne_of_above hhigh (by rw [Register.index_above hlow]; omega)
  obtain ⟨het, hft, hx, hload⟩ | ⟨ht, hx, first, second, hfirst, hsecond, hloads⟩ := hcases
  · -- The right operand was computed first, and is below the left one.
    have hheld : e.value.held + k = k := by
      cases hv : e.value <;> simp_all [Value.held]
    rw [hx]
    refine ⟨Value.isComputation_of_load? hload, ?_, ?_, fun q hq => ?_⟩
    · exact e.work_of_load? hload hm fun ht => absurd ht het
    · rw [Value.work_of_load? hload hlow_ne]
      exact hf hft low (by rw [hheld, hlow])
    · exact Value.work_of_load? hload (Register.ne_of_above hhigh (by omega))
  · have hcomputation := Value.isComputation_of_load? hfirst
    rw [hx, hloads, execute_append]
    refine ⟨List.forall_mem_append.mpr ⟨hcomputation, Value.isComputation_of_load? hsecond⟩, ?_, ?_,
      fun q hq => ?_⟩
    · rw [Value.work_of_load? hsecond hlow_ne]
      exact e.work_of_load? hfirst hm fun ht => he ht low hlow
    · refine f.work_of_load? hsecond (hm.execute hcomputation) fun hft => ?_
      have het : e.value = .temporary := not_not.mp fun het => ht het hft
      rw [Value.work_of_load? hfirst hlow_ne.symm]
      refine hf hft high ?_
      rw [het, Value.held, Nat.add_comm, hhigh]
    · rw [Value.work_of_load? hsecond (Register.ne_of_above hhigh (by omega)),
        Value.work_of_load? hfirst (Register.ne_of_above hlow hq)]

/-! ## Expressions -/

/-- The instructions keep the `k` registers of the results that wait, and leave the value of the
expression in the register above them unless it is a leaf. -/
structure Expr.Evaluated (p : Platform) (values : String → BitVec 32) (k : Nat) (m : Machine)
    (e : Expr) (is : List Instruction) : Prop where
  computation : ∀ i ∈ is, i.isComputation = true
  below : ∀ q : Register, q.index.val < k → (execute p is m).work q = m.work q
  result : e.value = .temporary → ∀ q, Register.above? k = some q →
    (execute p is m).work q = .word (e.eval p.quotient values)

theorem Expr.work_of_pair {e f : Expr} {left right : List Instruction}
    {x : List Instruction × Register × Register} (hm : m.Holds declared values)
    (he : e.Evaluated p values k m left)
    (hf : f.Evaluated p values (e.value.held + k) (execute p left m) right)
    (hx : Value.operands? declared [] k e.value f.value = some x) :
    (∀ i ∈ left ++ right ++ x.1, i.isComputation = true) ∧
      (execute p (left ++ right ++ x.1) m).work x.2.1 = .word (e.eval p.quotient values) ∧
      (execute p (left ++ right ++ x.1) m).work x.2.2 = .word (f.eval p.quotient values) ∧
      ∀ q : Register, q.index.val < k →
        (execute p (left ++ right ++ x.1) m).work q = m.work q := by
  have hboth := List.forall_mem_append.mpr ⟨he.computation, hf.computation⟩
  have hleft : e.value = .temporary → ∀ q, Register.above? k = some q →
      (execute p (left ++ right) m).work q = .word (e.eval p.quotient values) := by
    intro ht q hq
    rw [execute_append, hf.below q (by rw [Register.index_above hq, ht, Value.held]; omega)]
    exact he.result ht q hq
  have hright : f.value = .temporary → ∀ q, Register.above? (e.value.held + k) = some q →
      (execute p (left ++ right) m).work q = .word (f.eval p.quotient values) := by
    intro ht q hq
    rw [execute_append]
    exact hf.result ht q hq
  obtain ⟨hcomputation, ha, hb, hbelow⟩ :=
    Expr.work_of_operands? hx (hm.execute hboth) hleft hright
  rw [execute_append _ x.1]
  refine ⟨List.forall_mem_append.mpr ⟨hboth, hcomputation⟩, ha, hb, fun q hq => ?_⟩
  rw [hbelow q hq, execute_append, hf.below q (by omega), he.below q hq]

theorem Expr.evaluated_of_last {e : Expr} {is : List Instruction} {i : Instruction}
    {target : Register} (htarget : Register.above? k = some target)
    (his : ∀ j ∈ is, j.isComputation = true) (hi : i.isComputation = true)
    (hwork : (i.effect p (execute p is m)).work =
      Function.update (execute p is m).work target (.word (e.eval p.quotient values)))
    (hbelow : ∀ q : Register, q.index.val < k → (execute p is m).work q = m.work q) :
    e.Evaluated p values k m (is ++ [i]) where
  computation := by
    rw [List.forall_mem_append]
    exact ⟨his, by simpa using hi⟩
  below q hq := by
    rw [execute_append, execute_cons, execute_nil, hwork,
      Function.update_of_ne (Register.ne_of_above htarget hq)]
    exact hbelow q hq
  result _ q hq := by
    obtain rfl : target = q := Option.some.inj (htarget.symm.trans hq)
    rw [execute_append, execute_cons, execute_nil, hwork, Function.update_self]

theorem Expr.evaluated_of_code {e : Expr} {is : List Instruction} (h : e.code declared k = some is)
    (hm : m.Holds declared values) : e.Evaluated p values k m is := by
  induction e generalizing k is m with
  | number digits =>
    rw [Expr.code] at h
    cases h
    exact ⟨by simp, fun _ _ => rfl, by simp [Expr.value]⟩
  | var x =>
    rw [Expr.code] at h
    cases h
    exact ⟨by simp, fun _ _ => rfl, by simp [Expr.value]⟩
  | negate e ih =>
    rw [Expr.code_negate] at h
    obtain ⟨code, hcode, h⟩ := Option.bind_eq_some_iff.mp h
    obtain ⟨x, hx, h⟩ := Option.bind_eq_some_iff.mp h
    obtain ⟨target, htarget, h⟩ := Option.bind_eq_some_iff.mp h
    cases h
    obtain ⟨hr, hload⟩ := Value.exists_of_operand? hx
    obtain rfl : x.2 = target := Option.some.inj (hr.symm.trans htarget)
    have he := ih hcode hm
    have hwork := e.work_of_load? hload (hm.execute he.computation) fun ht => he.result ht _ hr
    refine Expr.evaluated_of_last htarget ?_ rfl ?_ fun q hq => ?_
    · rw [List.forall_mem_append]
      exact ⟨he.computation, Value.isComputation_of_load? hload⟩
    · refine congrArg (Function.update _ x.2) ?_
      rw [execute_append, hwork, Platform.wordOf, Expr.eval]
      exact congrArg Datum.word (BitVec.zero_sub _)
    · rw [execute_append, Value.work_of_load? hload (Register.ne_of_above hr hq), he.below q hq]
  | binary op e f ihe ihf =>
    rw [Expr.code_binary] at h
    obtain ⟨left, hleft, h⟩ := Option.bind_eq_some_iff.mp h
    obtain ⟨right, hright, h⟩ := Option.bind_eq_some_iff.mp h
    obtain ⟨x, hx, h⟩ := Option.bind_eq_some_iff.mp h
    obtain ⟨target, htarget, h⟩ := Option.bind_eq_some_iff.mp h
    cases h
    have he := ihe hleft hm
    obtain ⟨hcomputation, ha, hb, hbelow⟩ :=
      Expr.work_of_pair hm he (ihf hright (hm.execute he.computation)) hx
    refine Expr.evaluated_of_last htarget hcomputation rfl ?_ hbelow
    refine congrArg (Function.update _ target) ?_
    rw [ha, hb, Platform.wordOf, Platform.wordOf, Platform.compute_eq_apply, Expr.eval]

/-! ## Accessed slots -/

@[simp] theorem accessed_append (is js : List Instruction) :
    accessed (is ++ js) = accessed is ++ accessed js :=
  List.filterMap_append

theorem Value.mem_accessed_load? {v : Value} (h : v.load? declared literals r = some load)
    (slot : Nat) : slot ∈ accessed load ↔ ∃ x, v = .var x ∧ slot? declared x = some slot := by
  cases v with
  | number digits =>
    cases h
    simp [accessed, Instruction.slot?]
  | var x =>
    obtain ⟨slot', hslot, rfl⟩ := Option.map_eq_some_iff.mp h
    simp [accessed, Instruction.slot?, hslot, eq_comm]
  | text literal =>
    obtain ⟨label, -, rfl⟩ := Option.map_eq_some_iff.mp h
    simp [accessed, Instruction.slot?]
  | temporary =>
    cases h
    simp [accessed]

theorem Value.mem_accessed_operands? {left right : Value}
    {x : List Instruction × Register × Register}
    (h : Value.operands? declared literals k left right = some x) (slot : Nat) :
    slot ∈ accessed x.1 ↔ (∃ y, left = .var y ∧ slot? declared y = some slot) ∨
      ∃ y, right = .var y ∧ slot? declared y = some slot := by
  obtain ⟨low, -, ⟨hs, -, hload⟩ | ⟨high, -, ⟨-, hr, -, hload⟩ | ⟨-, -, first, second, hfirst, hsecond,
    hloads⟩⟩⟩ := Value.operands?_inv h
  · have hsame : ∀ y, right = .var y ↔ left = .var y := by
      intro y
      cases left <;> cases right <;> simp [Value.shares] at hs ⊢
      rw [hs]
    simp [Value.mem_accessed_load? hload, hsame]
  · simp [Value.mem_accessed_load? hload, hr]
  · simp [hloads, Value.mem_accessed_load? hfirst, Value.mem_accessed_load? hsecond]

/-- The code of two operands accesses the slots of their names if their codes do, each together with
its load. -/
theorem Expr.mem_accessed_pair {e f : Expr} {left right : List Instruction}
    {x : List Instruction × Register × Register} {slot : Nat}
    (he : (slot ∈ accessed left ∨ ∃ y, e.value = .var y ∧ slot? declared y = some slot) ↔
      ∃ y ∈ e.vars, slot? declared y = some slot)
    (hf : (slot ∈ accessed right ∨ ∃ y, f.value = .var y ∧ slot? declared y = some slot) ↔
      ∃ y ∈ f.vars, slot? declared y = some slot)
    (hx : Value.operands? declared [] k e.value f.value = some x) :
    slot ∈ accessed (left ++ right ++ x.1) ↔
      ∃ y ∈ e.vars ++ f.vars, slot? declared y = some slot := by
  have hvars : (∃ y ∈ e.vars ++ f.vars, slot? declared y = some slot) ↔
      (∃ y ∈ e.vars, slot? declared y = some slot) ∨
        ∃ y ∈ f.vars, slot? declared y = some slot := by
    simp only [List.mem_append, or_and_right, exists_or]
  rw [hvars, ← he, ← hf, accessed_append, accessed_append, List.mem_append, List.mem_append,
    Value.mem_accessed_operands? hx, or_or_or_comm]

/-- The code of an expression, with its load where it is used, accesses the slots of its names. -/
theorem Expr.mem_accessed_code {e : Expr} {is : List Instruction} (h : e.code declared k = some is)
    (slot : Nat) :
    (slot ∈ accessed is ∨ ∃ y, e.value = .var y ∧ slot? declared y = some slot) ↔
      ∃ x ∈ e.vars, slot? declared x = some slot := by
  induction e generalizing k is with
  | number digits =>
    rw [Expr.code] at h
    cases h
    simp [accessed, Expr.value, Expr.vars]
  | var x =>
    rw [Expr.code] at h
    cases h
    simp [accessed, Expr.value, Expr.vars]
  | negate e ih =>
    rw [Expr.code_negate] at h
    obtain ⟨code, hcode, h⟩ := Option.bind_eq_some_iff.mp h
    obtain ⟨x, hx, h⟩ := Option.bind_eq_some_iff.mp h
    obtain ⟨target, -, h⟩ := Option.bind_eq_some_iff.mp h
    cases h
    have hload := (Value.exists_of_operand? hx).2
    rw [Expr.vars, ← ih hcode, ← Value.mem_accessed_load? hload]
    simp [accessed, Expr.value, Instruction.slot?]
  | binary op e f ihe ihf =>
    rw [Expr.code_binary] at h
    obtain ⟨left, hleft, h⟩ := Option.bind_eq_some_iff.mp h
    obtain ⟨right, hright, h⟩ := Option.bind_eq_some_iff.mp h
    obtain ⟨x, hx, h⟩ := Option.bind_eq_some_iff.mp h
    obtain ⟨target, -, h⟩ := Option.bind_eq_some_iff.mp h
    cases h
    rw [Expr.vars, ← Expr.mem_accessed_pair (ihe hleft) (ihf hright) hx]
    simp [accessed, Expr.value, Instruction.slot?]

end

end OnePass
