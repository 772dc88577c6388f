import OnePass.Proofs.Translation

/-! # What a translation needs

Expressions and the statements made of them have code if their names are declared and there are
registers enough. How many registers an expression needs is a function of its shape.
-/
namespace OnePass

/-! ## The registers of an expression -/

namespace Expr

def Bound (declared : List String) (e : Expr) : Prop :=
  ∀ x ∈ e.vars, x ∈ declared

instance (declared : List String) (e : Expr) : Decidable (e.Bound declared) :=
  inferInstanceAs (Decidable (∀ x ∈ e.vars, x ∈ declared))

theorem bound_binary {declared : List String} {op : Arithmetic} {l r : Expr} :
    (binary op l r).Bound declared ↔ l.Bound declared ∧ r.Bound declared := by
  simp only [Bound, vars, List.forall_mem_append]

/-- How many registers two operands need where they are used: one if they are the same variable. -/
def operandNeed (l r : Expr) : Nat :=
  if l.value.shares r.value then 1 else 2

/-- How many registers a binary operation needs. A left operand that is not a leaf waits in a
register while the right one is computed. -/
def binaryNeed (l r : Expr) (left right : Nat) : Nat :=
  max (max left (right + if l.isLeaf then 0 else 1)) (operandNeed l r)

def need : Expr → Nat
  | number _ => 0
  | var _ => 0
  | binary _ l r => binaryNeed l r l.need r.need
  | negate e => max e.need 1

def useNeed (e : Expr) : Nat :=
  max e.need 1

end Expr

def Condition.need (c : Condition) : Nat :=
  Expr.binaryNeed c.left.expr c.right.expr c.left.expr.need c.right.expr.need

mutual

def Statement.Fits : Statement → Prop
  | .assign _ e => e.expr.useNeed ≤ registerCount
  | .ifThen c s => c.need ≤ registerCount ∧ s.Fits
  | .ifElse c s t => c.need ≤ registerCount ∧ s.Fits ∧ t.Fits
  | .whileDo c s => c.need ≤ registerCount ∧ s.Fits
  | .print e => e.expr.useNeed ≤ registerCount
  | .printText _ => True
  | .block b => b.Fits
  | .declare _ => True
  | .skip => True

def Sequence.Fits : Sequence → Prop
  | .last s => s.Fits
  | .more s rest => s.Fits ∧ rest.Fits

end

theorem Register.isSome_above? {k : Nat} : (above? k).isSome ↔ k < registerCount := by
  unfold above?
  split <;> simp_all

theorem isSome_slot? {declared : List String} {x : String} :
    (slot? declared x).isSome ↔ x ∈ declared := by
  simp [slot?, List.isSome_idxOf?]

/-- A part whose success does not depend on what comes before it. -/
theorem isSome_bind_iff {α β : Type} {x : Option α} {f : α → Option β} {P : Prop}
    (h : ∀ a, (f a).isSome ↔ P) : (x.bind f).isSome ↔ x.isSome ∧ P := by
  cases x with
  | none => simp
  | some a => simp [h a]

namespace Expr

variable {declared literals : List String} {k : Nat}

theorem held_value (e : Expr) : e.value.held = if e.isLeaf then 0 else 1 := by
  cases e <;> rfl

theorem isSome_load? (literals : List String) (r : Register) (e : Expr) :
    (e.value.load? declared literals r).isSome ↔ (e.isLeaf → e.Bound declared) := by
  cases e <;> simp [value, Value.load?, isLeaf, Bound, vars, isSome_slot?]

theorem isSome_operand? (e : Expr) :
    (e.value.operand? declared literals k).isSome ↔
      k < registerCount ∧ (e.isLeaf → e.Bound declared) := by
  unfold Value.operand?
  rw [← Register.isSome_above?]
  cases hr : Register.above? k with
  | none => simp
  | some r =>
    rw [← e.isSome_load? literals r]
    cases hl : e.value.load? declared literals r <;> simp [hl]

theorem value_eq_temporary {e : Expr} : e.value = .temporary ↔ e.isLeaf = false := by
  cases e <;> simp [value, isLeaf]

theorem isSome_operands? (l r : Expr) :
    (Value.operands? declared literals k l.value r.value).isSome ↔
      k + operandNeed l r ≤ registerCount ∧ (l.isLeaf → l.Bound declared) ∧
        (r.isLeaf → r.Bound declared) := by
  by_cases hs : l.value.shares r.value = true
  · obtain rfl : l = r := by cases l <;> cases r <;> simp_all [value, Value.shares]
    rw [Value.operands?_shared hs, isSome_bind_iff (P := True) fun _ => by simp, isSome_operand?]
    simp only [operandNeed, hs, if_true, and_true, and_self, Nat.lt_iff_add_one_le]
  · have hs' : l.value.shares r.value = false := by simpa using hs
    have hneed : operandNeed l r = 2 := by simp [operandNeed, hs]
    rw [hneed]
    cases hlow : Register.above? k with
    | none =>
      have hk : ¬ k < registerCount := by simp [← Register.isSome_above?, hlow]
      simp only [Value.operands?, hlow, Option.bind_eq_bind, Option.bind_none, Option.isSome_none,
        Bool.false_eq_true, false_iff, not_and]
      omega
    | some low =>
      have hk : k < registerCount := by simp [← Register.isSome_above?, hlow]
      cases hl : l.isLeaf with
      | false =>
        rw [value_eq_temporary.mpr hl, Value.operands?_left hlow,
          isSome_bind_iff (P := True) fun _ => by simp, isSome_operand?]
        grind
      | true =>
        cases hr : r.isLeaf with
        | false =>
          rw [value_eq_temporary.mpr hr,
            Value.operands?_right hlow (by simp [value_eq_temporary, hl]),
            isSome_bind_iff (P := True) fun _ => by simp, isSome_operand?]
          grind
        | true =>
          rw [Value.operands?_leaves hs' (by simp [value_eq_temporary, hr]),
            isSome_bind_iff fun _ => isSome_bind_iff (P := True) fun _ => by simp,
            isSome_operand?, isSome_operand?]
          grind

/-- The names of a leaf are looked up where it is used, those of other expressions in their code. -/
theorem bound_of_cases {e : Expr} (hinner : e.isLeaf = false → e.Bound declared)
    (hleaf : e.isLeaf → e.Bound declared) : e.Bound declared := by
  cases h : e.isLeaf with
  | false => exact hinner h
  | true => exact hleaf h

theorem operandNeed_pos (l r : Expr) : 1 ≤ operandNeed l r := by
  unfold operandNeed
  split <;> simp

theorem need_pos {e : Expr} (h : e.isLeaf = false) : 1 ≤ e.need := by
  cases e with
  | number | var => cases h
  | negate e => exact Nat.le_max_right _ _
  | binary op l r =>
    exact Nat.le_trans (operandNeed_pos l r) (Nat.le_max_right _ _)

def HasCode (declared : List String) (e : Expr) : Prop :=
  ∀ k ≤ registerCount, (e.code declared k).isSome ↔
    k + e.need ≤ registerCount ∧ (e.isLeaf = false → e.Bound declared)

/-- Two operands can be computed and used if the registers suffice and their names are declared. -/
theorem isSome_operation (literals : List String) {l r : Expr} (hl : l.HasCode declared)
    (hr : r.HasCode declared) (hk : k ≤ registerCount) :
    (l.code declared k).isSome ∧ (r.code declared (l.value.held + k)).isSome ∧
        (Value.operands? declared literals k l.value r.value).isSome ↔
      k + binaryNeed l r l.need r.need ≤ registerCount ∧ l.Bound declared ∧ r.Bound declared := by
  rw [hl k hk, isSome_operands?]
  have hheld := l.held_value
  have hneed : k + binaryNeed l r l.need r.need ≤ registerCount ↔ k + l.need ≤ registerCount ∧
      l.value.held + k + r.need ≤ registerCount ∧ k + operandNeed l r ≤ registerCount := by
    rw [binaryNeed, ← hheld]
    omega
  rw [hneed]
  by_cases hright : l.value.held + k ≤ registerCount
  · rw [hr _ hright]
    constructor
    · rintro ⟨⟨hl, hbl⟩, ⟨hr, hbr⟩, ho, hbl', hbr'⟩
      exact ⟨⟨hl, hr, ho⟩, bound_of_cases hbl hbl', bound_of_cases hbr hbr'⟩
    · rintro ⟨⟨hl, hr, ho⟩, hbl, hbr⟩
      exact ⟨⟨hl, fun _ => hbl⟩, ⟨hr, fun _ => hbr⟩, ho, fun _ => hbl, fun _ => hbr⟩
  · have hfull : ¬ k + l.need ≤ registerCount := by
      -- The left operand is not a leaf and takes the last register there is.
      cases hleaf : l.isLeaf with
      | true =>
        simp only [hheld, hleaf, if_true] at hright
        omega
      | false =>
        have := need_pos hleaf
        simp only [hheld, hleaf, Bool.false_eq_true, if_false] at hright
        omega
    exact ⟨fun h => absurd h.1.1 hfull, fun h => absurd h.1.1 hfull⟩

theorem hasCode (declared : List String) (e : Expr) : e.HasCode declared := by
  induction e with
  | number digits =>
    intro k hk
    simp [code, need, isLeaf, hk]
  | var x =>
    intro k hk
    simp [code, need, isLeaf, hk]
  | negate e ih =>
    intro k hk
    rw [code_negate, isSome_bind_iff fun _ => isSome_bind_iff fun _ =>
        isSome_bind_iff (P := True) fun _ => by simp,
      ih k hk, isSome_operand?, Register.isSome_above?]
    have hbound : (negate e).Bound declared ↔ e.Bound declared := Iff.rfl
    have hneed : k + (negate e).need ≤ registerCount ↔
        k + e.need ≤ registerCount ∧ k < registerCount := by
      rw [need]
      omega
    rw [hbound, hneed]
    constructor
    · rintro ⟨⟨hcode, hinner⟩, ⟨hk, houter⟩, -⟩
      exact ⟨⟨hcode, hk⟩, fun _ => bound_of_cases hinner houter⟩
    · rintro ⟨⟨hcode, hk⟩, h⟩
      exact ⟨⟨hcode, fun _ => h rfl⟩, ⟨hk, fun _ => h rfl⟩, hk, trivial⟩
  | binary op l r ihl ihr =>
    intro k hk
    rw [code_binary, isSome_bind_iff fun _ => isSome_bind_iff fun _ => isSome_bind_iff fun _ =>
      isSome_bind_iff (P := True) fun _ => by simp, Register.isSome_above?, bound_binary, need]
    have hoperation := isSome_operation [] ihl ihr hk
    constructor
    · rintro ⟨hl, hr, ho, -⟩
      obtain ⟨hneed, hbl, hbr⟩ := hoperation.mp ⟨hl, hr, ho⟩
      exact ⟨hneed, fun _ => ⟨hbl, hbr⟩⟩
    · rintro ⟨hneed, hbound⟩
      obtain ⟨hl, hr, ho⟩ := hoperation.mpr ⟨hneed, hbound rfl⟩
      have hpos : 1 ≤ binaryNeed l r l.need r.need := need_pos (e := binary op l r) rfl
      exact ⟨hl, hr, ho, by omega, trivial⟩

end Expr

/-! ## Using expressions -/

/-- An expression can be used if its names are declared and the registers suffice. -/
theorem Expr.isSome_use (declared literals : List String) (e : Expr) :
    (e.code declared 0).isSome ∧ (e.value.operand? declared literals 0).isSome ↔
      e.useNeed ≤ registerCount ∧ e.Bound declared := by
  rw [e.hasCode declared 0 (Nat.zero_le _), isSome_operand?, useNeed]
  constructor
  · rintro ⟨⟨hneed, hinner⟩, hpos, houter⟩
    exact ⟨by omega, bound_of_cases hinner houter⟩
  · rintro ⟨hneed, hbound⟩
    exact ⟨⟨by omega, fun _ => hbound⟩, by omega, fun _ => hbound⟩

theorem Condition.isSome_code (declared : List String) (n : Nat) (c : Condition) :
    (c.code declared n).isSome ↔ c.need ≤ registerCount ∧
      c.left.expr.Bound declared ∧ c.right.expr.Bound declared := by
  rw [c.code_eq, isSome_bind_iff fun _ => isSome_bind_iff fun _ =>
    isSome_bind_iff (P := True) fun _ => by simp, and_true, Condition.need]
  have hoperation := Expr.isSome_operation [] (c.left.expr.hasCode declared)
    (c.right.expr.hasCode declared) (Nat.zero_le registerCount)
  rw [Nat.zero_add] at hoperation
  exact hoperation

theorem Condition.isSome_bound {declared : List String} {n : Nat} {c : Condition}
    (h : c.need ≤ registerCount) : (c.code declared n).isSome ↔
      c.left.expr.Bound declared ∧ c.right.expr.Bound declared := by
  rw [c.isSome_code, and_iff_right h]

section

variable {literals : List String} {p : Progress}

theorem Statement.isSome_assign {x : String} {e : Expression} :
    ((Statement.assign x e).code literals p).isSome ↔
      e.expr.useNeed ≤ registerCount ∧ x ∈ p.declared ∧ e.expr.Bound p.declared := by
  rw [Statement.code_assign, isSome_bind_iff fun _ => isSome_bind_iff fun _ =>
    isSome_bind_iff (P := True) fun _ => by simp, isSome_slot?, and_true]
  have huse := e.expr.isSome_use p.declared []
  rw [and_left_comm, huse, and_left_comm]

theorem Statement.isSome_print {e : Expression} :
    ((Statement.print e).code literals p).isSome ↔
      e.expr.useNeed ≤ registerCount ∧ e.expr.Bound p.declared := by
  rw [Statement.code_print,
    isSome_bind_iff fun _ => isSome_bind_iff (P := True) fun _ => by simp, and_true,
    e.expr.isSome_use p.declared []]

end

end OnePass
