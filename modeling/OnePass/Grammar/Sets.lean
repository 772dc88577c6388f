import OnePass.Grammar.Basic

/-! # Nullable nonterminals, FIRST and FOLLOW

Each set is the least one closed under its rules. A sweep goes over the rules in their order and adds
what each of them yields, so that a rule sees what the rules before it have added in the same sweep.
Sweeps are repeated as long as one of them adds something. They come to an end because the alphabet
is finite: a sweep that adds something leaves fewer members missing.
-/
namespace OnePass

section Extend

variable {α : Type} [DecidableEq α]

def extend (set members : List α) : List α :=
  members.foldl (fun set a => set.insert a) set

def missing (alphabet set : List α) : Nat :=
  alphabet.countP fun a => a ∉ set

variable {alphabet set set' members : List α} {a : α}

theorem extend_cons (set members : List α) (a : α) :
    extend set (a :: members) = extend (set.insert a) members := rfl

theorem mem_extend : a ∈ extend set members ↔ a ∈ set ∨ a ∈ members := by
  induction members generalizing set with
  | nil => simp [extend]
  | cons b members ih =>
    rw [extend_cons, ih, List.mem_insert_iff, List.mem_cons, or_comm (a := a = b), or_assoc]

theorem length_le_extend (set members : List α) : set.length ≤ (extend set members).length := by
  induction members generalizing set with
  | nil => exact Nat.le_refl _
  | cons b members ih => exact Nat.le_trans List.length_le_length_insert (ih (set.insert b))

theorem extend_eq_of_subset (h : members ⊆ set) : extend set members = set := by
  induction members generalizing set with
  | nil => rfl
  | cons b members ih =>
    obtain ⟨hb, hsub⟩ := List.cons_subset.mp h
    rw [extend_cons, List.insert_of_mem hb, ih hsub]

theorem subset_of_length_extend_eq (h : (extend set members).length = set.length) :
    members ⊆ set := by
  induction members generalizing set with
  | nil => exact List.nil_subset _
  | cons b members ih =>
    have hle := length_le_extend (set.insert b) members
    rw [extend_cons] at h
    by_cases hb : b ∈ set
    · rw [List.insert_of_mem hb] at h
      exact List.cons_subset.mpr ⟨hb, ih h⟩
    · rw [List.length_insert_of_not_mem hb] at hle
      omega

theorem missing_cons (alphabet set : List α) (a : α) :
    missing (a :: alphabet) set = missing alphabet set + if a ∈ set then 0 else 1 := by
  rw [missing, List.countP_cons, missing]
  by_cases ha : a ∈ set <;> simp [ha]

theorem missing_le_of_subset (alphabet : List α) (h : set ⊆ set') :
    missing alphabet set' ≤ missing alphabet set := by
  apply List.countP_mono_left
  intro a _ ha
  simp only [decide_eq_true_eq] at ha ⊢
  exact fun hmem => ha (h hmem)

theorem missing_lt_of_mem (h : set ⊆ set') (ha : a ∈ alphabet) (hnot : a ∉ set) (hmem : a ∈ set') :
    missing alphabet set' < missing alphabet set := by
  induction alphabet with
  | nil => cases ha
  | cons b alphabet ih =>
    have hle := missing_le_of_subset alphabet h
    rw [missing_cons, missing_cons]
    rcases List.mem_cons.mp ha with rfl | ha
    · rw [if_pos hmem, if_neg hnot]
      omega
    · have hlt := ih ha
      by_cases hb : b ∈ set
      · rw [if_pos hb, if_pos (h hb)]
        exact hlt
      · rw [if_neg hb]
        split <;> omega

theorem missing_extend_le (alphabet set members : List α) :
    missing alphabet (extend set members) ≤ missing alphabet set :=
  missing_le_of_subset alphabet fun _ ha => mem_extend.mpr (.inl ha)

theorem missing_extend_lt (halphabet : ∀ a, a ∈ alphabet)
    (h : (extend set members).length ≠ set.length) :
    missing alphabet (extend set members) < missing alphabet set := by
  obtain ⟨a, ha, hnot⟩ : ∃ a ∈ members, a ∉ set := by
    apply Classical.byContradiction
    intro hnone
    refine h (congrArg List.length (extend_eq_of_subset fun a ha => ?_))
    exact Classical.byContradiction fun hnot => hnone ⟨a, ha, hnot⟩
  exact missing_lt_of_mem (fun _ hb => mem_extend.mpr (.inl hb)) (halphabet a) hnot
    (mem_extend.mpr (.inr ha))

end Extend

namespace Grammar

def cells : List (Nonterminal × Terminal) :=
  Nonterminal.all.flatMap fun n => Terminal.all.map fun t => (n, t)

theorem mem_cells (n : Nonterminal) (t : Terminal) : (n, t) ∈ cells :=
  List.mem_flatMap.mpr ⟨n, n.mem_all, List.mem_map.mpr ⟨t, t.mem_all, rfl⟩⟩

structure Sets where
  nullable : List Nonterminal := []
  first : List (Nonterminal × Terminal) := []
  follow : List (Nonterminal × Terminal) := []
  deriving DecidableEq, Repr

namespace Sets

def isNullable (s : Sets) : List GrammarSymbol → Bool
  | [] => true
  | .terminal _ :: _ => false
  | .nonterminal n :: rest => s.nullable.contains n && s.isNullable rest
  | .action _ :: rest => s.isNullable rest

def beginsWith (s : Sets) (t : Terminal) : List GrammarSymbol → Bool
  | [] => false
  | .terminal u :: _ => u = t
  | .nonterminal n :: rest =>
    s.first.contains (n, t) || (s.nullable.contains n && s.beginsWith t rest)
  | .action _ :: rest => s.beginsWith t rest

def firstOf (s : Sets) (w : List GrammarSymbol) : List Terminal :=
  Terminal.all.filter fun t => s.beginsWith t w

def followOf (s : Sets) (n : Nonterminal) : List Terminal :=
  Terminal.all.filter fun t => s.follow.contains (n, t)

def missing (s : Sets) : Nat :=
  OnePass.missing Nonterminal.all s.nullable + OnePass.missing cells s.first +
    OnePass.missing cells s.follow

end Sets

/-! ## Sweeps -/

/-- An occurrence of a nonterminal in a rule: the left-hand side, and what stands behind it. -/
structure Occurrence where
  lhs : Nonterminal
  nonterminal : Nonterminal
  rest : List GrammarSymbol

def occurrences (lhs : Nonterminal) : List GrammarSymbol → List Occurrence
  | [] => []
  | .nonterminal n :: rest => ⟨lhs, n, rest⟩ :: occurrences lhs rest
  | .terminal _ :: rest => occurrences lhs rest
  | .action _ :: rest => occurrences lhs rest

def firstStep (s : Sets) (r : Rule) : Sets × Bool :=
  let first := s.firstOf r.derivation
  let nullable := extend s.nullable (if s.isNullable r.derivation then [r.lhs] else [])
  let firsts := extend s.first (first.map fun t => (r.lhs, t))
  ({ s with nullable, first := firsts },
    nullable.length != s.nullable.length || firsts.length != s.first.length)

/-- Adds to FOLLOW what comes behind one occurrence: what the rest of the rule begins with, and what
follows the left-hand side if the rest can vanish. -/
def followStep (s : Sets) (o : Occurrence) : Sets × Bool :=
  let follow := s.firstOf o.rest ++ if s.isNullable o.rest then s.followOf o.lhs else []
  let follows := extend s.follow (follow.map fun t => (o.nonterminal, t))
  ({ s with follow := follows }, follows.length != s.follow.length)

/-- Takes the steps one after the other, each on what the earlier ones have left. -/
def sweep {α : Type} (step : Sets → α → Sets × Bool) (s : Sets) : List α → Sets × Bool
  | [] => (s, false)
  | a :: rest =>
    let taken := step s a
    let others := sweep step taken.1 rest
    (others.1, taken.2 || others.2)

def firstSweep (g : Grammar) (s : Sets) : Sets × Bool :=
  sweep firstStep s g.rules

def followSweep (g : Grammar) (s : Sets) : Sets × Bool :=
  sweep followStep s (g.rules.flatMap fun r => occurrences r.lhs r.derivation)

/-- What is new in the sets is missing no longer. -/
def Shrinks (s : Sets) (result : Sets × Bool) : Prop :=
  result.1.missing ≤ s.missing ∧ (result.2 = true → result.1.missing < s.missing)

theorem shrinks_firstStep (s : Sets) (r : Rule) : Shrinks s (firstStep s r) := by
  let nulls := if s.isNullable r.derivation then [r.lhs] else []
  let firsts := (s.firstOf r.derivation).map fun t => (r.lhs, t)
  have hnullable := missing_extend_le Nonterminal.all s.nullable nulls
  have hfirst := missing_extend_le cells s.first firsts
  refine ⟨Nat.add_le_add_right (Nat.add_le_add hnullable hfirst) _, fun h => ?_⟩
  apply Nat.add_lt_add_right
  rcases Bool.or_eq_true_iff.mp h with h | h
  · have hlt := missing_extend_lt Nonterminal.mem_all (bne_iff_ne.mp h)
    exact Nat.add_lt_add_of_lt_of_le hlt hfirst
  · have hlt := missing_extend_lt (fun (n, t) => mem_cells n t) (bne_iff_ne.mp h)
    exact Nat.add_lt_add_of_le_of_lt hnullable hlt

theorem shrinks_followStep (s : Sets) (o : Occurrence) : Shrinks s (followStep s o) :=
  ⟨Nat.add_le_add_left (missing_extend_le cells s.follow _) _, fun h =>
    Nat.add_lt_add_left (missing_extend_lt (fun (n, t) => mem_cells n t) (bne_iff_ne.mp h)) _⟩

theorem shrinks_sweep {α : Type} {step : Sets → α → Sets × Bool}
    (hstep : ∀ s a, Shrinks s (step s a)) (s : Sets) (items : List α) :
    Shrinks s (sweep step s items) := by
  induction items generalizing s with
  | nil => exact ⟨Nat.le_refl _, fun h => by cases h⟩
  | cons a rest ih =>
    obtain ⟨hle, hlt⟩ := hstep s a
    obtain ⟨hle', hlt'⟩ := ih (step s a).1
    refine ⟨Nat.le_trans hle' hle, fun h => ?_⟩
    rcases Bool.or_eq_true_iff.mp h with h | h
    · exact Nat.lt_of_le_of_lt hle' (hlt h)
    · exact Nat.lt_of_lt_of_le (hlt' h) hle

def settle (swept : Sets → Sets × Bool) (shrinks : ∀ s, Shrinks s (swept s)) (s : Sets) : Sets :=
  if (swept s).2 then settle swept shrinks (swept s).1 else (swept s).1
termination_by s.missing
decreasing_by exact (shrinks s).2 ‹_›

def sets (g : Grammar) : Sets :=
  let initial : Sets := { follow := [(g.start, .endOfInput)] }
  let firsts := settle g.firstSweep (fun s => shrinks_sweep shrinks_firstStep s g.rules) initial
  settle g.followSweep (fun s => shrinks_sweep shrinks_followStep s _) firsts

def hasFirst (g : Grammar) (n : Nonterminal) : Bool :=
  g.rules.any fun r => r.lhs = n

/-- Whether the nonterminal is the start or occurs in a rule, and so has a FOLLOW set. -/
def hasFollow (g : Grammar) (n : Nonterminal) : Bool :=
  n = g.start || g.rules.any fun r => r.rhs.contains (.nonterminal n)

end Grammar

end OnePass
