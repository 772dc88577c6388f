import OnePass.Proofs.Machine
import OnePass.Proofs.Translation
import Mathlib.Data.List.Nodup

/-! # Names and labels of a translation

The code of a statement adds the names that the statement declares to those declared before, and
takes its labels from the numbers that have not been given out. So no label stands twice in the text
of a program, and a branch finds the one place of its label.
-/
namespace OnePass

/-! ## Labels -/

def CodeLabel.construct? : CodeLabel → Option Nat
  | main => none
  | beginOf n => some n
  | endOf n => some n

def Line.label? : Line → Option CodeLabel
  | label l => some l
  | _ => none

def labelsIn (lines : List Line) : List CodeLabel :=
  lines.filterMap Line.label?

theorem labelsIn_append (first rest : List Line) :
    labelsIn (first ++ rest) = labelsIn first ++ labelsIn rest :=
  List.filterMap_append

@[simp] theorem labelsIn_instructions (is : List Instruction) : labelsIn (instructions is) = [] := by
  simp [labelsIn, instructions, Line.label?]

theorem idxOf?_label {text : List Line} {i : Nat} {l : CodeLabel} (hd : (labelsIn text).Nodup)
    (h : text[i]? = some (.label l)) : text.idxOf? (.label l) = some i := by
  induction text generalizing i with
  | nil => simp at h
  | cons line text ih =>
    rw [List.idxOf?_cons]
    cases i with
    | zero =>
      cases (Option.some.inj h : line = .label l)
      simp
    | succ i =>
      rw [List.getElem?_cons_succ] at h
      have hmem : l ∈ labelsIn text :=
        List.mem_filterMap.mpr ⟨.label l, List.mem_of_getElem? h, rfl⟩
      have hne : line ≠ .label l := by
        rintro rfl
        have hcons : labelsIn (.label l :: text) = l :: labelsIn text := rfl
        rw [hcons, List.nodup_cons] at hd
        exact hd.1 hmem
      have htail : (labelsIn text).Nodup := by
        refine hd.sublist ?_
        exact (List.sublist_cons_self line text).filterMap _
      simp [hne, ih htail h]

/-! ## What a statement adds -/

/-- The lines lead from one state of the translation to another: they declare these names, and each
of their labels has a number of its own construct that was not given out before. -/
structure Progress.Spans (p q : Progress) (lines : List Line) (names : List String) : Prop where
  declared : q.declared = p.declared ++ names
  le : p.labels ≤ q.labels
  distinct : (labelsIn lines).Nodup
  fresh : ∀ l ∈ labelsIn lines, ∃ n, l.construct? = some n ∧ p.labels < n ∧ n ≤ q.labels

namespace Progress.Spans

variable {p q r : Progress} {lines first rest : List Line} {names names' : List String}

theorem instructions (p : Progress) (is : List Instruction) : p.Spans p (instructions is) [] where
  declared := by simp
  le := Nat.le_refl _
  distinct := by simp
  fresh := by simp

theorem append (h : p.Spans q first names) (h' : q.Spans r rest names') :
    p.Spans r (first ++ rest) (names ++ names') where
  declared := by rw [h'.declared, h.declared, List.append_assoc]
  le := Nat.le_trans h.le h'.le
  distinct := by
    rw [labelsIn_append, List.nodup_append]
    refine ⟨h.distinct, h'.distinct, ?_⟩
    rintro l hl _ hl' rfl
    obtain ⟨n, hn, -, hle⟩ := h.fresh l hl
    obtain ⟨n', hn', hlt, -⟩ := h'.fresh l hl'
    rw [hn] at hn'
    cases hn'
    omega
  fresh l hl := by
    rw [labelsIn_append, List.mem_append] at hl
    have := h.le
    have := h'.le
    rcases hl with hl | hl
    · obtain ⟨n, hn, hlt, hle⟩ := h.fresh l hl
      exact ⟨n, hn, hlt, by omega⟩
    · obtain ⟨n, hn, hlt, hle⟩ := h'.fresh l hl
      exact ⟨n, hn, by omega, hle⟩

/-- A construct puts its two labels around the lines of its parts. -/
theorem enclose (h : Progress.Spans { p with labels := p.labels + 1 } q first names)
    (hp : (labelsIn lines).Perm
      (.beginOf (p.labels + 1) :: .endOf (p.labels + 1) :: labelsIn first)) :
    p.Spans q lines names where
  declared := h.declared
  le := Nat.le_of_succ_le h.le
  distinct := by
    have hnew : ∀ l ∈ labelsIn first, l.construct? ≠ some (p.labels + 1) := by
      intro l hl he
      obtain ⟨n, hn, hlt, -⟩ := h.fresh l hl
      rw [he] at hn
      cases hn
      exact Nat.lt_irrefl _ hlt
    rw [hp.nodup_iff, List.nodup_cons, List.nodup_cons, List.mem_cons]
    refine ⟨?_, fun hl => hnew _ hl rfl, h.distinct⟩
    rintro (he | hl)
    · cases he
    · exact hnew _ hl rfl
  fresh l hl := by
    have hle : p.labels + 1 ≤ q.labels := h.le
    rcases List.mem_cons.mp (hp.mem_iff.mp hl) with rfl | hl
    · exact ⟨_, rfl, Nat.lt_succ_self _, hle⟩
    rcases List.mem_cons.mp hl with rfl | hl
    · exact ⟨_, rfl, Nat.lt_succ_self _, hle⟩
    · obtain ⟨n, hn, hlt, hle⟩ := h.fresh l hl
      exact ⟨n, hn, Nat.lt_of_succ_lt hlt, hle⟩

end Progress.Spans

theorem Condition.labelsIn_code {declared : List String} {n : Nat} {c : Condition}
    {lines : List Line} (h : c.code declared n = some lines) : labelsIn lines = [] := by
  rw [Condition.code_eq] at h
  obtain ⟨left, -, h⟩ := Option.bind_eq_some_iff.mp h
  obtain ⟨right, -, h⟩ := Option.bind_eq_some_iff.mp h
  obtain ⟨x, -, h⟩ := Option.bind_eq_some_iff.mp h
  cases h
  exact labelsIn_instructions _

mutual

theorem Statement.spans {literals : List String} : ∀ (s : Statement) {p : Progress}
    {x : List Line × Progress}, s.code literals p = some x → p.Spans x.2 x.1 s.declared
  | .assign y e, p, x, h => by
    obtain ⟨_, _, _, -, -, -, rfl⟩ := Statement.parts_of_assign h
    exact .instructions p _
  | .print e, p, x, h => by
    obtain ⟨_, _, -, -, rfl⟩ := Statement.parts_of_print h
    exact .instructions p _
  | .printText literal, p, x, h => by
    obtain ⟨_, _, -, -, rfl⟩ := Statement.parts_of_printText h
    exact .instructions p _
  | .declare y, p, x, h => by
    obtain ⟨-, rfl⟩ := Statement.parts_of_declare h
    exact { Progress.Spans.instructions p [.reserveSlot] with declared := rfl }
  | .skip, p, x, h => by
    rw [Statement.code] at h
    cases h
    exact .instructions p []
  | .block b, p, x, h => b.spans h
  | .ifThen c s, p, x, h => by
    obtain ⟨condition, y, hc, hy, rfl⟩ := Statement.parts_of_ifThen h
    refine (s.spans hy).enclose ?_
    rw [labelsIn_append, labelsIn_append, labelsIn_append, c.labelsIn_code hc, List.nil_append,
      List.append_assoc]
    exact List.perm_append_comm.trans (.swap _ _ _)
  | .ifElse c s t, p, x, h => by
    obtain ⟨condition, y, z, hc, hy, hz, rfl⟩ := Statement.parts_of_ifElse h
    refine ((s.spans hy).append (t.spans hz)).enclose ?_
    simp only [labelsIn_append, c.labelsIn_code hc, List.nil_append]
    refine List.perm_append_comm.trans (.cons _ ?_)
    rw [List.append_assoc]
    exact List.perm_middle
  | .whileDo c s, p, x, h => by
    obtain ⟨condition, y, hc, hy, rfl⟩ := Statement.parts_of_whileDo h
    refine (s.spans hy).enclose (.cons _ ?_)
    change (labelsIn (condition ++ y.1 ++ _)).Perm _
    rw [labelsIn_append, labelsIn_append, c.labelsIn_code hc, List.nil_append]
    exact List.perm_append_comm

theorem Sequence.spans {literals : List String} : ∀ (b : Sequence) {p : Progress}
    {x : List Line × Progress}, b.code literals p = some x → p.Spans x.2 x.1 b.declared
  | .last s, p, x, h => s.spans h
  | .more s b, p, x, h => by
    obtain ⟨y, z, hy, hz, rfl⟩ := Sequence.parts_of_more h
    exact (s.spans hy).append (b.spans hz)

end

theorem Sequence.nodup_labelsIn_text {literals : List String} {tree : Sequence} {p : Progress}
    {x : List Line × Progress} (h : tree.code literals p = some x) :
    (labelsIn (openingText ++ x.1 ++ closingText)).Nodup := by
  have hspans := tree.spans h
  have hlabels : labelsIn (openingText ++ x.1 ++ closingText) = .main :: labelsIn x.1 := by
    rw [labelsIn_append, labelsIn_append]
    exact List.append_nil _
  rw [hlabels, List.nodup_cons]
  refine ⟨fun hmain => ?_, hspans.distinct⟩
  obtain ⟨n, hn, -⟩ := hspans.fresh _ hmain
  cases hn

end OnePass
