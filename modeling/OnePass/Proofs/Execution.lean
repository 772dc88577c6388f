import OnePass.Proofs.Machine
import OnePass.Proofs.Translation

/-! # Straight-line execution

What the machine does while it executes lines one behind the other. Beside its end, a passage says
what happens on the way: which slots are accessed, and that nothing is printed that is not printed
at its end.
-/
namespace OnePass

/-! ## Passages -/

/-- The two states agree on the output and on the extent of the frame. -/
structure Machine.Steady (m m' : Machine) : Prop where
  output : m'.output = m.output
  reserved : m'.reserved = m.reserved
  sp : m'.sp = m.sp
  fp : m'.fp = m.fp

namespace Machine.Steady

variable {m m' m'' : Machine}

theorem refl (m : Machine) : m.Steady m :=
  ⟨rfl, rfl, rfl, rfl⟩

theorem trans (h : m.Steady m') (h' : m'.Steady m'') : m.Steady m'' where
  output := h'.output.trans h.output
  reserved := h'.reserved.trans h.reserved
  sp := h'.sp.trans h.sp
  fp := h'.fp.trans h.fp

theorem goto (h : m.Steady m') {n : Nat} : m.Steady (m'.goto n) :=
  ⟨h.output, h.reserved, h.sp, h.fp⟩

end Machine.Steady

/-- A run of the machine that accesses exactly these slots, all of them while the frame extends as
it does at the start. -/
structure Passage (p : Platform) (text : List Line) (m : Machine) (ms : List Machine) (m' : Machine)
    (slots : List Nat) : Prop where
  run : Run (Machine.next p text) m ms m'
  output : ∀ x ∈ ms, x.output = m.output ∨ x.output = m'.output
  frame : ∀ x ∈ ms, ∀ slot, x.Accesses text slot →
    x.reserved = m.reserved ∧ x.sp = m.sp ∧ x.fp = m.fp
  slots : ∀ slot, (∃ x ∈ ms, x.Accesses text slot) ↔ slot ∈ slots

section

variable {p : Platform} {text : List Line} {m m' m'' : Machine} {ms ms' : List Machine}
  {slots slots' : List Nat} {line : Line} {n : Nat}

theorem Machine.next_eq (hline : text[m.line]? = some line) (hrun : m.halted = false)
    (hn : m.successor text line = some n) :
    m.next p text = some ((line.effect p m).goto n) := by
  simp [Machine.next, hrun, hline, hn]

theorem Machine.successor_of_target?_eq_none (h : line.target? m.flags = none) :
    m.successor text line = some (m.line + 1) := by
  simp [successor, h]

theorem Machine.successor_of_target? {l : CodeLabel} (h : line.target? m.flags = some l) :
    m.successor text line = text.idxOf? (.label l) := by
  simp [successor, h]

namespace Passage

theorem here (m : Machine) : Passage p text m [] m [] where
  run := .here
  output := by simp
  frame := by simp
  slots := by simp

theorem single (hline : text[m.line]? = some line) (hrun : m.halted = false)
    (hn : m.successor text line = some n) :
    Passage p text m [m] ((line.effect p m).goto n) line.slot?.toList where
  run := .single (Machine.next_eq hline hrun hn)
  output := by simp
  frame := by simp
  slots slot := by simp [Machine.Accesses, hrun, hline]

theorem straight (hline : text[m.line]? = some line) (hrun : m.halted = false)
    (ht : line.target? m.flags = none) :
    Passage p text m [m] ((line.effect p m).goto (m.line + 1)) line.slot?.toList :=
  .single hline hrun (Machine.successor_of_target?_eq_none ht)

theorem append (h : Passage p text m ms m' slots) (h' : Passage p text m' ms' m'' slots')
    (ho : m'.output = m.output ∨ m''.output = m'.output)
    (hf : slots' = [] ∨ m'.reserved = m.reserved ∧ m'.sp = m.sp ∧ m'.fp = m.fp) :
    Passage p text m (ms ++ ms') m'' (slots ++ slots') where
  run := h.run.append h'.run
  output x hx := by
    rcases List.mem_append.mp hx with hx | hx
    · rcases h.output x hx with hx | hx
      · exact .inl hx
      · rcases ho with ho | ho
        · exact .inl (hx.trans ho)
        · exact .inr (hx.trans ho.symm)
    · rcases h'.output x hx with hx | hx
      · rcases ho with ho | ho
        · exact .inl (hx.trans ho)
        · exact .inr (hx.trans ho.symm)
      · exact .inr hx
  frame x hx slot ha := by
    rcases List.mem_append.mp hx with hx | hx
    · exact h.frame x hx slot ha
    · rcases hf with rfl | ⟨hreserved, hsp, hfp⟩
      · exact absurd ((h'.slots slot).mp ⟨x, hx, ha⟩) (by simp)
      · obtain ⟨hr, hs, hf⟩ := h'.frame x hx slot ha
        exact ⟨hr.trans hreserved, hs.trans hsp, hf.trans hfp⟩
  slots slot := by
    rw [List.mem_append, ← h.slots, ← h'.slots]
    constructor
    · rintro ⟨x, hx, ha⟩
      rcases List.mem_append.mp hx with hx | hx
      · exact .inl ⟨x, hx, ha⟩
      · exact .inr ⟨x, hx, ha⟩
    · rintro (⟨x, hx, ha⟩ | ⟨x, hx, ha⟩)
      · exact ⟨x, List.mem_append_left _ hx, ha⟩
      · exact ⟨x, List.mem_append_right _ hx, ha⟩

theorem trans (h : Passage p text m ms m' slots) (hs : m.Steady m')
    (h' : Passage p text m' ms' m'' slots') :
    Passage p text m (ms ++ ms') m'' (slots ++ slots') :=
  h.append h' (.inl hs.output) (.inr ⟨hs.reserved, hs.sp, hs.fp⟩)

end Passage

/-! ## Lines in their places -/

def Located (text : List Line) : Nat → List Line → Prop
  | _, [] => True
  | n, line :: lines => text[n]? = some line ∧ Located text (n + 1) lines

theorem located_append {n : Nat} {first rest : List Line} :
    Located text n (first ++ rest) ↔
      Located text n first ∧ Located text (n + first.length) rest := by
  induction first generalizing n with
  | nil => simp [Located]
  | cons line first ih =>
    have hplace : n + 1 + first.length = n + (line :: first).length := by
      rw [List.length_cons]
      omega
    simp only [List.cons_append, Located, ih, hplace, and_assoc]

theorem located_behind (first rest : List Line) :
    Located (first ++ rest) first.length rest := by
  induction rest generalizing first with
  | nil => trivial
  | cons line rest ih =>
    have hrest := ih (first ++ [line])
    refine ⟨by simp, ?_⟩
    simpa using hrest

/-! ## Instructions without branches -/

def execute (p : Platform) (is : List Instruction) (m : Machine) : Machine :=
  is.foldl (fun m i => i.effect p m) m

@[simp] theorem execute_nil (m : Machine) : execute p [] m = m := rfl

@[simp] theorem execute_cons (i : Instruction) (is : List Instruction) (m : Machine) :
    execute p (i :: is) m = execute p is (i.effect p m) := rfl

theorem execute_append (is js : List Instruction) (m : Machine) :
    execute p (is ++ js) m = execute p js (execute p is m) :=
  List.foldl_append

namespace Instruction

def isComputation : Instruction → Bool
  | loadNumber .. | loadAddress .. | loadVariable .. | arithmetic .. | negate .. => true
  | _ => false

/-- The instruction is followed by the next line, and neither prints nor moves the frame. -/
def isQuiet : Instruction → Bool
  | storeVariable .. | compare .. | selectFormat .. => true
  | i => i.isComputation

variable {i : Instruction}

theorem isQuiet_of_isComputation (h : i.isComputation = true) : i.isQuiet = true := by
  cases i <;> cases h <;> rfl

theorem target?_of_isQuiet (h : i.isQuiet = true) (flags : Ordering) : i.target? flags = none := by
  cases i <;> cases h <;> rfl

theorem steady_of_isQuiet (h : i.isQuiet = true) (m : Machine) : m.Steady (i.effect p m) := by
  cases i <;> cases h <;> exact ⟨rfl, rfl, rfl, rfl⟩

theorem halted_of_isQuiet (h : i.isQuiet = true) (m : Machine) :
    (i.effect p m).halted = m.halted := by
  cases i <;> cases h <;> rfl

theorem effect_goto_of_isQuiet (h : i.isQuiet = true) (m : Machine) (n : Nat) :
    i.effect p (m.goto n) = (i.effect p m).goto n := by
  cases i <;> cases h <;> rfl

theorem effect_of_isComputation (h : i.isComputation = true) (m : Machine) :
    i.effect p m = { m with work := (i.effect p m).work } := by
  cases i <;> cases h <;> rfl

end Instruction

def accessed (is : List Instruction) : List Nat :=
  is.filterMap Instruction.slot?

theorem execute_goto {is : List Instruction} (h : ∀ i ∈ is, i.isQuiet = true) (m : Machine)
    (n : Nat) : execute p is (m.goto n) = (execute p is m).goto n := by
  induction is generalizing m with
  | nil => rfl
  | cons i is ih =>
    rw [List.forall_mem_cons] at h
    rw [execute_cons, Instruction.effect_goto_of_isQuiet h.1, ih h.2, execute_cons]

theorem execute_of_isComputation {is : List Instruction} (h : ∀ i ∈ is, i.isComputation = true)
    (m : Machine) : execute p is m = { m with work := (execute p is m).work } := by
  induction is generalizing m with
  | nil => rfl
  | cons i is ih =>
    rw [List.forall_mem_cons] at h
    rw [execute_cons, ih h.2, Instruction.effect_of_isComputation h.1]

/-- Quiet instructions are executed one behind the other. -/
theorem exists_passage_of_isQuiet {is : List Instruction} (h : ∀ i ∈ is, i.isQuiet = true)
    (hl : Located text m.line (instructions is)) (hrun : m.halted = false) :
    ∃ ms, ms.length = is.length ∧
      Passage p text m ms ((execute p is m).goto (m.line + is.length)) (accessed is) := by
  induction is generalizing m with
  | nil => exact ⟨[], rfl, .here m⟩
  | cons i is ih =>
    rw [List.forall_mem_cons] at h
    obtain ⟨hline, hrest⟩ := hl
    have hfirst : Passage p text m [m] ((i.effect p m).goto (m.line + 1)) i.slot?.toList :=
      .straight hline hrun (Instruction.target?_of_isQuiet h.1 m.flags)
    have hrun' : ((i.effect p m).goto (m.line + 1)).halted = false :=
      (Instruction.halted_of_isQuiet h.1 m).trans hrun
    obtain ⟨ms, hms, hpassage⟩ := ih h.2 hrest hrun'
    rw [execute_goto h.2] at hpassage
    refine ⟨m :: ms, by simp [hms], ?_⟩
    have hslots : accessed (i :: is) = i.slot?.toList ++ accessed is := by
      cases hi : i.slot? <;> simp [accessed, hi]
    have hplace : m.line + (i :: is).length = m.line + 1 + is.length := by
      rw [List.length_cons]
      omega
    rw [hslots, hplace]
    exact hfirst.trans (Instruction.steady_of_isQuiet h.1 m).goto hpassage

end

end OnePass
