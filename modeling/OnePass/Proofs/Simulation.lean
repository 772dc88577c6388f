import OnePass.Proofs.StatementExecution

/-! # The machine follows the program

A machine that is in step with a program matches every move of it, and every state that it gets to
is explained by the program: what has been printed, what is accessed, and the final values.
-/
namespace OnePass

variable {p : Platform} {text data : List Line} {literals declared : List String} {m m' : Machine}
  {c c' : Activity}

theorem Machine.next_of_halted (h : m.halted = true) : m.next p text = none := by
  simp [next, h]

theorem Machine.halted_of_next (h : m.next p text ≠ none) : m.halted = false := by
  cases hm : m.halted with
  | false => rfl
  | true => exact absurd (next_of_halted hm) h

structure Explained (p : Platform) (text data : List Line) (declared : List String) (c : Activity)
    (m : Machine) : Prop where
  /-- The machine stops only at its end. -/
  moves : m.halted = false → m.next p text ≠ none
  output : ∃ c', Attains (Activity.next p.quotient) c c' ∧
    m.output.map (printed? data) = c'.store.output.map some
  halted : m.halted = true → ∃ c', Attains (Activity.next p.quotient) c c' ∧ c'.todo = [] ∧
    m.output.map (printed? data) = c'.store.output.map some ∧ m.Holds declared c'.store.values
  accesses : ∀ slot, m.Accesses text slot → ∃ c', Attains (Activity.next p.quotient) c c' ∧
    (∃ x ∈ c'.uses, slot? declared x = some slot) ∧ m.reserved = c'.store.declarations ∧
    m.sp = m.fp - 4 * m.reserved

theorem Explained.of_next (hc : c.next p.quotient = some c')
    (h : Explained p text data declared c' m) : Explained p text data declared c m where
  moves := h.moves
  output := by
    obtain ⟨c'', hattains, houtput⟩ := h.output
    exact ⟨c'', (Attains.single hc).trans hattains, houtput⟩
  halted hhalted := by
    obtain ⟨c'', hattains, hrest⟩ := h.halted hhalted
    exact ⟨c'', (Attains.single hc).trans hattains, hrest⟩
  accesses slot hslot := by
    obtain ⟨c'', hattains, hrest⟩ := h.accesses slot hslot
    exact ⟨c'', (Attains.single hc).trans hattains, hrest⟩

/-- On its way through some lines, the machine has not halted. -/
theorem Explained.of_mem {m₁ : Machine} {ms : List Machine} {slots : List Nat}
    (hpassage : Passage p text m ms m₁ slots) (hmem : m' ∈ ms)
    (houtput : ∃ c', Attains (Activity.next p.quotient) c c' ∧
      m'.output.map (printed? data) = c'.store.output.map some)
    (haccesses : ∀ slot ∈ slots, m'.Accesses text slot →
      ∃ c', Attains (Activity.next p.quotient) c c' ∧
        (∃ x ∈ c'.uses, slot? declared x = some slot) ∧ m'.reserved = c'.store.declarations ∧
        m'.sp = m'.fp - 4 * m'.reserved) : Explained p text data declared c m' where
  moves _ := hpassage.run.ne_none_of_mem hmem
  output := houtput
  halted hhalted := by
    rw [Machine.halted_of_next (hpassage.run.ne_none_of_mem hmem)] at hhalted
    cases hhalted
  accesses slot hslot := haccesses slot ((hpassage.slots slot).mp ⟨m', hmem, hslot⟩) hslot

/-! ## The end of a program -/

/-- When nothing is left to be done, the machine comes to its end and keeps what it has. -/
theorem InStep.exists_halt {σ : Store} (hd : (labelsIn text).Nodup)
    (h : InStep text data literals declared m ⟨[], σ⟩) :
    ∃ ms m', Passage p text m ms m' [] ∧ m'.halted = true ∧ m'.output = m.output ∧
      m'.cells = m.cells := by
  obtain ⟨ms, n, hpassage, hclear, hleave, hreturn, -⟩ :=
    h.place.exists_ready (p := p) hd rfl h.reflects.running
  let m₁ := (Instruction.clearResult.effect p (m.goto n)).goto (n + 1)
  let m₂ := (Instruction.leaveFrame.effect p m₁).goto (n + 2)
  let m₃ := (Instruction.returnToCaller.effect p m₂).goto (n + 3)
  have hrun := h.reflects.running
  have h₀ : Passage p text (m.goto n) [m.goto n] m₁ [] :=
    .straight hclear (show (m.goto n).halted = false from hrun) rfl
  have h₁ : Passage p text m₁ [m₁] m₂ [] :=
    .straight hleave (show m₁.halted = false from hrun) rfl
  have h₂ : Passage p text m₂ [m₂] m₃ [] :=
    .straight hreturn (show m₂.halted = false from hrun) rfl
  exact ⟨_, m₃, ((hpassage.append h₀ (.inl rfl) (.inl rfl)).append h₁ (.inl rfl) (.inl rfl)).append h₂
    (.inl rfl) (.inl rfl), rfl, rfl, rfl⟩

/-! ## Whole runs -/

theorem Sequence.sizeOf_statements (rest : List Statement) : ∀ b : Sequence,
    sizeOf (b.statements ++ rest) ≤ sizeOf b + sizeOf rest
  | .last s => by
    refine Nat.le_of_eq ?_
    rw [Sequence.statements, List.cons_append, List.nil_append, List.cons.sizeOf_spec,
      Sequence.last.sizeOf_spec]
  | .more s b => by
    have := b.sizeOf_statements rest
    rw [Sequence.statements, List.cons_append, List.cons.sizeOf_spec, Sequence.more.sizeOf_spec]
    omega

/-- The moves that the machine does not notice make what is to be done smaller. -/
theorem Statement.sizeOf_enter {quotient : BitVec 32 → BitVec 32 → BitVec 32} {σ : Store}
    {s : Statement} {rest : List Statement} (h : s.leastSteps = 0) :
    sizeOf ((s.enter quotient σ).1 ++ rest) < sizeOf (s :: rest) := by
  cases s with
  | block b =>
    have := b.sizeOf_statements rest
    change sizeOf (b.statements ++ rest) < _
    rw [List.cons.sizeOf_spec, Statement.block.sizeOf_spec]
    omega
  | skip =>
    rw [List.cons.sizeOf_spec, Statement.enter, List.nil_append]
    omega
  | _ => cases h

theorem InStep.explained_nil {σ : Store} (hd : (labelsIn text).Nodup)
    (h : InStep text data literals declared m ⟨[], σ⟩) {ms : List Machine}
    (hrun : Run (Machine.next p text) m ms m') :
    Explained p text data declared ⟨[], σ⟩ m' := by
  obtain ⟨ms₀, m₁, hpassage, hhalted, houtput, hcells⟩ := h.exists_halt (p := p) hd
  have hreflects : m.output.map (printed? data) = σ.output.map some := h.reflects.output
  rcases hpassage.run.split hrun with hmem | ⟨ms₁, -, hms₁⟩
  · refine .of_mem hpassage hmem ⟨_, .refl _, ?_⟩ (by simp)
    rcases hpassage.output m' hmem with he | he
    · rw [he, hreflects]
    · rw [he, houtput, hreflects]
  · obtain rfl := hms₁.eq_of_none (Machine.next_of_halted hhalted)
    have hsame : m'.output.map (printed? data) = σ.output.map some := by rw [houtput, hreflects]
    refine ⟨fun hm => ?_, ⟨_, .refl _, hsame⟩, fun _ => ⟨_, .refl _, rfl, hsame, ?_⟩,
      fun slot hslot => ?_⟩
    · rw [hhalted] at hm
      cases hm
    · intro x slot hslot
      rw [hcells]
      exact h.reflects.cells x slot hslot
    · rw [hslot.1] at hhalted
      cases hhalted

/-- Every state that a machine in step with a program gets to is explained by the program. -/
theorem InStep.explained (hd : (labelsIn text).Nodup) (hdata : Defines data literals) :
    ∀ (c : Activity) (m : Machine) (ms : List Machine), InStep text data literals declared m c →
      Run (Machine.next p text) m ms m' → Explained p text data declared c m'
  | ⟨[], _⟩, _, _, h, hrun => h.explained_nil hd hrun
  | ⟨s :: rest, σ⟩, m, ms, h, hrun => by
    obtain ⟨ms₀, m₁, slots, hpassage, hleast, hinstep, hslots⟩ := h.arrives (p := p) hd hdata
    have hnext : Activity.next p.quotient ⟨s :: rest, σ⟩ =
        some ⟨(s.enter p.quotient σ).1 ++ rest, (s.enter p.quotient σ).2⟩ := rfl
    rcases hpassage.run.split hrun with hmem | ⟨ms₁, hms, hms₁⟩
    · refine .of_mem hpassage hmem ?_ fun slot hslot haccess => ?_
      · rcases hpassage.output m' hmem with he | he
        · exact ⟨_, .refl _, he ▸ h.reflects.output⟩
        · exact ⟨_, .single hnext, he ▸ hinstep.reflects.output⟩
      · obtain ⟨hreserved, hsp, hfp⟩ := hpassage.frame m' hmem slot haccess
        refine ⟨_, .refl _, (hslots slot).mp hslot, hreserved.trans h.reflects.reserved, ?_⟩
        rw [hsp, hfp, hreserved]
        exact h.reflects.stack
    · -- Either the machine has taken a step, or what is to be done has become smaller.
      have hsmaller : ms₁.length < ms.length ∨ ms₁.length = ms.length ∧
          sizeOf ((s.enter p.quotient σ).1 ++ rest) < sizeOf (s :: rest) := by
        rw [hms, List.length_append]
        cases ms₀ with
        | nil => exact .inr ⟨by simp, Statement.sizeOf_enter (Nat.le_zero.mp hleast)⟩
        | cons =>
          rw [List.length_cons]
          exact .inl (by omega)
      exact .of_next hnext (explained hd hdata _ m₁ ms₁ hinstep hms₁)
  termination_by c _ ms => (ms.length, sizeOf c.todo)
  decreasing_by exact Prod.lex_def.mpr hsmaller

/-- A machine in step with a program matches every move of it. -/
theorem InStep.exists_attains (hd : (labelsIn text).Nodup) (hdata : Defines data literals)
    (h : InStep text data literals declared m c) (hc : Attains (Activity.next p.quotient) c c') :
    ∃ m', Attains (Machine.next p text) m m' ∧ InStep text data literals declared m' c' := by
  obtain ⟨cs, hcs⟩ := hc
  induction hcs generalizing m with
  | here => exact ⟨m, .refl m, h⟩
  | @step c c₁ c' cs hnext _ ih =>
    obtain ⟨todo, σ⟩ := c
    cases todo with
    | nil => cases hnext
    | cons s rest =>
      cases hnext
      obtain ⟨ms, m₁, _, hpassage, -, hinstep, -⟩ := h.arrives (p := p) hd hdata
      obtain ⟨m', hattains, hinstep'⟩ := ih hinstep
      exact ⟨m', Attains.trans ⟨ms, hpassage.run⟩ hattains, hinstep'⟩

end OnePass
