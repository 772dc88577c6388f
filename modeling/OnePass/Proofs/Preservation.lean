import OnePass.Proofs.Listing
import OnePass.Proofs.Simulation

/-! # Preservation of meaning

A program that compiles and its text, executed from the entry, do the same: one comes to its end if
the other does, with the same output and the same values, and whatever one of them prints on its way
the other prints as well.
-/
namespace OnePass

section AnyDistance

variable {distance : String → String → Nat} [NameDistance distance]

variable {p : Platform} {text data : List Line} {m m' : Machine} {tree : Sequence}

/-! ## The data of a program -/

theorem findSome?_definitions (literals : List String) (n i : Nat) (hi : n ≤ i) :
    definition? ((literals.zipIdx n).map fun (literal, j) => .definition (.literal (j + 1)) literal)
      (.literal (i + 1)) = literals[i - n]? := by
  induction literals generalizing n with
  | nil => rfl
  | cons literal literals ih =>
    rw [List.zipIdx_cons, List.map_cons, definition?_cons]
    by_cases hn : n = i
    · subst hn
      simp
    · have hlt : i - n = i - (n + 1) + 1 := by omega
      rw [if_neg (by simpa using hn), ih (n + 1) (by omega), hlt, List.getElem?_cons_succ]

theorem defines_openingData (literals : List String) :
    Defines (openingData ++ definitions literals) literals where
  integerFormat := rfl
  stringFormat := rfl
  literal literal label hl := by
    obtain ⟨i, hi, rfl⟩ := Option.map_eq_some_iff.mp hl
    obtain ⟨hlt, he, -⟩ := List.idxOf?_eq_some_iff.mp hi
    have hopening : definition? (openingData ++ definitions literals) (.literal (i + 1)) =
        definition? (definitions literals) (.literal (i + 1)) := rfl
    rw [hopening]
    refine (findSome?_definitions literals 0 i (Nat.zero_le i)).trans ?_
    rw [Nat.sub_zero, List.getElem?_eq_getElem hlt, he]

/-! ## The entry of a program -/

theorem Machine.AtEntry.exists_inStep {code : List Line} {progress : Progress}
    {values : String → BitVec 32} (hm : m.AtEntry text)
    (hcode : tree.code tree.distinctLiterals {} = some (code, progress))
    (htext : text = openingText ++ code ++ closingText) (hvalues : m.Holds tree.declared values) :
    ∃ ms m', Passage p text m ms m' [] ∧ m'.output = m.output ∧
      InStep text data tree.distinctLiterals tree.declared m' (tree.start values) := by
  have hd : (labelsIn text).Nodup := by
    rw [htext]
    exact tree.nodup_labelsIn_text hcode
  have hall : Located text 0 (openingText ++ code ++ closingText) :=
    htext ▸ located_behind [] text
  rw [located_append, located_append] at hall
  obtain ⟨⟨⟨-, hmain, hsave, henter, -⟩, hlocated⟩, hclose⟩ := hall
  -- The label of the entry stands only at the second line.
  have hline : m.line = 1 :=
    Option.some.inj ((idxOf?_label hd hm.line).symm.trans (idxOf?_label hd hmain))
  let m₁ := m.goto 2
  let m₂ := (Instruction.saveFrame.effect p m₁).goto 3
  let m₃ := (Instruction.enterFrame.effect p m₂).goto 4
  have hrun := hm.running
  have h₀ : Passage p text m [m] (m.goto (m.line + 1)) [] := .straight hm.line hrun rfl
  have h₁ : Passage p text m₁ [m₁] m₂ [] := .straight hsave (show m₁.halted = false from hrun) rfl
  have h₂ : Passage p text m₂ [m₂] m₃ [] := .straight henter (show m₂.halted = false from hrun) rfl
  rw [hline] at h₀
  refine ⟨_, m₃, (h₀.append h₁ (.inl rfl) (.inl rfl)).append h₂ (.inl rfl) (.inl rfl), rfl, ?_, ?_⟩
  · exact {
      running := hrun
      cells := hvalues
      output := congrArg (List.map (printed? data)) hm.output
      reserved := hm.reserved
      stack := by simp [m₃, m₂, m₁, Machine.goto, Instruction.effect, hm.reserved] }
  · have hdeclared : progress.declared = tree.declared := (tree.spans hcode).declared
    have hextended : progress.declared <+: tree.declared := ⟨[], by rw [List.append_nil, hdeclared]⟩
    rw [List.length_append, ← Nat.add_assoc] at hclose
    have hplace : Continues text tree.distinctLiterals tree.declared 4 (tree.statements ++ []) :=
      tree.continues hcode hextended hlocated (.close hclose)
    rwa [List.append_nil] at hplace

/-- What holds of the runs of a machine at its entry: the program explains every state of them, and
they match every move of the program. -/
structure Tracks (p : Platform) (text data : List Line) (tree : Sequence)
    (values : String → BitVec 32) (m : Machine) : Prop where
  labels : (labelsIn text).Nodup
  defines : Defines data tree.distinctLiterals
  explained : ∀ m', Attains (Machine.next p text) m m' →
    Explained p text data tree.declared (tree.start values) m'
  matched : ∀ c, Attains (Activity.next p.quotient) (tree.start values) c →
    ∃ m', Attains (Machine.next p text) m m' ∧
      InStep text data tree.distinctLiterals tree.declared m' c

theorem tracks_of_code {code : List Line} {progress : Progress} {values : String → BitVec 32}
    (hm : m.AtEntry text) (hcode : tree.code tree.distinctLiterals {} = some (code, progress))
    (htext : text = openingText ++ code ++ closingText)
    (hdata : Defines data tree.distinctLiterals) (hvalues : m.Holds tree.declared values) :
    Tracks p text data tree values m := by
  have hd : (labelsIn text).Nodup := by
    rw [htext]
    exact tree.nodup_labelsIn_text hcode
  obtain ⟨ms, m₁, hpassage, houtput, hinstep⟩ : ∃ ms m', Passage p text m ms m' [] ∧
      m'.output = m.output ∧
      InStep text data tree.distinctLiterals tree.declared m' (tree.start values) :=
    hm.exists_inStep hcode htext hvalues
  refine ⟨hd, hdata, ?_, fun c hc => ?_⟩
  · rintro m' ⟨ms', hms'⟩
    rcases hpassage.run.split hms' with hmem | ⟨ms₁, -, hms₁⟩
    · -- The machine has not left the opening lines.
      have hsilent : m'.output = [] := by
        rcases hpassage.output m' hmem with he | he
        · rw [he, hm.output]
        · rw [he, houtput, hm.output]
      exact .of_mem hpassage hmem ⟨_, .refl _, by rw [hsilent]; rfl⟩ (by simp)
    · exact InStep.explained hd hdata _ m₁ ms₁ hinstep hms₁
  · obtain ⟨m', hattains, hinstep'⟩ := hinstep.exists_attains hd hdata hc
    exact ⟨m', Attains.trans ⟨ms, hpassage.run⟩ hattains, hinstep'⟩

theorem tracks_of_compile {source : String} {a : Assembly} {values : String → BitVec 32}
    (h : compile Assembly (.ofText source) = .ok a) (ht : tree.ParsesText source)
    (hm : m.AtEntry a.text.toList) (hvalues : m.Holds tree.declared values) :
    Tracks p a.text.toList a.data.toList tree values m := by
  obtain ⟨body, final, hl, hf, hparses⟩ := ht
  obtain ⟨code, progress, hcode, htext, hdata⟩ := exists_code_of_compile h hl hf hparses
  refine tracks_of_code hm hcode htext ?_ hvalues
  rw [hdata]
  exact defines_openingData _

/-- The entry of a compiled program is its second line. -/
theorem atEntry_blank {source : String} {a : Assembly}
    (h : compile Assembly (.ofText source) = .ok a) : Machine.blank.AtEntry a.text.toList := by
  obtain ⟨tree, body, final, hl, hf, hparses⟩ := exists_parsesText h
  obtain ⟨code, progress, -, htext, -⟩ := exists_code_of_compile h hl hf hparses
  refine ⟨?_, rfl, rfl, rfl⟩
  rw [htext]
  rfl

/-! ## Equal behaviour -/

namespace Tracks

variable {values : String → BitVec 32}

theorem halts_iff (h : Tracks p text data tree values m) :
    (∃ m', Attains (Machine.next p text) m m' ∧ m'.halted = true) ↔
      ∃ c, Attains (Activity.next p.quotient) (tree.start values) c ∧ c.todo = [] := by
  constructor
  · rintro ⟨m', hm', hhalted⟩
    obtain ⟨c, hc, htodo, -⟩ := (h.explained m' hm').halted hhalted
    exact ⟨c, hc, htodo⟩
  · rintro ⟨⟨_, σ⟩, hc, rfl⟩
    obtain ⟨m', hm', hinstep⟩ := h.matched _ hc
    obtain ⟨ms, m'', hpassage, hhalted, -⟩ := hinstep.exists_halt (p := p) h.labels
    exact ⟨m'', hm'.trans ⟨ms, hpassage.run⟩, hhalted⟩

/-- Where both come to their end, the output and the values of the declared variables are equal. -/
theorem eq_of_halted (h : Tracks p text data tree values m) {c : Activity}
    (hm' : Attains (Machine.next p text) m m') (hhalted : m'.halted = true)
    (hc : Attains (Activity.next p.quotient) (tree.start values) c) (htodo : c.todo = []) :
    m'.output.map (printed? data) = c.store.output.map some ∧
      m'.Holds tree.declared c.store.values := by
  obtain ⟨c', hc', htodo', houtput, hholds⟩ := (h.explained m' hm').halted hhalted
  obtain rfl := hc.eq_of_stops hc' (Activity.next_eq_none.mpr htodo) (Activity.next_eq_none.mpr htodo')
  exact ⟨houtput, hholds⟩

theorem prints_iff (h : Tracks p text data tree values m) (shown : List Printed) :
    (∃ m', Attains (Machine.next p text) m m' ∧
        shown.map some <+: m'.output.map (printed? data)) ↔
      ∃ c, Attains (Activity.next p.quotient) (tree.start values) c ∧ shown <+: c.store.output := by
  have hextended : ∀ output : List Printed, shown.map some <+: output.map some ↔ shown <+: output :=
    fun output => (List.prefix_map_iff_of_injective (Option.some_injective _))
  constructor
  · rintro ⟨m', hm', hshown⟩
    obtain ⟨c, hc, houtput⟩ := (h.explained m' hm').output
    rw [houtput, hextended] at hshown
    exact ⟨c, hc, hshown⟩
  · rintro ⟨c, hc, hshown⟩
    obtain ⟨m', hm', hinstep⟩ := h.matched c hc
    refine ⟨m', hm', ?_⟩
    rw [hinstep.reflects.output, hextended]
    exact hshown

end Tracks

/-- The listing of a program that compiles can be read, and the text in it does what the program does,
whatever the machine holds at its entry. One of them comes to its end if the other does, and then
they have printed the same and the declared variables have the same values. What one of them has
printed at some time, the other has printed at some time. The machine never gets stuck. -/
theorem compile_preserves_meaning (source : String) (a : Assembly)
    (h : compile Assembly (.ofText source) = .ok a) :
    ∃ text data, readLines? (a.listing .text) = some text ∧
      readLines? (a.listing .data) = some data ∧
      (∃ tree : Sequence, tree.ParsesText source) ∧
      ∀ tree : Sequence, tree.ParsesText source → ∀ (p : Platform) (m : Machine)
        (values : String → BitVec 32), m.AtEntry text → m.Holds tree.declared values →
        ((∃ m', Attains (Machine.next p text) m m' ∧ m'.halted = true) ↔
          ∃ c, Attains (Activity.next p.quotient) (tree.start values) c ∧ c.todo = []) ∧
        (∀ m' c, Attains (Machine.next p text) m m' → m'.halted = true →
          Attains (Activity.next p.quotient) (tree.start values) c → c.todo = [] →
          m'.output.map (printed? data) = c.store.output.map some ∧
            m'.Holds tree.declared c.store.values) ∧
        (∀ shown : List Printed,
          (∃ m', Attains (Machine.next p text) m m' ∧
            shown.map some <+: m'.output.map (printed? data)) ↔
          ∃ c, Attains (Activity.next p.quotient) (tree.start values) c ∧
            shown <+: c.store.output) ∧
        ∀ m', Attains (Machine.next p text) m m' → m'.halted = false → m'.next p text ≠ none := by
  refine ⟨_, _, readLines?_listing h .text, readLines?_listing h .data, exists_parsesText h,
    fun tree ht p m values hm hvalues => ?_⟩
  have htracks : Tracks p a.text.toList a.data.toList tree values m :=
    tracks_of_compile h ht hm hvalues
  refine ⟨htracks.halts_iff, fun m' c hm' hhalted hc htodo => ?_, htracks.prints_iff, ?_⟩
  · exact htracks.eq_of_halted hm' hhalted hc htodo
  · intro m' hm'
    exact (htracks.explained m' hm').moves

end AnyDistance

theorem compile_preserves_meaning_of_countdown :
    ∃ a text data m', compile Assembly (.ofText countdown) = .ok a ∧
      readLines? (a.listing .text) = some text ∧ readLines? (a.listing .data) = some data ∧
      Machine.blank.AtEntry text ∧ Attains (Machine.next .plain text) .blank m' ∧
      m'.halted = true ∧ m'.output.map (printed? data) = [some (.number 5)] ∧ m'.cells 1 = 5 := by
  obtain ⟨a, h⟩ := exists_compile_countdown
  obtain ⟨text, data, htext, hdata, -, hmeaning⟩ := compile_preserves_meaning countdown a h
  have hentry : Machine.blank.AtEntry text := by
    obtain rfl := Option.some.inj (htext.symm.trans (readLines?_listing h .text))
    exact atEntry_blank h
  obtain ⟨hhalts, hequal, -⟩ := hmeaning countdownTree countdownTree_parsesText .plain .blank
    (fun _ => 0) hentry fun _ _ _ => rfl
  let c := after (Activity.next Platform.plain.quotient) 6 (countdownTree.start fun _ => 0)
  have hc : Attains (Activity.next Platform.plain.quotient) (countdownTree.start fun _ => 0) c :=
    .after _ 6 _
  have houtput : c.store.output = [.number 5] := by decide +kernel
  have hvalue : c.store.values "x" = 5 := by decide +kernel
  obtain ⟨m', hm', hhalted⟩ := hhalts.mpr ⟨c, hc, rfl⟩
  obtain ⟨hprinted, hvalues⟩ := hequal m' c hm' hhalted hc rfl
  refine ⟨a, text, data, m', h, htext, hdata, hentry, hm', hhalted, ?_, ?_⟩
  · rw [hprinted, houtput]
    rfl
  · rw [hvalues "x" 1 rfl, hvalue]

end OnePass
