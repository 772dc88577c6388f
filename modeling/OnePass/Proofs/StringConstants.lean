import OnePass.Proofs.Labels

/-! # String constants of a program

The data of a program names its distinct string constants in the order of their first appearance. The
text prints one of them for each string constant of the source: six lines that load its address, with
nothing about strings in the lines between.
-/
namespace OnePass

section AnyDistance

variable {distance : String → String → Nat} [NameDistance distance]

/-! ## First appearances -/

/-- The list holds every element of the other once, in the order of the first appearances. -/
structure FirstAppearances (all distinct : List String) : Prop where
  mem_iff : ∀ x, x ∈ distinct ↔ x ∈ all
  ordered : distinct.Pairwise fun x y => all.idxOf x < all.idxOf y

theorem firstAppearances_eraseDups (all : List String) : FirstAppearances all all.eraseDups where
  mem_iff _ := List.mem_eraseDups
  ordered := by
    induction all using List.reverseRecOn with
    | nil => exact .nil
    | append_singleton all x ih =>
      -- A further element changes no index of an earlier one.
      have hindex : ∀ y ∈ all.eraseDups, (all ++ [x]).idxOf y = all.idxOf y := by
        intro y hy
        exact List.idxOf_append_of_mem (List.mem_eraseDups.mp hy)
      have hbefore : all.eraseDups.Pairwise fun y z =>
          (all ++ [x]).idxOf y < (all ++ [x]).idxOf z := by
        refine ih.imp_of_mem ?_
        intro y z hy hz hlt
        rwa [hindex y hy, hindex z hz]
      rw [List.eraseDups_append]
      by_cases hx : x ∈ all
      · simpa [List.removeAll, hx] using hbefore
      · simp only [List.removeAll, List.filter_cons, List.elem_eq_mem, hx, decide_false,
          Bool.not_false, if_true, List.filter_nil, List.eraseDups_cons, List.eraseDups_nil]
        refine List.pairwise_append.mpr ⟨hbefore, List.pairwise_singleton _ _, ?_⟩
        intro y hy z hz
        obtain rfl := List.mem_singleton.mp hz
        rw [hindex y hy, List.idxOf_append_of_notMem hx]
        have := List.idxOf_lt_length_iff.mpr (List.mem_eraseDups.mp hy)
        omega

def stringConstants (source : String) : List String :=
  (ofKinds [.stringConst] (Lexer.tokens (.ofText source))).map Token.text

theorem Expression.ofKinds_stringConst (e : Expression) :
    ofKinds [.stringConst] e.tokens = [] :=
  e.ofKinds_tokens (by decide)

theorem Condition.ofKinds_stringConst (c : Condition) :
    ofKinds [.stringConst] c.tokens = [] := by
  have hop : (Token.relational c.op).kind ∉ [Terminal.stringConst] := by simp [Token.relational]
  rw [Condition.tokens, ofKinds_append, ofKinds_cons_of_not_mem hop, c.left.ofKinds_stringConst,
    c.right.ofKinds_stringConst]
  rfl

mutual

theorem Statement.ofKinds_stringConst : ∀ s : Statement,
    ofKinds [.stringConst] s.tokens = s.literals.map (Token.mk .stringConst)
  | .assign x e => e.ofKinds_stringConst
  | .ifThen c s => by
    rw [Statement.tokens, ofKinds_cons_of_not_mem (by decide), ofKinds_append,
      ofKinds_cons_of_not_mem (by decide), c.ofKinds_stringConst, s.ofKinds_stringConst]
    rfl
  | .ifElse c s t => by
    rw [Statement.tokens, ofKinds_cons_of_not_mem (by decide), ofKinds_append,
      ofKinds_cons_of_not_mem (by decide), ofKinds_append, ofKinds_cons_of_not_mem (by decide),
      c.ofKinds_stringConst, s.ofKinds_stringConst, t.ofKinds_stringConst, ← List.map_append]
    rfl
  | .whileDo c s => by
    rw [Statement.tokens, ofKinds_cons_of_not_mem (by decide), ofKinds_append,
      ofKinds_cons_of_not_mem (by decide), c.ofKinds_stringConst, s.ofKinds_stringConst]
    rfl
  | .print e => e.ofKinds_stringConst
  | .printText _ => rfl
  | .block b => by
    rw [Statement.tokens, ofKinds_cons_of_not_mem (by decide), ofKinds_append,
      b.ofKinds_stringConst]
    exact List.append_nil _
  | .declare _ => rfl
  | .skip => rfl

theorem Sequence.ofKinds_stringConst : ∀ b : Sequence,
    ofKinds [.stringConst] b.tokens = b.literals.map (Token.mk .stringConst)
  | .last s => s.ofKinds_stringConst
  | .more s b => by
    rw [Sequence.tokens, ofKinds_append, ofKinds_cons_of_not_mem (by decide),
      s.ofKinds_stringConst, b.ofKinds_stringConst, Sequence.literals, List.map_append]

end

theorem Sequence.ParsesText.literals_eq {tree : Sequence} {source : String}
    (h : tree.ParsesText source) : tree.literals = stringConstants source := by
  rw [stringConstants, h.ofKinds_eq (by decide), tree.ofKinds_stringConst, List.map_map]
  exact (List.map_id _).symm

/-! ## Printed strings -/

def Line.concernsText : Line → Bool
  | instruction (.loadAddress ..) => true
  | instruction (.selectFormat .stringFormat) => true
  | _ => false

def printLines (number : Nat) : List Line :=
  instructions (.selectFormat .stringFormat :: .loadAddress ⟨0⟩ (.literal number) :: printCall ⟨0⟩)

theorem render_printLines (number : Nat) : (printLines number).map Line.render =
    ["\tldr r0, =sfmt", "\tldr r4, =str_" ++ toString number, "\tpush \x7br1-r3, r12\x7d",
      "\tmov r1, r4", "\tbl printf", "\tpop \x7br1-r3, r12\x7d"] := by
  have hload : Line.render (.instruction (.loadAddress ⟨0⟩ (.literal number))) =
      "\tldr r4, =str_" ++ toString number := by
    have hspelt : "\t" ++ ("ldr " ++ Register.render ⟨0⟩ ++ ", =") ++ "str_" = "\tldr r4, =str_" := by
      decide
    rw [← hspelt, String.append_assoc, String.append_assoc]
    rfl
  have hpass : Line.render (.instruction (.passArgument ⟨0⟩)) = "\tmov r1, r4" := by decide
  rw [← hload, ← hpass]
  rfl

/-- The string constants with these numbers are printed in this order, and the lines between and
around do not concern strings. -/
inductive Prints : List Nat → List Line → Prop
  | rest {lines : List Line} : (∀ line ∈ lines, line.concernsText = false) → Prints [] lines
  | print {number : Nat} {numbers : List Nat} {before behind : List Line} :
    (∀ line ∈ before, line.concernsText = false) → Prints numbers behind →
    Prints (number :: numbers) (before ++ (printLines number ++ behind))

namespace Prints

variable {ns ms : List Nat} {first rest : List Line}

theorem skip (hfirst : ∀ line ∈ first, line.concernsText = false) (h : Prints ns rest) :
    Prints ns (first ++ rest) := by
  cases h with
  | rest hrest => exact .rest (List.forall_mem_append.mpr ⟨hfirst, hrest⟩)
  | print hbefore hbehind =>
    rw [← List.append_assoc]
    exact .print (List.forall_mem_append.mpr ⟨hfirst, hbefore⟩) hbehind

theorem append (h : Prints ns first) (h' : Prints ms rest) : Prints (ns ++ ms) (first ++ rest) := by
  induction h with
  | rest hfirst => exact h'.skip hfirst
  | print hbefore _ ih =>
    rw [List.append_assoc, List.append_assoc]
    exact .print hbefore ih

theorem behind (h : Prints ns first) (hrest : ∀ line ∈ rest, line.concernsText = false) :
    Prints ns (first ++ rest) := by
  simpa using h.append (.rest hrest)

end Prints

theorem concernsText_instructions {is : List Instruction}
    (h : ∀ i ∈ is, Line.concernsText (.instruction i) = false) :
    ∀ line ∈ instructions is, line.concernsText = false := by
  intro line hline
  obtain ⟨i, hi, rfl⟩ := List.mem_map.mp hline
  exact h i hi

theorem Instruction.concernsText_of_isNumeric (i : Instruction) (h : i.isNumeric = true) :
    Line.concernsText (.instruction i) = false := by
  cases i <;> cases h <;> rfl

theorem Condition.concernsText_code {declared : List String} {n : Nat} {c : Condition}
    {lines : List Line} (h : c.code declared n = some lines) :
    ∀ line ∈ lines, line.concernsText = false := by
  obtain ⟨test, htest, rfl⟩ := c.exists_test h
  rw [List.forall_mem_append]
  refine ⟨concernsText_instructions ?_, by simp [Line.concernsText]⟩
  intro i hi
  rcases htest i hi with hnumeric | ⟨a, b, rfl⟩
  · exact i.concernsText_of_isNumeric hnumeric
  · rfl

def literalNumber (literals : List String) (literal : String) : Nat :=
  literals.idxOf literal + 1

theorem eq_of_literalLabel? {literals : List String} {literal : String} {label : DataLabel}
    (h : literalLabel? literals literal = some label) :
    label = .literal (literalNumber literals literal) := by
  obtain ⟨i, hi, rfl⟩ := Option.map_eq_some_iff.mp h
  rw [literalNumber, List.idxOf_eq_getD_idxOf?, hi]
  rfl

theorem concernsText_leave (n : Nat) :
    ∀ line ∈ [Line.instruction (.branch (.beginOf n)), .label (.endOf n)],
      line.concernsText = false := by
  simp [Line.concernsText]

mutual

theorem Statement.prints {literals : List String} : ∀ (s : Statement) {p : Progress}
    {x : List Line × Progress}, s.code literals p = some x →
    Prints (s.literals.map (literalNumber literals)) x.1
  | .assign y e, p, x, h => by
    obtain ⟨code, slot, y, hcode, -, hy, rfl⟩ := Statement.parts_of_assign h
    obtain ⟨hfirst, hload⟩ := Expr.forall_of_use Instruction.concernsText_of_isNumeric hcode hy
    refine .rest (concernsText_instructions ?_)
    rw [List.forall_mem_append, List.forall_mem_append]
    exact ⟨⟨hfirst, hload⟩, by simp [Line.concernsText]⟩
  | .print e, p, x, h => by
    obtain ⟨code, y, hcode, hy, rfl⟩ := Statement.parts_of_print h
    obtain ⟨hfirst, hload⟩ := Expr.forall_of_use Instruction.concernsText_of_isNumeric hcode hy
    refine .rest (concernsText_instructions ?_)
    rw [List.forall_mem_append, List.forall_mem_append, List.forall_mem_cons]
    exact ⟨⟨hfirst, rfl, hload⟩, by simp [printCall, Line.concernsText]⟩
  | .printText literal, p, x, h => by
    obtain ⟨r, label, hr, hlabel, rfl⟩ := Statement.parts_of_printText h
    obtain rfl := eq_of_literalLabel? hlabel
    obtain rfl : ⟨0⟩ = r := Option.some.inj hr
    have hnone : ∀ line ∈ ([] : List Line), line.concernsText = false := by simp
    exact .print hnone (.rest hnone)
  | .declare y, p, x, h => by
    obtain ⟨-, rfl⟩ := Statement.parts_of_declare h
    exact .rest (by simp [Line.concernsText])
  | .skip, p, x, h => by
    rw [Statement.code] at h
    cases h
    exact .rest (by simp)
  | .block b, p, x, h => b.prints h
  | .ifThen c s, p, x, h => by
    obtain ⟨condition, y, hc, hy, rfl⟩ := Statement.parts_of_ifThen h
    have hbody := (s.prints hy).skip (c.concernsText_code hc)
    exact (hbody.behind (concernsText_leave _)).behind (by simp [Line.concernsText])
  | .ifElse c s t, p, x, h => by
    obtain ⟨condition, y, z, hc, hy, hz, rfl⟩ := Statement.parts_of_ifElse h
    have hbody := (s.prints hy).skip (c.concernsText_code hc)
    have hother := (t.prints hz).skip (concernsText_leave (p.labels + 1))
    rw [Statement.literals, List.map_append, List.append_assoc (condition ++ y.1)]
    exact (hbody.append hother).behind (by simp [Line.concernsText])
  | .whileDo c s, p, x, h => by
    obtain ⟨condition, y, hc, hy, rfl⟩ := Statement.parts_of_whileDo h
    have hbegin : ∀ line ∈ [Line.label (.beginOf (p.labels + 1))], line.concernsText = false := by
      simp [Line.concernsText]
    have hbody := (s.prints hy).skip (c.concernsText_code hc)
    exact (hbody.skip hbegin).behind (concernsText_leave _)

theorem Sequence.prints {literals : List String} : ∀ (b : Sequence) {p : Progress}
    {x : List Line × Progress}, b.code literals p = some x →
    Prints (b.literals.map (literalNumber literals)) x.1
  | .last s, p, x, h => s.prints h
  | .more s b, p, x, h => by
    obtain ⟨y, z, hy, hz, rfl⟩ := Sequence.parts_of_more h
    rw [Sequence.literals, List.map_append]
    exact (s.prints hy).append (b.prints hz)

end

/-! ## Programs -/

theorem translation_of_compile {source : String} {a : Assembly}
    (h : compile Assembly (.ofText source) = .ok a) :
    ∃ (tree : Sequence) (code : List Line) (progress : Progress),
      tree.literals = stringConstants source ∧
      tree.code (stringConstants source).eraseDups {} = some (code, progress) ∧
      a.text.toList = openingText ++ code ++ closingText ∧
      a.data.toList = openingData ++ definitions (stringConstants source).eraseDups := by
  obtain ⟨tree, body, final, hl, hf, ht⟩ := exists_parsesText h
  obtain ⟨code, progress, hcode, htext, hdata⟩ := exists_code_of_compile h hl hf ht
  have hliterals := Sequence.ParsesText.literals_eq ⟨body, final, hl, hf, ht⟩
  rw [Sequence.distinctLiterals, hliterals] at hcode hdata
  exact ⟨tree, code, progress, hliterals, hcode, htext, hdata⟩

/-- The data of a program that compiles are its five opening lines and the distinct string constants
of the source, numbered in the order of their first appearance. For each string constant of the source
the text prints the one with its number, so two of them are loaded from one label exactly if they are
the same text. -/
theorem stringConstants_of_compile (source : String) (a : Assembly)
    (h : compile Assembly (.ofText source) = .ok a) :
    ∃ distinct : List String, FirstAppearances (stringConstants source) distinct ∧
      a.data.toList.map Line.render =
        ["\t.global main", "\t.extern printf", "\t.data", "ifmt:\t.asciz \"%d\"",
          "sfmt:\t.asciz \"%s\""] ++
        distinct.zipIdx.map (fun (literal, i) =>
          "str_" ++ toString (i + 1) ++ ":\t.asciz " ++ literal) ∧
      Prints ((stringConstants source).map (literalNumber distinct)) a.text.toList ∧
      (∀ k, (printLines k).map Line.render =
        ["\tldr r0, =sfmt", "\tldr r4, =str_" ++ toString k, "\tpush \x7br1-r3, r12\x7d", "\tmov r1, r4",
          "\tbl printf", "\tpop \x7br1-r3, r12\x7d"]) ∧
      ∀ x ∈ stringConstants source, ∀ y ∈ stringConstants source,
        literalNumber distinct x = literalNumber distinct y ↔ x = y := by
  obtain ⟨tree, code, progress, hliterals, hcode, htext, hdata⟩ := translation_of_compile h
  have hdistinct := firstAppearances_eraseDups (stringConstants source)
  refine ⟨_, hdistinct, ?_, ?_, ?_, ?_⟩
  · rw [hdata, List.map_append, definitions, List.map_map]
    rfl
  · have hprints := tree.prints hcode
    rw [hliterals] at hprints
    rw [htext]
    exact (hprints.skip (by decide)).behind (by decide)
  · exact render_printLines
  · intro x hx y hy
    rw [literalNumber, literalNumber, Nat.add_right_cancel_iff]
    exact List.idxOf_inj ((hdistinct.mem_iff x).mpr hx)

end AnyDistance

def repeatedConstants : String :=
  "print \"b\"; begin print \"a\"; print 1 + 2 end; print \"b\""

theorem stringConstants_of_repeatedConstants : ∃ a distinct,
    compile Assembly (.ofText repeatedConstants) = .ok a ∧
    FirstAppearances ["\"b\"", "\"a\"", "\"b\""] distinct ∧
    Prints (["\"b\"", "\"a\"", "\"b\""].map (literalNumber distinct)) a.text.toList := by
  obtain ⟨a, h⟩ := exists_compile_of_isOk repeatedConstants (by decide +kernel)
  obtain ⟨distinct, hdistinct, -, hprints, -⟩ := stringConstants_of_compile repeatedConstants a h
  have hconstants : stringConstants repeatedConstants = ["\"b\"", "\"a\"", "\"b\""] := by
    decide +kernel
  rw [hconstants] at hdistinct hprints
  exact ⟨a, distinct, h, hdistinct, hprints⟩

end OnePass
