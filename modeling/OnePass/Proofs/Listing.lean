import OnePass.Proofs.Encoding
import OnePass.Proofs.ReadBack

/-! # Listings of programs

The written lines of a program that compiles can be read, and they say what the program consists of.
So the results about its text hold of the listing: it is the translation of the parse tree, and the
labels and branches in it are those of the constructs of the source.
-/
namespace OnePass

section AnyDistance

variable {distance : String → String → Nat} [NameDistance distance]

def Assembly.listing (a : Assembly) (segment : Segment) : List String :=
  (a.segment segment).toList.map Line.render

/-- What the lines of a listing say, if all of them can be read. -/
def readLines? (listing : List String) : Option (List Line) :=
  listing.mapM Line.read?

theorem readLines?_eq_some_iff {listing : List String} {lines : List Line} :
    readLines? listing = some lines ↔
      listing = lines.map Line.render ∧ ∀ line ∈ lines, line.IsReadable := by
  rw [readLines?]
  induction listing generalizing lines with
  | nil => cases lines <;> simp
  | cons text listing ih =>
    simp only [List.mapM_cons, Option.bind_eq_bind, Option.pure_def, Option.bind_eq_some_iff,
      Line.read?_eq_some_iff, ih, Option.some.injEq]
    constructor
    · rintro ⟨line, ⟨rfl, hline⟩, lines, ⟨rfl, hlines⟩, rfl⟩
      exact ⟨rfl, List.forall_mem_cons.mpr ⟨hline, hlines⟩⟩
    · rintro ⟨hlisting, hall⟩
      cases lines with
      | nil => cases hlisting
      | cons line lines =>
        obtain ⟨rfl, rfl⟩ := List.cons.inj hlisting
        obtain ⟨hline, hlines⟩ := List.forall_mem_cons.mp hall
        exact ⟨line, ⟨rfl, hline⟩, lines, ⟨rfl, hlines⟩, rfl⟩

/-! ## Lines of programs -/

section Compiled

variable {source : String} {a : Assembly}

theorem sourced_of_compile (h : compile Assembly (.ofText source) = .ok a) {line : Line}
    (hline : line ∈ a.text.toList) : line.Sourced (Yielded (.ofText source)) := by
  have hmem : line ∈ a.data.toList ++ a.text.toList := List.mem_append_right _ hline
  rw [ofEmissions_of_compile h, Assembly.toList_ofEmissions, List.mem_map] at hmem
  obtain ⟨e, he, rfl⟩ := hmem
  exact sourced_of_mem_pushedBy (mem_numbered.mp he)

/-- A line from a source can be read if its slot is one that variables can have. -/
theorem Line.Sourced.isReadable {line : Line} (h : line.Sourced (Yielded (.ofText source)))
    (hslot : ∀ slot, line.slot? = some slot → 0 < slot) : line.IsReadable := by
  cases h with
  | @number r l hl hk => exact isNumeral_of_yielded hl hk
  | literal => trivial
  | fixed hfixed =>
    cases line with
    | instruction i =>
      cases i with
      | loadNumber r digits => cases hfixed
      | loadVariable r slot | storeVariable r slot => exact hslot slot rfl
      | _ => trivial
    | label | directive | definition => trivial
    | verbatim => cases hfixed

theorem slot_pos_of_compile (h : compile Assembly (.ofText source) = .ok a) {line : Line}
    (hline : line ∈ a.text.toList) {slot : Nat} (hslot : line.slot? = some slot) : 0 < slot := by
  have hoffset : line.immediate? = some (.offset (frameOffset slot)) := by
    cases line with
    | instruction i => cases i <;> cases hslot <;> rfl
    | _ => cases hslot
  obtain ⟨x, slot', -, hx, hsame⟩ :=
    var_of_mem_immediates h (List.mem_filterMap.mpr ⟨line, hline, hoffset⟩)
  have hpos := (mem_take_iff_slot? hx 0).1
  simp only [frameOffset] at hsame
  omega

/-- The listing of a program that compiles says what the program consists of. -/
theorem readLines?_listing (h : compile Assembly (.ofText source) = .ok a) (segment : Segment) :
    readLines? (a.listing segment) = some (a.segment segment).toList := by
  refine readLines?_eq_some_iff.mpr ⟨rfl, fun line hline => ?_⟩
  cases segment with
  | text =>
    have hsourced := sourced_of_compile h hline
    exact hsourced.isReadable fun slot => slot_pos_of_compile h hline
  | data =>
    obtain ⟨tree, body, final, hl, hf, ht⟩ := exists_parsesText h
    obtain ⟨_, _, -, -, hdata⟩ := exists_code_of_compile h hl hf ht
    have hopening : ∀ line ∈ openingData, line.IsReadable := by
      simp [openingData, Line.IsReadable]
    rw [Assembly.segment, hdata] at hline
    rcases List.mem_append.mp hline with hline | hline
    · exact hopening line hline
    · obtain ⟨_, -, rfl⟩ := List.mem_map.mp hline
      trivial

end Compiled

/-! ## The text of a program -/

/-- The text of a program that compiles is the translation of its parse tree between the opening and
the closing lines, and it is written so that the translation is read back from the lines between. -/
theorem text_eq_translation (source : String) (a : Assembly)
    (h : compile Assembly (.ofText source) = .ok a) :
    (∃ tree : Sequence, tree.ParsesText source) ∧
      ∀ tree : Sequence, tree.ParsesText source → ∃ code progress lines,
        tree.code tree.distinctLiterals {} = some (code, progress) ∧
        a.text.toList = openingText ++ code ++ closingText ∧
        a.listing .text =
          ["\t.text", "main:", "\tpush \x7bfp, lr\x7d", "\tmov fp, sp"] ++ lines ++
            ["\tmov r0, #0", "\tmov sp, fp", "\tpop \x7bfp, pc\x7d"] ∧
        readLines? lines = some code := by
  refine ⟨exists_parsesText h, ?_⟩
  rintro tree ⟨body, final, hl, hf, ht⟩
  obtain ⟨code, progress, hcode, htext, -⟩ := exists_code_of_compile h hl hf ht
  obtain ⟨-, hreadable⟩ := readLines?_eq_some_iff.mp (readLines?_listing h .text)
  refine ⟨code, progress, code.map Line.render, hcode, htext, ?_, ?_⟩
  · rw [Assembly.listing, Assembly.segment, htext, List.map_append, List.map_append]
    rfl
  · refine readLines?_eq_some_iff.mpr ⟨rfl, fun line hline => hreadable line ?_⟩
    rw [Assembly.segment, htext]
    exact List.mem_append_left _ (List.mem_append_right _ hline)

/-! ## Labels and branches of a listing -/

/-- The label that a line defines, which stands in front of a colon. -/
def definedIn? (line : String) : Option String :=
  match cut ':' line.toList with
  | (name, some _) => some (String.ofList name)
  | (_, none) => none

/-- The mnemonic of a branch and the label that it goes to. A call is not a branch. -/
def branchIn? (line : String) : Option (String × String) :=
  match Written.read? line with
  | some (.operation mnemonic [target]) =>
    if mnemonic.toList.head? = some 'b' ∧ mnemonic ≠ "bl" then some (mnemonic, target) else none
  | _ => none

def conditionalIn? (line : String) : Option (String × String) :=
  (branchIn? line).filter fun branch => branch.1 ≠ "b"

def jumpIn? (line : String) : Option String :=
  ((branchIn? line).filter fun branch => branch.1 = "b").map Prod.snd

def Written.defined? : Written → Option String
  | label name => some name
  | operation _ _ => none
  | definition name _ => some name

theorem Comparison.negatedBranch_branches (op : Comparison) :
    op.negatedBranch.toList.head? = some 'b' ∧ op.negatedBranch ≠ "bl" ∧ op.negatedBranch ≠ "b" := by
  cases op <;> decide

theorem notMem_intercalate {c : Char} {sep : List Char} {parts : List (List Char)} (hsep : c ∉ sep)
    (h : ∀ part ∈ parts, c ∉ part) : c ∉ sep.intercalate parts := by
  induction parts with
  | nil => exact List.not_mem_nil
  | cons part rest ih =>
    obtain ⟨hpart, hrest⟩ := List.forall_mem_cons.mp h
    cases rest with
    | nil => rwa [List.intercalate_singleton]
    | cons next rest =>
      rw [List.intercalate_cons_cons, List.mem_append, List.mem_append]
      rintro ((hmem | hmem) | hmem)
      · exact hpart hmem
      · exact hsep hmem
      · exact ih hrest hmem

theorem Written.definedIn?_render {w : Written} (h : w.IsReadable) :
    definedIn? w.render = w.defined? := by
  have hbare : ∀ word, IsBare word → ':' ∉ word.toList := fun _ hword => hword.notMem.2.2
  cases w with
  | label name =>
    rw [definedIn?, toList_render_label, cut_append [] (hbare name h)]
    exact congrArg some String.ofList_toList
  | definition name literal =>
    rw [definedIn?, toList_render_definition, cut_append _ (hbare name h)]
    exact congrArg some String.ofList_toList
  | operation mnemonic operands =>
    obtain ⟨hmnemonic, hoperands⟩ := h
    have hcolon : ':' ∉ (operation mnemonic operands).render.toList := by
      cases operands with
      | nil => simp [hbare mnemonic hmnemonic]
      | cons operand operands =>
        have hwords : ':' ∉ [',', ' '].intercalate ((operand :: operands).map String.toList) := by
          refine notMem_intercalate (by decide) fun chars hchars => ?_
          obtain ⟨word, hword, rfl⟩ := List.mem_map.mp hchars
          exact hbare word (hoperands word hword)
        rw [toList_render_operation]
        simp only [List.mem_cons, List.mem_append, hbare mnemonic hmnemonic, hwords]
        decide
    rw [definedIn?, cut_of_notMem hcolon]
    rfl

namespace Line

variable {line : Line}

theorem definedIn?_render (h : line.IsReadable)
    (hne : ∀ l literal, line ≠ .definition l literal) :
    definedIn? line.render = line.label?.map CodeLabel.render := by
  obtain ⟨w, hw⟩ := line.exists_written h
  rw [← render_of_written? hw, Written.definedIn?_render (isReadable_of_written? hw h)]
  cases line with
  | definition l literal => exact absurd rfl (hne l literal)
  | _ => cases hw <;> rfl

theorem branchIn?_render (h : line.IsReadable) :
    branchIn? line.render =
      (line.conditional?.map fun (op, l) => (op.negatedBranch, l.render)).or
        (line.jump?.map fun l => ("b", l.render)) := by
  rw [branchIn?, written?_of_isReadable h]
  cases line with
  | instruction i =>
    cases i with
    | branchUnless op l =>
      obtain ⟨hb, hbl, -⟩ := op.negatedBranch_branches
      simp [written?, Instruction.words, conditional?, hb, hbl]
    | branch l => exact if_pos (by decide : "b".toList.head? = some 'b' ∧ "b" ≠ "bl")
    | callPrintf => exact if_neg (by decide)
    | _ => rfl
  | directive d => cases d <;> rfl
  | _ => rfl

theorem conditionalIn?_render (h : line.IsReadable) :
    conditionalIn? line.render =
      line.conditional?.map fun (op, l) => (op.negatedBranch, l.render) := by
  rw [conditionalIn?, branchIn?_render h]
  cases line with
  | instruction i =>
    cases i with
    | branchUnless op l => simp [conditional?, op.negatedBranch_branches.2.2]
    | _ => rfl
  | _ => rfl

theorem jumpIn?_render (h : line.IsReadable) :
    jumpIn? line.render = line.jump?.map CodeLabel.render := by
  rw [jumpIn?, branchIn?_render h]
  cases line with
  | instruction i =>
    cases i with
    | branchUnless op l => simp [conditional?, jump?, op.negatedBranch_branches.2.2]
    | _ => rfl
  | _ => rfl

end Line

def Construct.SpansLines (listing : List String) : Construct × Nat → Nat × Nat → Prop
  | (loop _, i), (first, last) => first < last ∧
    listing[first]? = some ("begin_" ++ toString i ++ ":") ∧
    listing[last]? = some ("end_" ++ toString i ++ ":")
  | (choice _, i), (first, last) => first < last ∧
    listing[first]? = some ("end_" ++ toString i ++ ":") ∧
    listing[last]? = some ("begin_" ++ toString i ++ ":")

theorem Construct.Spans.spansLines {text : List Line} {c : Construct × Nat} {x : Nat × Nat}
    (h : Construct.Spans text c x) : Construct.SpansLines (text.map Line.render) c x := by
  have hrender : ∀ {i : Nat} {line : Line}, text[i]? = some line →
      (text.map Line.render)[i]? = some line.render := by
    intro i line hline
    rw [List.getElem?_map, hline, Option.map_some]
  obtain ⟨c, i⟩ := c
  cases c with
  | choice op => exact ⟨h.1, hrender h.2.1, hrender h.2.2⟩
  | loop op => exact ⟨h.1, hrender h.2.1, hrender h.2.2⟩

/-- The labels and branches in the listing of a text are those of the constructs, each numbered by
its rank from one. -/
structure LabelledListing (cs : List Construct) (listing : List String) : Prop where
  /-- The lines define `main` and the two labels of every construct, and nothing else. -/
  labels : (listing.filterMap definedIn?).Perm ("main" :: (List.range' 1 cs.length).flatMap fun i =>
    ["begin_" ++ toString i, "end_" ++ toString i])
  distinct : (listing.filterMap definedIn?).Nodup
  /-- Every construct has one conditional branch, to its end, on its own comparison. -/
  conditional : listing.filterMap conditionalIn? =
    (cs.zipIdx 1).map fun (c, i) => (c.comparison.negatedBranch, "end_" ++ toString i)
  /-- Every construct has one unconditional branch, to its begin. -/
  unconditional : (listing.filterMap jumpIn?).Perm
    ((List.range' 1 cs.length).map fun i => "begin_" ++ toString i)
  /-- Every branch has a place to go to. -/
  defined : ∀ line ∈ listing, ∀ branch, branchIn? line = some branch →
    branch.2 ∈ listing.filterMap definedIn?
  /-- Each construct spans the lines between its labels, and no two of these intervals overlap in
  part. -/
  nested : ∃ extents, List.Forall₂ (Construct.SpansLines listing) (cs.zipIdx 1) extents ∧
    extents.Pairwise NestedOrApart
  /-- No line is of a form in which a label or a branch would go unseen. -/
  readable : ∀ line ∈ listing, (Line.read? line).isSome = true

theorem Labelled.listing {cs : List Construct} {text : List Line} (h : Labelled cs text)
    (hreadable : ∀ line ∈ text, line.IsReadable) :
    LabelledListing cs (text.map Line.render) := by
  have hdefined : (text.map Line.render).filterMap definedIn? =
      (labelsIn text).map CodeLabel.render := by
    rw [List.filterMap_map, labelsIn, List.map_filterMap]
    refine List.filterMap_congr fun line hline => ?_
    exact line.definedIn?_render (hreadable line hline) fun l literal he =>
      h.definition_notMem l literal (he ▸ hline)
  have hconditional : (text.map Line.render).filterMap conditionalIn? =
      (text.filterMap Line.conditional?).map fun (op, l) => (op.negatedBranch, l.render) := by
    rw [List.filterMap_map, List.map_filterMap]
    exact List.filterMap_congr fun line hline => line.conditionalIn?_render (hreadable line hline)
  have hjump : (text.map Line.render).filterMap jumpIn? =
      (text.filterMap Line.jump?).map CodeLabel.render := by
    rw [List.filterMap_map, List.map_filterMap]
    exact List.filterMap_congr fun line hline => line.jumpIn?_render (hreadable line hline)
  obtain ⟨extents, hspans, hnested⟩ := h.nested
  constructor
  case labels =>
    rw [hdefined]
    have hlabels := h.labels.map CodeLabel.render
    rwa [List.map_cons, labelsOf, List.map_flatMap] at hlabels
  case distinct =>
    rw [hdefined]
    exact h.distinct
  case conditional =>
    rw [hconditional, h.conditional, List.map_map]
    rfl
  case unconditional =>
    rw [hjump]
    have hunconditional := h.unconditional.map CodeLabel.render
    rwa [List.map_map] at hunconditional
  case defined =>
    intro written hwritten branch hbranch
    obtain ⟨line, hline, rfl⟩ := List.mem_map.mp hwritten
    rw [line.branchIn?_render (hreadable line hline)] at hbranch
    rw [hdefined]
    rcases Option.or_eq_some_iff.mp hbranch with hbranch | ⟨-, hbranch⟩
    · obtain ⟨⟨op, l⟩, hl, rfl⟩ := Option.map_eq_some_iff.mp hbranch
      exact List.mem_map_of_mem (h.defined line hline l (.inl ⟨op, hl⟩))
    · obtain ⟨l, hl, rfl⟩ := Option.map_eq_some_iff.mp hbranch
      exact List.mem_map_of_mem (h.defined line hline l (.inr hl))
  case nested => exact ⟨extents, hspans.imp fun _ _ => Construct.Spans.spansLines, hnested⟩
  case readable =>
    intro written hwritten
    obtain ⟨line, hline, rfl⟩ := List.mem_map.mp hwritten
    rw [Line.read?_eq_some_iff.mpr ⟨rfl, hreadable line hline⟩]
    rfl

/-- The labels of a program that compiles are unique, paired and all defined: each `if` and each
`while` of the source has the two labels numbered by its rank among them. -/
theorem labels_of_compile (source : String) (a : Assembly)
    (h : compile Assembly (.ofText source) = .ok a) :
    ∃ cs : List Construct,
      ofKinds [.ifWord, .whileWord] (Lexer.tokens (.ofText source)) = cs.map Construct.word ∧
      ofKinds [.ifWord, .whileWord, .relationalOp] (Lexer.tokens (.ofText source)) =
        cs.flatMap Construct.tokens ∧
      LabelledListing cs (a.listing .text) := by
  obtain ⟨tree, hparses⟩ := exists_parsesText h
  have hkinds : ofKinds constructKinds (Lexer.tokens (.ofText source)) = _ :=
    (hparses.ofKinds_eq (by decide)).trans tree.ofKinds_constructKinds
  obtain ⟨body, final, hl, hf, ht⟩ := hparses
  obtain ⟨code, progress, hcode, htext, -⟩ := exists_code_of_compile h hl hf ht
  have hlabelled : Labelled tree.constructs a.text.toList := by
    rw [htext]
    exact Sequence.labelled hcode
  refine ⟨tree.constructs, ofKinds_words hkinds, hkinds, hlabelled.listing ?_⟩
  exact (readLines?_eq_some_iff.mp (readLines?_listing h .text)).2

end AnyDistance

theorem text_eq_translation_of_countdown :
    ∃ a code progress lines, compile Assembly (.ofText countdown) = .ok a ∧
      countdownTree.ParsesText countdown ∧
      countdownTree.code countdownTree.distinctLiterals {} = some (code, progress) ∧
      a.listing .text =
        ["\t.text", "main:", "\tpush \x7bfp, lr\x7d", "\tmov fp, sp"] ++ lines ++
          ["\tmov r0, #0", "\tmov sp, fp", "\tpop \x7bfp, pc\x7d"] ∧
      readLines? lines = some code := by
  obtain ⟨a, h⟩ := exists_compile_countdown
  obtain ⟨code, progress, lines, hcode, -, hlisting, hread⟩ :=
    (text_eq_translation countdown a h).2 countdownTree countdownTree_parsesText
  exact ⟨a, code, progress, lines, h, countdownTree_parsesText, hcode, hlisting, hread⟩

def choiceInLoop : String :=
  "while 2 > 1 do if 3 = 4 then print 5 else print 6"

theorem labels_of_choiceInLoop : ∃ a cs, compile Assembly (.ofText choiceInLoop) = .ok a ∧
    cs.map Construct.word = [⟨.whileWord, "while"⟩, ⟨.ifWord, "if"⟩] ∧
    LabelledListing cs (a.listing .text) := by
  obtain ⟨a, h⟩ := exists_compile_of_isOk choiceInLoop (by decide +kernel)
  obtain ⟨cs, hwords, -, hlabelled⟩ := labels_of_compile choiceInLoop a h
  refine ⟨a, cs, h, ?_, hlabelled⟩
  rw [← hwords]
  decide +kernel

end OnePass
