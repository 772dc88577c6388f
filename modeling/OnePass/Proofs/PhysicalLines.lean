import OnePass.Proofs.LexicalErrors
import OnePass.Proofs.Provenance
import OnePass.Proofs.StringConstants

/-! # Lines of the output and lines of its text

A line that is pushed takes one line of the rendered text exactly if it holds no line feed. Only a
string constant can bring one in: a string may be written over several lines of the source, and it is
copied as it stands. Without such a string the number of a line is that of its place in the text, and
a comment behind a line stands behind everything that was pushed there.
-/
namespace OnePass

section AnyDistance

variable {distance : String → String → Nat} [NameDistance distance]

namespace Text

/-! ## Lines of a text -/

/-- The text can be read back as one line when it has been terminated. -/
def IsLine (text : String) : Prop :=
  '\n' ∉ text.toList ∧ text.toList.getLast? ≠ some '\r'

def unlines (lines : List String) : String :=
  String.join (lines.map (· ++ "\n"))

theorem linesFrom_append (reversed text rest : List Char) :
    linesFrom reversed (text ++ '\n' :: rest) =
      linesFrom reversed (text ++ ['\n']) ++ linesFrom [] rest := by
  induction text generalizing reversed with
  | nil => simp [linesFrom]
  | cons c text ih =>
    by_cases hc : c = '\n'
    · simp [linesFrom, hc, ih]
    · simp [linesFrom, hc, ih]

theorem lines_unlines_eq (ls : List String) :
    lines (unlines ls) = ls.flatMap fun line => lines (line ++ "\n") := by
  induction ls with
  | nil => rfl
  | cons line ls ih =>
    have htext : (unlines (line :: ls)).toList = line.toList ++ '\n' :: (unlines ls).toList := by
      simp [unlines]
    have hline : (line ++ "\n").toList = line.toList ++ ['\n'] := String.toList_append
    rw [List.flatMap_cons, ← ih, lines, lines, lines, htext, hline, linesFrom_append]

theorem linesFrom_of_not_mem {reversed text : List Char} (h : '\n' ∉ text) :
    linesFrom reversed (text ++ ['\n']) = [closeLine (text.reverse ++ reversed)] := by
  induction text generalizing reversed with
  | nil => simp [linesFrom]
  | cons c text ih =>
    rw [List.mem_cons, not_or] at h
    obtain ⟨hc, htext⟩ := h
    simp [linesFrom, Ne.symm hc, ih htext]

theorem closeLine_reverse {text : List Char} (h : text.getLast? ≠ some '\r') :
    closeLine text.reverse = String.ofList text := by
  unfold closeLine
  split
  · next rest hr =>
    have hlast : text.reverse.head? = some '\r' := by rw [hr]; rfl
    rw [List.head?_reverse] at hlast
    exact absurd hlast h
  · rw [List.reverse_reverse]

theorem lines_of_isLine {line : String} (h : IsLine line) : lines (line ++ "\n") = [line] := by
  obtain ⟨hfeed, hlast⟩ := h
  have hline : (line ++ "\n").toList = line.toList ++ ['\n'] := String.toList_append
  rw [lines, hline, linesFrom_of_not_mem hfeed, List.append_nil, closeLine_reverse hlast,
    String.ofList_toList]

theorem lines_unlines {ls : List String} (h : ∀ line ∈ ls, IsLine line) :
    lines (unlines ls) = ls := by
  rw [lines_unlines_eq, List.flatMap_congr fun line hline => lines_of_isLine (h line hline)]
  exact List.flatMap_singleton' ls

theorem length_linesFrom (reversed text : List Char) :
    (linesFrom reversed (text ++ ['\n'])).length = text.count '\n' + 1 := by
  induction text generalizing reversed with
  | nil => simp [linesFrom]
  | cons c text ih =>
    by_cases hc : c = '\n'
    · simp [linesFrom, hc, ih]
    · simp [linesFrom, hc, ih]

theorem length_lines_unlines (ls : List String) :
    (lines (unlines ls)).length = (ls.flatMap String.toList).count '\n' + ls.length := by
  rw [lines_unlines_eq]
  induction ls with
  | nil => rfl
  | cons line ls ih =>
    have hline : (line ++ "\n").toList = line.toList ++ ['\n'] := String.toList_append
    rw [List.flatMap_cons, List.length_append, ih, lines, hline, length_linesFrom,
      List.flatMap_cons, List.count_append, List.length_cons]
    omega

theorem not_mem_of_lines_unlines {ls : List String} (h : lines (unlines ls) = ls) :
    ∀ line ∈ ls, '\n' ∉ line.toList := by
  have hlength := length_lines_unlines ls
  rw [h] at hlength
  intro line hline hc
  have hnone : '\n' ∉ ls.flatMap String.toList := by
    rw [← List.count_eq_zero]
    omega
  exact hnone (List.mem_flatMap.mpr ⟨line, hline, hc⟩)

/-! ## Strings in a text -/

/-- Where a text ends: outside of any string, inside of one, or behind a backslash in one. -/
inductive Quoting where
  | outside | inside | escaped
  deriving DecidableEq, Repr

def Quoting.next : Quoting → Char → Quoting
  | outside, c => if c = '"' then inside else outside
  | inside, c => if c = '"' then outside else if c = '\\' then escaped else inside
  | escaped, _ => inside

def quoting (text : String) : Quoting :=
  text.toList.foldl Quoting.next .outside

theorem quoting_of_not_mem {text : List Char} (h : '"' ∉ text) :
    text.foldl Quoting.next .outside = .outside := by
  induction text with
  | nil => rfl
  | cons c text ih =>
    rw [List.mem_cons, not_or] at h
    obtain ⟨hc, htext⟩ := h
    rw [List.foldl_cons, Quoting.next, if_neg (Ne.symm hc), ih htext]

theorem quoting_of_stringBody {body : List Char} (h : StringBody body) :
    body.foldl Quoting.next .inside = .inside := by
  induction h with
  | empty => rfl
  | plain hquote hslash _ ih => rw [List.foldl_cons, Quoting.next, if_neg hquote, if_neg hslash, ih]
  | escape _ ih => exact ih

theorem quoting_of_isQuoted {text : List Char} (h : IsQuoted text) :
    text.foldl Quoting.next .outside = .outside := by
  obtain ⟨body, hbody, rfl⟩ := h
  have hopen : Quoting.next .outside '"' = .inside := rfl
  rw [List.foldl_cons, hopen, List.foldl_append, quoting_of_stringBody hbody]
  rfl

/-! ## Plain texts -/

/-- The text neither ends a line nor opens a string. -/
def isPlain (text : String) : Bool :=
  text.toList.all fun c => c ≠ '\n' && c ≠ '\r' && c ≠ '"'

theorem isPlain_append (x y : String) : isPlain (x ++ y) = (isPlain x && isPlain y) := by
  rw [isPlain, String.toList_append, List.all_append]
  rfl

theorem isPlain_of_digits {text : String} (h : ∀ c ∈ text.toList, c.isDigit = true) :
    isPlain text = true := by
  rw [isPlain, List.all_eq_true]
  intro c hc
  have hdigit := h c hc
  have hother : c ≠ '\n' ∧ c ≠ '\r' ∧ c ≠ '"' := by
    refine ⟨?_, ?_, ?_⟩ <;> rintro rfl <;> cases hdigit
  simp [hother]

theorem isPlain_toString (n : Nat) : isPlain (toString n) = true :=
  isPlain_of_digits fun _ => isDigit_of_mem_toString

theorem isPlain_toString_int (n : Int) : isPlain (toString n) = true := by
  cases n with
  | ofNat n => exact isPlain_toString n
  | negSucc n =>
    have hnegative : toString (Int.negSucc n) = "-" ++ toString (n + 1) := rfl
    rw [hnegative, isPlain_append, isPlain_toString]
    rfl

theorem not_mem_of_isPlain {text : String} (h : isPlain text = true) :
    '\n' ∉ text.toList ∧ '\r' ∉ text.toList ∧ '"' ∉ text.toList := by
  rw [isPlain, List.all_eq_true] at h
  refine ⟨?_, ?_, ?_⟩ <;> intro hc <;> cases h _ hc

theorem isLine_of_isPlain {text : String} (h : isPlain text = true) : IsLine text := by
  obtain ⟨hfeed, hreturn, -⟩ := not_mem_of_isPlain h
  exact ⟨hfeed, fun hlast => hreturn (List.mem_of_getLast? hlast)⟩

theorem quoting_of_isPlain {text : String} (h : isPlain text = true) : quoting text = .outside :=
  quoting_of_not_mem (not_mem_of_isPlain h).2.2

end Text

open Text (isPlain isPlain_append isPlain_toString isPlain_toString_int)

/-! ## Rendered lines -/

theorem Register.isPlain_render (r : Register) : isPlain r.render = true := by
  rw [Register.render, isPlain_append, isPlain_toString]
  rfl

theorem CodeLabel.isPlain_render (l : CodeLabel) : isPlain l.render = true := by
  cases l with
  | main => rfl
  | beginOf n | endOf n =>
    rw [CodeLabel.render, isPlain_append, isPlain_toString]
    rfl

theorem DataLabel.isPlain_render (l : DataLabel) : isPlain l.render = true := by
  cases l with
  | integerFormat | stringFormat => rfl
  | literal n =>
    rw [DataLabel.render, isPlain_append, isPlain_toString]
    rfl

theorem Position.isPlain_render (p : Position) : isPlain p.render = true := by
  rw [Position.render, isPlain_append, isPlain_append, isPlain_toString, isPlain_toString]
  rfl

theorem Instruction.isPlain_frameOperand (slot : Nat) : isPlain (frameOperand slot) = true := by
  rw [frameOperand, isPlain_append, isPlain_append, isPlain_toString_int]
  rfl

/-- An instruction can only be other than plain by the digits it loads. -/
theorem Instruction.isPlain_render {i : Instruction}
    (h : ∀ r digits, i = .loadNumber r digits → isPlain digits = true) :
    isPlain i.render = true := by
  cases i with
  | loadNumber r digits =>
    simp +decide [Instruction.render, isPlain_append, r.isPlain_render, h r digits rfl]
  | loadAddress r label =>
    simp +decide [Instruction.render, isPlain_append, r.isPlain_render, label.isPlain_render]
  | loadVariable r slot | storeVariable r slot =>
    simp +decide [Instruction.render, isPlain_append, r.isPlain_render, isPlain_frameOperand]
  | arithmetic op r a b =>
    have hop : isPlain op.mnemonic = true := by cases op <;> rfl
    simp +decide [Instruction.render, isPlain_append, Register.isPlain_render, hop]
  | negate r a | compare r a | passArgument a =>
    simp +decide [Instruction.render, isPlain_append, Register.isPlain_render]
  | branchUnless op label =>
    have hop : isPlain op.negatedBranch = true := by cases op <;> rfl
    simp +decide [Instruction.render, isPlain_append, label.isPlain_render, hop]
  | branch label => simp +decide [Instruction.render, isPlain_append, label.isPlain_render]
  | selectFormat label => simp +decide [Instruction.render, isPlain_append, label.isPlain_render]
  | _ => rfl

/-! ## Texts of tokens -/

theorem Lexer.Splits.inClass {p : Position} {text rest : List Char} {xs : List Lexeme}
    (h : Splits p text xs rest) : ∀ x ∈ xs, x.token.InClass := by
  induction h with
  | done => simp
  | lexeme _ _ hclass _ _ ih => exact List.forall_mem_cons.mpr ⟨hclass, ih⟩

/-- What the lexer yields belongs to the class of its kind, unless it is the end of the input. -/
theorem inClass_of_yielded {source : String} {l : Lexeme} (h : Yielded (.ofText source) l) :
    l.kind = .endOfInput ∨ l.token.InClass := by
  rw [Yielded, Lexer.lexemes] at h
  have hfuel : (Lexer.ofInput (.ofText source)).upcoming.length <
      (Input.ofText source).items.length + 1 := Nat.lt_succ_self _
  rcases Lexer.drain_ends rfl hfuel with ⟨body, d, hdrain⟩ | ⟨body, final, hdrain, hfinal⟩
  · rw [hdrain] at h
    rw [Lexer.ofInput_ofText] at hdrain
    obtain ⟨_, _, _, _, hsplits, -⟩ := Lexer.splits_of_drain_error hdrain
    refine .inr (hsplits.inClass l ?_)
    simpa using h
  · rw [hdrain] at h
    rw [Lexer.ofInput_ofText] at hdrain
    obtain ⟨_, hsplits, -⟩ := Lexer.splits_of_drain hfinal hdrain
    obtain hbody | rfl : l ∈ body ∨ l = final := by simpa using h
    · exact .inr (hsplits.inClass l hbody)
    · exact .inl hfinal

theorem isNumeral_of_yielded {source : String} {l : Lexeme} (h : Yielded (.ofText source) l)
    (hk : l.kind = .number) : IsNumeral l.text.toList := by
  rcases inClass_of_yielded h with hend | hclass
  · rw [hk] at hend
    cases hend
  · rw [Token.InClass, Lexeme.token, hk] at hclass
    exact hclass.1

theorem isQuoted_of_yielded {source : String} {l : Lexeme} (h : Yielded (.ofText source) l)
    (hk : l.kind = .stringConst) : IsQuoted l.text.toList := by
  rcases inClass_of_yielded h with hend | hclass
  · rw [hk] at hend
    cases hend
  · rw [Token.InClass, Lexeme.token, hk] at hclass
    exact hclass

/-! ## Pushed lines -/

/-- The line defines a string constant of the source that is written over several lines. -/
def Line.Broken (source : String) (line : Line) : Prop :=
  ∃ n l, Yielded (.ofText source) l ∧ l.kind = .stringConst ∧ '\n' ∈ l.text.toList ∧
    line = .definition (.literal n) l.text

namespace Line.Sourced

variable {source : String} {line : Line}

theorem plain_or_quoted (h : line.Sourced (Yielded (.ofText source))) :
    isPlain line.render = true ∨ ∃ label text, line = .definition label text ∧
      IsQuoted text.toList ∧ ('\n' ∈ text.toList → line.Broken source) := by
  cases h with
  | @number r l hl hk =>
    left
    have hdigits := Text.isPlain_of_digits (isNumeral_of_yielded hl hk).2
    rw [Line.render, isPlain_append, Instruction.isPlain_render]
    · rfl
    · rintro _ _ ⟨⟩
      exact hdigits
  | @literal n l hl hk =>
    right
    exact ⟨_, _, rfl, isQuoted_of_yielded hl hk, fun hfeed => ⟨n, l, hl, hk, hfeed, rfl⟩⟩
  | fixed hfixed =>
    cases line with
    | instruction i =>
      left
      rw [Line.render, isPlain_append, Instruction.isPlain_render]
      · rfl
      · rintro r digits rfl
        cases hfixed
    | label l =>
      left
      rw [Line.render, isPlain_append, l.isPlain_render]
      rfl
    | directive d =>
      left
      cases d <;> rfl
    | definition label text =>
      right
      have hformat : text = "\"%d\"" ∨ text = "\"%s\"" := by simpa [Line.isFixed] using hfixed
      refine ⟨label, text, rfl, ?_, ?_⟩
      · rcases hformat with rfl | rfl
        · exact ⟨['%', 'd'], .plain (by decide) (by decide) (.plain (by decide) (by decide) .empty),
            by decide⟩
        · exact ⟨['%', 's'], .plain (by decide) (by decide) (.plain (by decide) (by decide) .empty),
            by decide⟩
      · intro hfeed
        rcases hformat with rfl | rfl
        · exact absurd hfeed (by decide)
        · exact absurd hfeed (by decide)
    | verbatim text => cases hfixed

end Line.Sourced

theorem toList_render_definition (label : DataLabel) (text : String) :
    ∃ before, isPlain before = true ∧
      (Line.definition label text).render.toList = before.toList ++ text.toList := by
  refine ⟨label.render ++ ":\t.asciz ", ?_, ?_⟩
  · rw [isPlain_append, label.isPlain_render]
    rfl
  · rw [Line.render, String.toList_append]

namespace Line.Sourced

variable {source : String} {line : Line}

/-- A string written over several lines is all that brings a line feed into a line. -/
theorem mem_render_iff (h : line.Sourced (Yielded (.ofText source))) :
    '\n' ∈ line.render.toList ↔ line.Broken source := by
  constructor
  · intro hfeed
    rcases h.plain_or_quoted with hplain | ⟨label, text, rfl, -, hbroken⟩
    · exact absurd hfeed (Text.not_mem_of_isPlain hplain).1
    · obtain ⟨before, hbefore, hrender⟩ := toList_render_definition label text
      rw [hrender, List.mem_append] at hfeed
      exact hbroken (hfeed.resolve_left (Text.not_mem_of_isPlain hbefore).1)
  · rintro ⟨n, l, -, -, hfeed, rfl⟩
    obtain ⟨before, -, hrender⟩ := toList_render_definition (.literal n) l.text
    rw [hrender]
    exact List.mem_append_right _ hfeed

theorem isLine_render (h : line.Sourced (Yielded (.ofText source)))
    (hfeed : '\n' ∉ line.render.toList) : Text.IsLine line.render := by
  rcases h.plain_or_quoted with hplain | ⟨label, text, rfl, ⟨body, -, htext⟩, -⟩
  · exact Text.isLine_of_isPlain hplain
  · obtain ⟨before, -, hrender⟩ := toList_render_definition label text
    have hlast : (Line.definition label text).render.toList =
        (before.toList ++ '"' :: body) ++ ['"'] := by
      rw [hrender, htext]
      simp
    refine ⟨hfeed, ?_⟩
    rw [hlast, List.getLast?_concat]
    decide

/-- Every string is closed on the line that it is defined on. -/
theorem quoting_render (h : line.Sourced (Yielded (.ofText source))) :
    Text.quoting line.render = .outside := by
  rcases h.plain_or_quoted with hplain | ⟨label, text, rfl, hquoted, -⟩
  · exact Text.quoting_of_isPlain hplain
  · obtain ⟨before, hbefore, hrender⟩ := toList_render_definition label text
    have hbefore : before.toList.foldl Text.Quoting.next .outside = .outside :=
      Text.quoting_of_isPlain hbefore
    rw [Text.quoting, hrender, List.foldl_append, hbefore, Text.quoting_of_isQuoted hquoted]

end Line.Sourced

/-! ## Rendered programs -/

theorem mem_numbered {pushed : List Emission} {e : Emission} : e ∈ numbered pushed ↔ e ∈ pushed := by
  rw [numbered, List.mem_append, List.mem_filter, List.mem_filter]
  cases e.segment <;> simp

theorem Assembly.lines_ofEmissions (pushed : List Emission) :
    (Target.ofEmissions Assembly pushed).lines =
      (numbered pushed).map fun e => e.line.render := by
  rw [Assembly.lines, Assembly.toList_ofEmissions, List.map_map]
  rfl

/-- A program that compiles defines each string constant of its source. -/
theorem exists_definition_of_compile {source : String} {a : Assembly}
    (h : compile Assembly (.ofText source) = .ok a) {x : String} (hx : x ∈ stringConstants source) :
    ∃ n, Line.definition (.literal n) x ∈ a.data.toList := by
  obtain ⟨_, _, _, -, -, -, hdata⟩ := translation_of_compile h
  obtain ⟨i, hi⟩ := List.getElem?_of_mem (List.mem_eraseDups.mpr hx)
  refine ⟨i + 1, ?_⟩
  rw [hdata]
  apply List.mem_append_right
  exact List.mem_map.mpr ⟨(x, i), List.mem_zipIdx_iff_getElem?.mpr hi, rfl⟩

theorem mem_stringConstants_of_yielded {source : String} {l : Lexeme}
    (h : Yielded (.ofText source) l) (hk : l.kind = .stringConst) :
    l.text ∈ stringConstants source := by
  have hlexeme : l ∈ (Lexer.lexemes (.ofText source)).filterMap Except.toOption :=
    List.mem_filterMap.mpr ⟨.ok l, h, rfl⟩
  have htoken : l.token ∈ ofKinds [.stringConst] (Lexer.tokens (.ofText source)) := by
    refine List.mem_filter.mpr ⟨List.mem_map_of_mem hlexeme, ?_⟩
    simp [Lexeme.token, hk]
  exact List.mem_map_of_mem htoken

namespace SourceMap

theorem isLine_annotate {line : String} (h : Text.IsLine line) (width : Nat) (p : Option Position) :
    Text.IsLine (annotate width line p) := by
  cases p with
  | none => exact h
  | some p =>
    have hcomment : isPlain ("@ " ++ p.render) = true := by
      rw [isPlain_append, p.isPlain_render]
      rfl
    have hpadding : '\n' ∉ List.replicate (width - line.length) ' ' := by simp
    have htext : (annotate width line (some p)).toList = line.toList ++
        (List.replicate (width - line.length) ' ' ++ ("@ " ++ p.render).toList) := by
      simp [annotate, Text.padRight]
    obtain ⟨hfeed, hlast⟩ := Text.isLine_of_isPlain hcomment
    constructor
    · rw [htext, List.mem_append, List.mem_append, not_or, not_or]
      exact ⟨h.1, hpadding, hfeed⟩
    · rw [htext, List.getLast?_append, List.getLast?_append]
      -- The position is never empty, so the line ends with its last digit.
      have hne : ("@ " ++ p.render).toList.getLast? ≠ none := by simp
      obtain ⟨c, hc⟩ := Option.ne_none_iff_exists'.mp hne
      rw [hc] at hlast ⊢
      exact hlast

def commentColumn (m : SourceMap Assembly) : Nat :=
  ((Text.lines m.compiled.render).map String.utf8ByteSize).foldl max 0 + 4

theorem annotated_eq (m : SourceMap Assembly) :
    m.annotated = Text.unlines ((Text.lines m.compiled.render).zipIdx.map fun (line, i) =>
      annotate m.commentColumn line (m.position? (i + 1))) := by
  rw [Text.unlines, List.map_map]
  rfl

theorem lines_render {a : Assembly} (h : ∀ line ∈ a.lines, Text.IsLine line) :
    Text.lines a.render = a.lines :=
  Text.lines_unlines h

theorem lines_annotated {m : SourceMap Assembly} (h : ∀ line ∈ m.compiled.lines, Text.IsLine line) :
    Text.lines m.annotated = m.compiled.lines.zipIdx.map fun (line, i) =>
      annotate m.commentColumn line (m.position? (i + 1)) := by
  rw [annotated_eq, lines_render h]
  apply Text.lines_unlines
  intro text htext
  obtain ⟨⟨line, i⟩, hmem, rfl⟩ := List.mem_map.mp htext
  exact isLine_annotate (h line (List.fst_mem_of_mem_zipIdx hmem)) _ _

/-- The entries of the output are the lines of its text, and comments stand behind whole lines, on
which no string is open. -/
structure LineByLine (m : SourceMap Assembly) : Prop where
  lines : Text.lines m.compiled.render = m.compiled.lines
  comments : Text.lines m.annotated = m.compiled.lines.zipIdx.map fun (line, i) =>
    annotate m.commentColumn line (m.position? (i + 1))
  closed : ∀ line ∈ m.compiled.lines, Text.quoting line = .outside

theorem lineByLine_of_isLine {m : SourceMap Assembly}
    (h : ∀ line ∈ m.compiled.lines, Text.IsLine line ∧ Text.quoting line = .outside) :
    m.LineByLine := by
  have hline : ∀ line ∈ m.compiled.lines, Text.IsLine line := fun line hline => (h line hline).1
  constructor
  case lines => exact lines_render hline
  case comments => exact lines_annotated hline
  case closed => exact fun line hline => (h line hline).2

end SourceMap

def Unbroken (source : String) : Prop :=
  ∀ x ∈ stringConstants source, '\n' ∉ x.toList

section Compiled

variable {source : String} {m : SourceMap Assembly}
  (h : compile (SourceMap Assembly) (.ofText source) = .ok m)
include h

theorem lines_eq_of_compile :
    m.compiled.lines = (numbered (pushedBy (.ofText source))).map fun e => e.line.render := by
  rw [ofEmissions_of_compile h, Target.compiled_ofEmissions]
  exact Assembly.lines_ofEmissions _

theorem unbroken_iff_pushed :
    Unbroken source ↔ ∀ e ∈ pushedBy (.ofText source), '\n' ∉ e.line.render.toList := by
  constructor
  · intro hunbroken e he hfeed
    obtain ⟨n, l, hl, hk, hl', -⟩ := (sourced_of_mem_pushedBy he).mem_render_iff.mp hfeed
    exact hunbroken l.text (mem_stringConstants_of_yielded hl hk) hl'
  · intro hpushed x hx hfeed
    obtain ⟨n, hn⟩ := exists_definition_of_compile (compile_of_compile h) hx
    have hline : Line.definition (.literal n) x ∈
        (numbered (pushedBy (.ofText source))).map Emission.line := by
      rw [← Assembly.toList_ofEmissions]
      exact List.mem_append_left _ hn
    obtain ⟨e, he, hdefinition⟩ := List.mem_map.mp hline
    refine hpushed e (mem_numbered.mp he) ?_
    obtain ⟨before, -, hrender⟩ := toList_render_definition (.literal n) x
    rw [hdefinition, hrender]
    exact List.mem_append_right _ hfeed

theorem unbroken_iff_lineByLine : Unbroken source ↔ m.LineByLine := by
  have hlines := lines_eq_of_compile h
  rw [unbroken_iff_pushed h]
  constructor
  · intro hpushed
    apply SourceMap.lineByLine_of_isLine
    rw [hlines, List.forall_mem_map]
    intro e he
    have hsourced := sourced_of_mem_pushedBy (mem_numbered.mp he)
    exact ⟨hsourced.isLine_render (hpushed e (mem_numbered.mp he)), hsourced.quoting_render⟩
  · intro hmap e he
    have hread := Text.not_mem_of_lines_unlines hmap.lines
    rw [hlines, List.forall_mem_map] at hread
    exact hread e (mem_numbered.mpr he)

end Compiled

/-- Whether a compilation ends well or fails, a line that it pushes holds a line feed exactly if it
defines a string constant that is written over several lines of the source. Entries of the output are
lines of its text, and comments stand behind whole lines, exactly for the programs without such a
string constant. -/
theorem lineByLine_iff_unbroken (source : String) :
    (∀ e ∈ pushedBy (.ofText source), '\n' ∈ e.line.render.toList ↔ e.line.Broken source) ∧
    (∀ (τ : Type) [Target τ] (t : τ), compile τ (.ofText source) = .ok t →
      t = Target.ofEmissions τ (pushedBy (.ofText source))) ∧
    ∀ m, compile (SourceMap Assembly) (.ofText source) = .ok m →
      m.compiled.lines = (numbered (pushedBy (.ofText source))).map (fun e => e.line.render) ∧
      (∀ i, m.position? (i + 1) =
        ((numbered (pushedBy (.ofText source)))[i]?).bind Emission.position) ∧
      (Unbroken source ↔ ∀ e ∈ pushedBy (.ofText source), '\n' ∉ e.line.render.toList) ∧
      (Unbroken source ↔ m.LineByLine) := by
  refine ⟨?_, ?_, ?_⟩
  · intro e he
    exact (sourced_of_mem_pushedBy he).mem_render_iff
  · intro τ _ t h
    exact ofEmissions_of_compile h
  · intro m h
    refine ⟨lines_eq_of_compile h, ?_, unbroken_iff_pushed h, unbroken_iff_lineByLine h⟩
    intro i
    rw [ofEmissions_of_compile h]
    exact SourceMap.position?_ofEmissions _ i

end AnyDistance

theorem lineByLine_of_greeting : ∃ m, compile (SourceMap Assembly) (.ofText greeting) = .ok m ∧
    (∀ e ∈ pushedBy (.ofText greeting), '\n' ∉ e.line.render.toList) ∧ m.LineByLine := by
  have hcompile : ∃ m, compile (SourceMap Assembly) (.ofText greeting) = .ok m := by
    obtain ⟨a, h⟩ := exists_compile_of_isOk greeting (by decide +kernel)
    exact ⟨_, compile_of_compile h⟩
  obtain ⟨m, h⟩ := hcompile
  have hunbroken : Unbroken greeting := by
    unfold Unbroken
    decide +kernel
  obtain ⟨-, -, hpushed, hmap⟩ := (lineByLine_iff_unbroken greeting).2.2 m h
  exact ⟨m, h, hpushed.mp hunbroken, hmap.mp hunbroken⟩

def brokenString : String :=
  "print \"a\nb\""

def brokenLines : List Emission :=
  unattributed ++ ⟨.data, .definition (.literal 1) "\"a\nb\"", some ⟨1, 7⟩⟩ ::
    ((printLines 1).map fun line => ⟨.text, line, some ⟨1, 7⟩⟩) ++
      closingText.map fun line => ⟨.text, line, some ⟨2, 3⟩⟩

/-- The definition of the string is one entry on two lines of the text. From there on an entry and its
position are told of the line before it, and the comment on the definition stands in the string. -/
theorem comment_inside_brokenString :
    ∃ m, compile (SourceMap Assembly) (.ofText brokenString) = .ok m ∧
      (∃ e ∈ pushedBy (.ofText brokenString), '\n' ∈ e.line.render.toList) ∧
      m.compiled.lines[10]? = some "\tldr r0, =sfmt" ∧ m.position? 11 = some ⟨1, 7⟩ ∧
      (Text.lines m.compiled.render)[10]? = some "\tmov fp, sp" ∧
      ∃ before, (Text.lines m.annotated)[5]? = some (before ++ "@ 1:7") ∧
        Text.quoting before = .inside := by
  have hpushed : pushedBy (.ofText brokenString) = brokenLines := by decide +kernel
  obtain ⟨a, h⟩ := exists_compile_of_isOk brokenString (by decide +kernel)
  have hcompile : compile (SourceMap Assembly) (.ofText brokenString) =
      .ok (Target.ofEmissions _ brokenLines) := hpushed ▸ compile_of_compile h
  have hphysical (a : Assembly) : Text.lines a.render = a.lines.flatMap _ :=
    Text.lines_unlines_eq a.lines
  rw [hpushed]
  refine ⟨_, hcompile, by decide +kernel, by decide +kernel, by decide +kernel, ?_,
    "str_1:\t.asciz \"a      ", ?_, by decide⟩
  · rw [hphysical]
    decide +kernel
  · rw [SourceMap.annotated_eq, Text.lines_unlines_eq, SourceMap.commentColumn, hphysical]
    decide +kernel

end OnePass
