import Mathlib.Data.List.Basic
import OnePass.Assembly.Target
import OnePass.Proofs.Spelling
import Std.Data.String.ToNat

/-! # Reading assembly

What a line of assembly says is read off its text alone: first its form, which is that of a label,
an operation with operands or a definition of a string, and then the words in it. The reading is
strict. A word that no line of a program uses, a register outside the bank, a number with needless
zeros or a blank too many makes a line unreadable. So a line is read as one that is written just like
it, and every line of a program is read as what it is.
-/
namespace OnePass

/-! ## The form of a line -/

/-- A line by its form, with the words in it as they are written. -/
inductive Written where
  | label (name : String)
  | operation (mnemonic : String) (operands : List String)
  | definition (name literal : String)
  deriving DecidableEq, Repr

/-- What stands before the first `c`, and what stands behind it if there is one. -/
def cut (c : Char) : List Char → List Char × Option (List Char)
  | [] => ([], none)
  | d :: text => if d = c then ([], some text) else ((cut c text).1.cons d, (cut c text).2)

def pieces : List Char → List (List Char)
  | [] => [[]]
  | ',' :: ' ' :: text => [] :: pieces text
  | c :: text => (pieces text).modifyHead (c :: ·)

def Written.asciz : String := "\t.asciz "

def Written.ofOperation (body : List Char) : Written :=
  match cut ' ' body with
  | (mnemonic, none) => .operation (String.ofList mnemonic) []
  | (mnemonic, some rest) =>
    .operation (String.ofList mnemonic) ((pieces rest).map String.ofList)

def Written.ofNamed? (text : List Char) : Option Written :=
  match cut ':' text with
  | (_, none) => none
  | (name, some []) => some (.label (String.ofList name))
  | (name, some rest) =>
    (rest.dropPrefix? asciz.toList).map fun literal =>
      .definition (String.ofList name) (String.ofList literal)

def Written.ofChars? : List Char → Option Written
  | '\t' :: body => some (ofOperation body)
  | text => ofNamed? text

def Written.read? (line : String) : Option Written :=
  ofChars? line.toList

def Written.render : Written → String
  | label name => name ++ ":"
  | operation mnemonic [] => "\t" ++ mnemonic
  | operation mnemonic (operand :: operands) =>
    "\t" ++ mnemonic ++ " " ++ ", ".intercalate (operand :: operands)
  | definition name literal => name ++ ":" ++ asciz ++ literal

theorem cut_of_notMem {c : Char} {text : List Char} (h : c ∉ text) : cut c text = (text, none) := by
  induction text with
  | nil => rfl
  | cons d text ih =>
    rw [cut, if_neg (List.ne_of_not_mem_cons h).symm, ih (List.not_mem_of_not_mem_cons h)]

theorem cut_append {c : Char} {front : List Char} (rest : List Char) (h : c ∉ front) :
    cut c (front ++ c :: rest) = (front, some rest) := by
  induction front with
  | nil => rw [List.nil_append, cut, if_pos rfl]
  | cons d front ih =>
    rw [List.cons_append, cut, if_neg (List.ne_of_not_mem_cons h).symm,
      ih (List.not_mem_of_not_mem_cons h)]

theorem eq_of_cut {c : Char} {text front : List Char} {behind : Option (List Char)}
    (h : cut c text = (front, behind)) : text = front ++ behind.elim [] (c :: ·) := by
  induction text generalizing front with
  | nil =>
    cases h
    rfl
  | cons d text ih =>
    rw [cut] at h
    split_ifs at h with hd
    · cases h
      rw [hd]
      rfl
    · cases h
      rw [List.cons_append, ← ih rfl]

theorem exists_pieces_eq_cons (text : List Char) : ∃ piece rest, pieces text = piece :: rest := by
  fun_induction pieces text with
  | case1 => exact ⟨_, _, rfl⟩
  | case2 text ih => exact ⟨_, _, rfl⟩
  | case3 c text hc ih =>
    obtain ⟨piece, rest, h⟩ := ih
    rw [h]
    exact ⟨_, _, rfl⟩

theorem pieces_cons {c : Char} (hc : c ≠ ',') (text : List Char) :
    pieces (c :: text) = (pieces text).modifyHead (c :: ·) := by
  rw [pieces]
  rintro _ rfl
  exact absurd rfl hc

theorem pieces_of_notMem {piece : List Char} (h : ',' ∉ piece) : pieces piece = [piece] := by
  induction piece with
  | nil => rfl
  | cons c piece ih =>
    rw [pieces_cons (List.ne_of_not_mem_cons h).symm, ih (List.not_mem_of_not_mem_cons h)]
    rfl

theorem pieces_append {piece : List Char} (text : List Char) (h : ',' ∉ piece) :
    pieces (piece ++ ',' :: ' ' :: text) = piece :: pieces text := by
  induction piece with
  | nil => rfl
  | cons c piece ih =>
    rw [List.cons_append, pieces_cons (List.ne_of_not_mem_cons h).symm,
      ih (List.not_mem_of_not_mem_cons h)]
    rfl

theorem pieces_intercalate {operands : List (List Char)} (hne : operands ≠ [])
    (h : ∀ operand ∈ operands, ',' ∉ operand) :
    pieces ([',', ' '].intercalate operands) = operands := by
  induction operands with
  | nil => exact absurd rfl hne
  | cons operand rest ih =>
    cases rest with
    | nil => rw [List.intercalate_singleton, pieces_of_notMem (h _ (.head _))]
    | cons next rest =>
      have hrest := ih (List.cons_ne_nil _ _) fun operand hmem => h operand (.tail _ hmem)
      rw [List.intercalate_cons_cons, List.append_assoc, List.cons_append, List.cons_append,
        List.nil_append, pieces_append _ (h _ (.head _)), hrest]

theorem intercalate_pieces (text : List Char) : [',', ' '].intercalate (pieces text) = text := by
  fun_induction pieces text with
  | case1 => rfl
  | case2 text ih =>
    obtain ⟨piece, rest, h⟩ := exists_pieces_eq_cons text
    rw [h] at ih ⊢
    rw [List.intercalate_cons_cons, ih]
    rfl
  | case3 c text hc ih =>
    obtain ⟨piece, rest, h⟩ := exists_pieces_eq_cons text
    rw [h] at ih ⊢
    rw [List.modifyHead_cons, List.intercalate_cons_cons_left, ih]

theorem dropPrefix?_eq_some_iff {text front rest : List Char} :
    text.dropPrefix? front = some rest ↔ text = front ++ rest := by
  rw [List.dropPrefix?_eq_some_iff]
  constructor
  · rintro ⟨front', rfl, hfront⟩
    rw [eq_of_beq hfront]
  · rintro rfl
    exact ⟨front, rfl, beq_self_eq_true front⟩

namespace Written

@[simp] theorem toList_render_label (name : String) :
    (label name).render.toList = name.toList ++ [':'] := by
  simp [render]

@[simp] theorem toList_render_nullary (mnemonic : String) :
    (operation mnemonic []).render.toList = '\t' :: mnemonic.toList := by
  simp [render]

@[simp] theorem toList_render_operation (mnemonic operand : String) (operands : List String) :
    (operation mnemonic (operand :: operands)).render.toList = '\t' :: (mnemonic.toList ++
      ' ' :: [',', ' '].intercalate ((operand :: operands).map String.toList)) := by
  simp [render]

@[simp] theorem toList_render_definition (name literal : String) :
    (definition name literal).render.toList =
      name.toList ++ ':' :: (asciz.toList ++ literal.toList) := by
  simp [render]

theorem toList_render_ofOperation (body : List Char) :
    (ofOperation body).render.toList = '\t' :: body := by
  unfold ofOperation
  split
  · next mnemonic hcut => simpa using (eq_of_cut hcut).symm
  · next mnemonic rest hcut =>
    obtain ⟨piece, others, hpieces⟩ := exists_pieces_eq_cons rest
    have hwords : ((piece :: others).map String.ofList).map String.toList = pieces rest := by
      rw [List.map_map, hpieces]
      simp
    rw [hpieces, List.map_cons, toList_render_operation, ← List.map_cons, hwords,
      intercalate_pieces, String.toList_ofList]
    exact congrArg ('\t' :: ·) (eq_of_cut hcut).symm

theorem toList_render_of_ofNamed? {text : List Char} {w : Written} (h : ofNamed? text = some w) :
    w.render.toList = text := by
  unfold ofNamed? at h
  split at h
  · cases h
  · next name hcut =>
    cases h
    simpa using (eq_of_cut hcut).symm
  · next name rest _ hcut =>
    obtain ⟨literal, hdrop, rfl⟩ := Option.map_eq_some_iff.mp h
    rw [dropPrefix?_eq_some_iff] at hdrop
    rw [toList_render_definition, String.toList_ofList, String.toList_ofList, ← hdrop]
    exact (eq_of_cut hcut).symm

/-- A line is written just like the form that is read in it. -/
theorem render_of_read? {line : String} {w : Written} (h : read? line = some w) :
    w.render = line := by
  rw [← String.toList_inj]
  unfold read? ofChars? at h
  split at h
  · next body hline =>
    cases h
    rw [toList_render_ofOperation, hline]
  · exact toList_render_of_ofNamed? h

end Written

/-- A word that neither the form of a line nor a list of operands takes apart. -/
def IsBare (word : String) : Prop :=
  ∀ c ∈ word.toList, c ≠ ',' ∧ c ≠ ' ' ∧ c ≠ ':' ∧ c ≠ '\t'

instance (word : String) : Decidable (IsBare word) :=
  List.decidableBAll _ _

theorem IsBare.notMem {word : String} (h : IsBare word) :
    ',' ∉ word.toList ∧ ' ' ∉ word.toList ∧ ':' ∉ word.toList :=
  ⟨fun hmem => (h _ hmem).1 rfl, fun hmem => (h _ hmem).2.1 rfl, fun hmem => (h _ hmem).2.2.1 rfl⟩

theorem isBare_append {a b : String} : IsBare (a ++ b) ↔ IsBare a ∧ IsBare b := by
  simp only [IsBare, String.toList_append, List.forall_mem_append]

theorem isBare_of_digits {digits : String} (h : ∀ c ∈ digits.toList, c.isDigit = true) :
    IsBare digits := by
  intro c hc
  have hdigit := h c hc
  refine ⟨?_, ?_, ?_, ?_⟩ <;> rintro rfl <;> cases hdigit

namespace Written

def IsReadable : Written → Prop
  | label name => IsBare name
  | operation mnemonic operands => IsBare mnemonic ∧ ∀ operand ∈ operands, IsBare operand
  | definition name _ => IsBare name

theorem ofChars?_append {name : String} (rest : List Char) (hname : IsBare name)
    (h : rest.head? ≠ some '\t') :
    ofChars? (name.toList ++ rest) = ofNamed? (name.toList ++ rest) := by
  rw [ofChars?]
  intro body hbody
  cases hchars : name.toList with
  | nil =>
    rw [hchars, List.nil_append] at hbody
    rw [hbody] at h
    exact h rfl
  | cons c chars =>
    rw [hchars, List.cons_append] at hbody
    exact (hname c (by simp [hchars])).2.2.2 (List.cons.inj hbody).1

theorem read?_render {w : Written} (h : w.IsReadable) : read? w.render = some w := by
  cases w with
  | label name =>
    obtain ⟨-, -, hcolon⟩ := IsBare.notMem h
    rw [read?, toList_render_label, ofChars?_append _ h (by simp), ofNamed?, cut_append [] hcolon]
    simp
  | operation mnemonic operands =>
    obtain ⟨hmnemonic, hoperands⟩ := h
    obtain ⟨-, hblank, -⟩ := hmnemonic.notMem
    cases operands with
    | nil =>
      rw [read?, toList_render_nullary, ofChars?, ofOperation, cut_of_notMem hblank]
      simp
    | cons operand operands =>
      have hcommas : ∀ chars ∈ (operand :: operands).map String.toList, ',' ∉ chars := by
        intro chars hchars
        obtain ⟨word, hword, rfl⟩ := List.mem_map.mp hchars
        exact (hoperands word hword).notMem.1
      have hwords : ((operand :: operands).map String.toList).map String.ofList =
          operand :: operands := by
        rw [List.map_map]
        simp
      rw [read?, toList_render_operation, ofChars?, ofOperation, cut_append _ hblank]
      simp only [pieces_intercalate (by simp) hcommas, hwords, String.ofList_toList]
  | definition name literal =>
    obtain ⟨-, -, hcolon⟩ := IsBare.notMem h
    have hdrop : (asciz.toList ++ literal.toList).dropPrefix? asciz.toList =
        some literal.toList := dropPrefix?_eq_some_iff.mpr rfl
    obtain ⟨c, rest, hcons⟩ : ∃ c rest, asciz.toList ++ literal.toList = c :: rest := ⟨_, _, rfl⟩
    rw [read?, toList_render_definition, ofChars?_append _ h (by simp), ofNamed?,
      cut_append _ hcolon]
    rw [hcons] at hdrop ⊢
    simp [hdrop]

end Written

/-! ## Words -/

def behind? (front text : String) : Option String :=
  (text.toList.dropPrefix? front.toList).map String.ofList

def number? (text : String) : Option Nat :=
  text.toNat?.filter fun n => toString n = text

def Register.read? : String → Option Register
  | "r4" => Register.all[0]?
  | "r5" => Register.all[1]?
  | "r6" => Register.all[2]?
  | "r7" => Register.all[3]?
  | "r8" => Register.all[4]?
  | "r9" => Register.all[5]?
  | _ => none

def numberBehind? (front name : String) : Option Nat :=
  (behind? front name).bind number?

def CodeLabel.read? (name : String) : Option CodeLabel :=
  if name = "main" then some .main
  else ((numberBehind? "begin_" name).map .beginOf).or ((numberBehind? "end_" name).map .endOf)

def DataLabel.read? (name : String) : Option DataLabel :=
  if name = "ifmt" then some .integerFormat
  else if name = "sfmt" then some .stringFormat
  else (numberBehind? "str_" name).map .literal

def Arithmetic.read? : String → Option Arithmetic
  | "add" => some .add
  | "sub" => some .subtract
  | "mul" => some .multiply
  | "sdiv" => some .divide
  | _ => none

/-- The comparison that a conditional branch is not taken on. -/
def Comparison.read? : String → Option Comparison
  | "bne" => some .equal
  | "beq" => some .notEqual
  | "bge" => some .less
  | "bgt" => some .lessEqual
  | "ble" => some .greater
  | "blt" => some .greaterEqual
  | _ => none

/-- The slot at a distance below the frame pointer, of which every slot takes four bytes. -/
def slotAt? (offset : String) : Option Nat :=
  match (behind? "#-" offset).map fun text => cut ']' text.toList with
  | some (digits, some []) =>
    (number? (String.ofList digits)).bind fun n =>
      if 0 < n ∧ n % 4 = 0 then some (n / 4) else none
  | _ => none

def offsetWord (slot : Nat) : String :=
  "#" ++ toString (frameOffset slot) ++ "]"

def constant? (value : String) : Option String :=
  (behind? "=" value).filter fun digits => decide (IsNumeral digits.toList)

def address? (value : String) : Option DataLabel :=
  (behind? "=" value).bind DataLabel.read?

theorem behind?_eq_some_iff {front text rest : String} :
    behind? front text = some rest ↔ text = front ++ rest := by
  rw [behind?, Option.map_eq_some_iff, ← String.toList_inj, String.toList_append]
  constructor
  · rintro ⟨chars, h, rfl⟩
    rwa [String.toList_ofList, ← dropPrefix?_eq_some_iff]
  · intro h
    exact ⟨rest.toList, dropPrefix?_eq_some_iff.mpr h, String.ofList_toList⟩

theorem number?_eq_some_iff {text : String} {n : Nat} :
    number? text = some n ↔ text = toString n := by
  rw [number?, Option.filter_eq_some_iff]
  constructor
  · rintro ⟨-, htext⟩
    exact (of_decide_eq_true htext).symm
  · rintro rfl
    exact ⟨Nat.toNat?_repr n, decide_eq_true rfl⟩

theorem Register.read?_eq_some_iff {name : String} {r : Register} :
    read? name = some r ↔ name = r.render := by
  constructor
  · intro h
    unfold read? at h
    split at h <;> cases h <;> rfl
  · rintro rfl
    have hall : ∀ i : Fin registerCount, read? (mk i).render = some (mk i) := by decide +kernel
    exact hall r.index

theorem numberBehind?_eq_some_iff {front name : String} {n : Nat} :
    numberBehind? front name = some n ↔ name = front ++ toString n := by
  rw [numberBehind?, Option.bind_eq_some_iff]
  constructor
  · rintro ⟨rest, hrest, hn⟩
    rw [behind?_eq_some_iff.mp hrest, number?_eq_some_iff.mp hn]
  · intro h
    exact ⟨toString n, behind?_eq_some_iff.mpr h, number?_eq_some_iff.mpr rfl⟩

theorem numberBehind?_append (front : String) (n : Nat) :
    numberBehind? front (front ++ toString n) = some n :=
  numberBehind?_eq_some_iff.mpr rfl

theorem CodeLabel.read?_eq_some_iff {name : String} {l : CodeLabel} :
    read? name = some l ↔ name = l.render := by
  unfold read?
  split_ifs with hmain
  · cases l <;> simp [hmain, render, ← String.toList_inj]
  · constructor
    · intro h
      rcases Option.or_eq_some_iff.mp h with h | ⟨-, h⟩
      · obtain ⟨n, hn, rfl⟩ := Option.map_eq_some_iff.mp h
        exact numberBehind?_eq_some_iff.mp hn
      · obtain ⟨n, hn, rfl⟩ := Option.map_eq_some_iff.mp h
        exact numberBehind?_eq_some_iff.mp hn
    · rintro rfl
      cases l with
      | main => exact absurd rfl hmain
      | beginOf n =>
        rw [render, numberBehind?_append]
        rfl
      | endOf n =>
        have hnone : numberBehind? "begin_" (endOf n).render = none := by
          apply Option.eq_none_iff_forall_ne_some.mpr
          intro m hm
          have hname := congrArg String.toList (numberBehind?_eq_some_iff.mp hm)
          simp [render] at hname
        rw [hnone, render, numberBehind?_append]
        rfl

theorem DataLabel.read?_eq_some_iff {name : String} {l : DataLabel} :
    read? name = some l ↔ name = l.render := by
  unfold read?
  split_ifs with hinteger hstring
  · cases l <;> simp [hinteger, render, ← String.toList_inj]
  · cases l <;> simp [hstring, render, ← String.toList_inj]
  · constructor
    · intro h
      obtain ⟨n, hn, rfl⟩ := Option.map_eq_some_iff.mp h
      exact numberBehind?_eq_some_iff.mp hn
    · rintro rfl
      cases l with
      | integerFormat => exact absurd rfl hinteger
      | stringFormat => exact absurd rfl hstring
      | literal n =>
        rw [render, numberBehind?_append]
        rfl

theorem Arithmetic.read?_eq_some_iff {word : String} {op : Arithmetic} :
    read? word = some op ↔ word = op.mnemonic := by
  constructor
  · intro h
    unfold read? at h
    split at h <;> cases h <;> rfl
  · rintro rfl
    cases op <;> rfl

theorem Comparison.read?_eq_some_iff {word : String} {op : Comparison} :
    read? word = some op ↔ word = op.negatedBranch := by
  constructor
  · intro h
    unfold read? at h
    split at h <;> cases h <;> rfl
  · rintro rfl
    cases op <;> rfl

theorem constant?_eq_some_iff {value digits : String} :
    constant? value = some digits ↔ value = "=" ++ digits ∧ IsNumeral digits.toList := by
  rw [constant?, Option.filter_eq_some_iff, behind?_eq_some_iff, decide_eq_true_iff]

theorem address?_eq_some_iff {value : String} {l : DataLabel} :
    address? value = some l ↔ value = "=" ++ l.render := by
  rw [address?, Option.bind_eq_some_iff]
  constructor
  · rintro ⟨rest, hrest, hl⟩
    rw [behind?_eq_some_iff.mp hrest, DataLabel.read?_eq_some_iff.mp hl]
  · intro h
    exact ⟨l.render, behind?_eq_some_iff.mpr h, DataLabel.read?_eq_some_iff.mpr rfl⟩

theorem toString_frameOffset {slot : Nat} (h : 0 < slot) :
    toString (frameOffset slot) = "-" ++ toString (4 * slot) := by
  obtain ⟨n, rfl⟩ := Nat.exists_eq_succ_of_ne_zero (Nat.ne_of_gt h)
  have hoffset : frameOffset (n + 1) = Int.negSucc (4 * n + 3) := by
    rw [frameOffset]
    omega
  rw [Nat.succ_eq_add_one, hoffset]
  rfl

theorem slotAt?_eq_some_iff {offset : String} {slot : Nat} :
    slotAt? offset = some slot ↔
      0 < slot ∧ offset = offsetWord slot := by
  unfold slotAt?
  constructor
  · intro h
    split at h
    · next digits hcut =>
      obtain ⟨text, htext, hcut⟩ := Option.map_eq_some_iff.mp hcut
      obtain ⟨n, hn, h⟩ := Option.bind_eq_some_iff.mp h
      split_ifs at h with hdivides
      cases h
      have hslot : 0 < n / 4 := by omega
      have hfour : 4 * (n / 4) = n := by omega
      have hdigits : digits = (toString n).toList := by
        rw [← number?_eq_some_iff.mp hn, String.toList_ofList]
      refine ⟨hslot, ?_⟩
      rw [offsetWord, toString_frameOffset hslot, hfour, behind?_eq_some_iff.mp htext,
        ← String.toList_inj]
      simp [eq_of_cut hcut, hdigits]
    · cases h
  · rintro ⟨hslot, rfl⟩
    have hbehind : behind? "#-" (offsetWord slot) = some (toString (4 * slot) ++ "]") := by
      rw [behind?_eq_some_iff, offsetWord, toString_frameOffset hslot, ← String.toList_inj]
      simp
    have hdigits : ']' ∉ (toString (4 * slot)).toList := fun hmem => by
      cases isDigit_of_mem_toString hmem
    have hcut : cut ']' (toString (4 * slot) ++ "]").toList =
        ((toString (4 * slot)).toList, some []) := by
      rw [String.toList_append]
      exact cut_append [] hdigits
    have hnumber : number? (toString (4 * slot)) = some (4 * slot) := number?_eq_some_iff.mpr rfl
    have hdivides : 0 < 4 * slot ∧ 4 * slot % 4 = 0 := by omega
    rw [hbehind, Option.map_some, hcut]
    dsimp only
    rw [String.ofList_toList, hnumber, Option.bind_some, if_pos hdivides]
    exact congrArg some (by omega)

/-! ## Instructions -/

def Instruction.read? : String → List String → Option Instruction
  | "push", ["\x7bfp", "lr\x7d"] => some .saveFrame
  | "push", ["\x7br1-r3", "r12\x7d"] => some .saveScratch
  | "pop", ["\x7br1-r3", "r12\x7d"] => some .restoreScratch
  | "pop", ["\x7bfp", "pc\x7d"] => some .returnToCaller
  | "mov", ["fp", "sp"] => some .enterFrame
  | "mov", ["sp", "fp"] => some .leaveFrame
  | "mov", ["r0", "#0"] => some .clearResult
  | "mov", ["r1", source] => return .passArgument (← Register.read? source)
  | "sub", ["sp", "sp", "#4"] => some .reserveSlot
  | "ldr", ["r0", value] => return .selectFormat (← address? value)
  | "ldr", [target, value] => do
    let r ← Register.read? target
    ((constant? value).map (.loadNumber r)).or ((address? value).map (.loadAddress r))
  | "ldr", [target, "[fp", offset] =>
    return .loadVariable (← Register.read? target) (← slotAt? offset)
  | "str", [source, "[fp", offset] =>
    return .storeVariable (← Register.read? source) (← slotAt? offset)
  | "rsb", [target, source, "#0"] =>
    return .negate (← Register.read? target) (← Register.read? source)
  | "cmp", [left, right] => return .compare (← Register.read? left) (← Register.read? right)
  | "b", [label] => return .branch (← CodeLabel.read? label)
  | "bl", ["printf"] => some .callPrintf
  | mnemonic, [label] =>
    return .branchUnless (← Comparison.read? mnemonic) (← CodeLabel.read? label)
  | mnemonic, [target, left, right] =>
    return .arithmetic (← Arithmetic.read? mnemonic) (← Register.read? target)
      (← Register.read? left) (← Register.read? right)
  | _, _ => none

def Instruction.words : Instruction → String × List String
  | saveFrame => ("push", ["\x7bfp", "lr\x7d"])
  | enterFrame => ("mov", ["fp", "sp"])
  | reserveSlot => ("sub", ["sp", "sp", "#4"])
  | loadNumber r digits => ("ldr", [r.render, "=" ++ digits])
  | loadAddress r label => ("ldr", [r.render, "=" ++ label.render])
  | loadVariable r slot => ("ldr", [r.render, "[fp", offsetWord slot])
  | storeVariable r slot => ("str", [r.render, "[fp", offsetWord slot])
  | arithmetic op r a b => (op.mnemonic, [r.render, a.render, b.render])
  | negate r a => ("rsb", [r.render, a.render, "#0"])
  | compare a b => ("cmp", [a.render, b.render])
  | branchUnless op label => (op.negatedBranch, [label.render])
  | branch label => ("b", [label.render])
  | selectFormat label => ("ldr", ["r0", "=" ++ label.render])
  | saveScratch => ("push", ["\x7br1-r3", "r12\x7d"])
  | passArgument r => ("mov", ["r1", r.render])
  | callPrintf => ("bl", ["printf"])
  | restoreScratch => ("pop", ["\x7br1-r3", "r12\x7d"])
  | clearResult => ("mov", ["r0", "#0"])
  | leaveFrame => ("mov", ["sp", "fp"])
  | returnToCaller => ("pop", ["\x7bfp", "pc\x7d"])

/-- The constants are numerals, and the slots are numbered from one. -/
def Instruction.IsReadable : Instruction → Prop
  | loadNumber _ digits => IsNumeral digits.toList
  | loadVariable _ slot | storeVariable _ slot => 0 < slot
  | _ => True

theorem Register.render_ne {r : Register} {word : String} (h : Register.read? word = none) :
    r.render ≠ word := by
  rintro rfl
  rw [read?_eq_some_iff.mpr rfl] at h
  cases h

/-- An instruction is read from words that are just its own. -/
theorem Instruction.words_of_read? {mnemonic : String} {operands : List String} {i : Instruction}
    (h : read? mnemonic operands = some i) : i.words = (mnemonic, operands) ∧ i.IsReadable := by
  unfold read? at h
  split at h <;> simp only [Option.pure_def, Option.bind_eq_bind, Option.bind_eq_some_iff,
    Option.some.injEq, Register.read?_eq_some_iff, Arithmetic.read?_eq_some_iff,
    Comparison.read?_eq_some_iff, CodeLabel.read?_eq_some_iff, address?_eq_some_iff,
    slotAt?_eq_some_iff, Option.or_eq_some_iff, Option.map_eq_some_iff,
    constant?_eq_some_iff, reduceCtorEq] at h
  case h_1 | h_2 | h_3 | h_4 | h_5 | h_6 | h_7 | h_9 | h_17 =>
    cases h
    exact ⟨rfl, trivial⟩
  case h_11 =>
    obtain ⟨r, rfl, ⟨digits, ⟨rfl, hdigits⟩, rfl⟩ | ⟨-, label, rfl, rfl⟩⟩ := h
    · exact ⟨rfl, hdigits⟩
    · exact ⟨rfl, trivial⟩
  case h_12 | h_13 =>
    obtain ⟨r, rfl, slot, ⟨hslot, rfl⟩, rfl⟩ := h
    exact ⟨rfl, hslot⟩
  case h_8 | h_10 | h_16 =>
    obtain ⟨word, rfl, rfl⟩ := h
    exact ⟨rfl, trivial⟩
  case h_14 | h_15 | h_18 =>
    obtain ⟨first, rfl, second, rfl, rfl⟩ := h
    exact ⟨rfl, trivial⟩
  case h_19 =>
    obtain ⟨op, rfl, r, rfl, a, rfl, b, rfl, rfl⟩ := h
    exact ⟨rfl, trivial⟩

theorem DataLabel.not_isNumeral (l : DataLabel) : ¬ IsNumeral l.render.toList := by
  rintro ⟨-, hdigits⟩
  cases l with
  | integerFormat => exact absurd (hdigits 'i' (by decide)) (by decide)
  | stringFormat => exact absurd (hdigits 's' (by decide)) (by decide)
  | literal n => exact absurd (hdigits 's' (by simp [render])) (by decide)

theorem Instruction.read?_words {i : Instruction} (h : i.IsReadable) :
    read? i.words.1 i.words.2 = some i := by
  have hregister : ∀ r : Register, Register.read? r.render = some r :=
    fun r => Register.read?_eq_some_iff.mpr rfl
  have hlabel : ∀ l : CodeLabel, CodeLabel.read? l.render = some l :=
    fun l => CodeLabel.read?_eq_some_iff.mpr rfl
  have haddress : ∀ l : DataLabel, address? ("=" ++ l.render) = some l :=
    fun l => address?_eq_some_iff.mpr rfl
  have hscratch : ∀ r : Register, r.render ≠ "r0" := fun r => Register.render_ne rfl
  have hstack : ∀ r : Register, r.render ≠ "sp" := fun r => Register.render_ne rfl
  cases i with
  | saveFrame => rfl
  | enterFrame => rfl
  | reserveSlot => rfl
  | saveScratch => rfl
  | callPrintf => rfl
  | restoreScratch => rfl
  | clearResult => rfl
  | leaveFrame => rfl
  | returnToCaller => rfl
  | loadNumber r digits =>
    have hvalue : constant? ("=" ++ digits) = some digits := constant?_eq_some_iff.mpr ⟨rfl, h⟩
    simp [words, read?, hregister, hvalue, hscratch]
  | loadAddress r label =>
    have hvalue : constant? ("=" ++ label.render) = none := by
      apply Option.eq_none_iff_forall_ne_some.mpr
      intro digits hdigits
      obtain ⟨hsame, hnumeral⟩ := constant?_eq_some_iff.mp hdigits
      rw [← (String.append_right_inj _).mp hsame] at hnumeral
      exact label.not_isNumeral hnumeral
    simp [words, read?, hregister, haddress, hvalue, hscratch]
  | loadVariable r slot =>
    have hslot : slotAt? (offsetWord slot) = some slot := slotAt?_eq_some_iff.mpr ⟨h, rfl⟩
    simp [words, read?, hregister, hslot]
  | storeVariable r slot =>
    have hslot : slotAt? (offsetWord slot) = some slot := slotAt?_eq_some_iff.mpr ⟨h, rfl⟩
    simp [words, read?, hregister, hslot]
  | arithmetic op r a b =>
    cases op <;> simp [words, read?, hregister, hstack, Arithmetic.mnemonic, Arithmetic.read?]
  | negate r a => simp [words, read?, hregister]
  | compare a b => simp [words, read?, hregister]
  | branchUnless op label =>
    cases op <;> simp [words, read?, hlabel, Comparison.negatedBranch, Comparison.read?]
  | branch label => simp [words, read?, hlabel]
  | selectFormat label => simp [words, read?, haddress]
  | passArgument r => simp [words, read?, hregister]

/-! ### The words are found in the text -/

theorem isBare_toString (n : Nat) : IsBare (toString n) :=
  isBare_of_digits fun _ => isDigit_of_mem_toString

theorem Register.isBare_render (r : Register) : IsBare r.render :=
  isBare_append.mpr ⟨by decide, isBare_toString _⟩

theorem CodeLabel.isBare_render (l : CodeLabel) : IsBare l.render := by
  cases l with
  | main => decide
  | beginOf n | endOf n => exact isBare_append.mpr ⟨by decide, isBare_toString n⟩

theorem DataLabel.isBare_render (l : DataLabel) : IsBare l.render := by
  cases l with
  | integerFormat | stringFormat => decide
  | literal n => exact isBare_append.mpr ⟨by decide, isBare_toString n⟩

theorem isBare_offsetWord {slot : Nat} (h : 0 < slot) : IsBare (offsetWord slot) := by
  rw [offsetWord, toString_frameOffset h]
  simp only [isBare_append]
  exact ⟨⟨by decide, by decide, isBare_toString _⟩, by decide⟩

theorem Instruction.isBare_mnemonic (i : Instruction) : IsBare i.words.1 := by
  have hall : ∀ word ∈ ["push", "pop", "mov", "ldr", "str", "add", "sub", "mul", "sdiv", "rsb",
      "cmp", "b", "bl", "bne", "beq", "bge", "bgt", "ble", "blt"], IsBare word := by decide
  apply hall
  cases i with
  | arithmetic op r a b => cases op <;> simp [words, Arithmetic.mnemonic]
  | branchUnless op label => cases op <;> simp [words, Comparison.negatedBranch]
  | _ => simp [words]

theorem Instruction.isBare_operands {i : Instruction} (h : i.IsReadable) :
    ∀ operand ∈ i.words.2, IsBare operand := by
  have hfixed : IsBare "r0" ∧ IsBare "r1" ∧ IsBare "#0" ∧ IsBare "[fp" := by decide
  have hvalue : ∀ word, IsBare word → IsBare ("=" ++ word) :=
    fun word hword => isBare_append.mpr ⟨by decide, hword⟩
  cases i with
  | saveFrame | enterFrame | reserveSlot | saveScratch | callPrintf | restoreScratch
  | clearResult | leaveFrame | returnToCaller => decide
  | loadNumber r digits =>
    have hdigits := hvalue digits (isBare_of_digits h.2)
    simp [words, Register.isBare_render, hdigits]
  | loadVariable r slot | storeVariable r slot =>
    have hslot := isBare_offsetWord h
    simp [words, Register.isBare_render, hfixed, hslot]
  | loadAddress r label | selectFormat label =>
    have hlabel := hvalue _ label.isBare_render
    simp [words, Register.isBare_render, hfixed, hlabel]
  | branchUnless op label | branch label => simp [words, CodeLabel.isBare_render]
  | arithmetic op r a b => simp [words, Register.isBare_render]
  | compare a b => simp [words, Register.isBare_render]
  | negate r a => simp [words, Register.isBare_render, hfixed]
  | passArgument r => simp [words, Register.isBare_render, hfixed]

theorem Instruction.render_words (i : Instruction) :
    (Written.operation i.words.1 i.words.2).render = "\t" ++ i.render := by
  rw [← String.toList_inj]
  cases i <;> simp [words, render, frameOperand, offsetWord]

/-! ## Lines -/

def Directive.read? : String → List String → Option Directive
  | ".global", ["main"] => some .globalMain
  | ".extern", ["printf"] => some .externPrintf
  | ".data", [] => some .dataSection
  | ".text", [] => some .textSection
  | _, _ => none

def Written.line? : Written → Option Line
  | label name => (CodeLabel.read? name).map .label
  | operation mnemonic operands =>
    ((Instruction.read? mnemonic operands).map .instruction).or
      ((Directive.read? mnemonic operands).map .directive)
  | definition name literal => (DataLabel.read? name).map fun l => .definition l literal

def Line.read? (text : String) : Option Line :=
  (Written.read? text).bind Written.line?

def Directive.words : Directive → String × List String
  | globalMain => (".global", ["main"])
  | externPrintf => (".extern", ["printf"])
  | dataSection => (".data", [])
  | textSection => (".text", [])

def Line.IsReadable : Line → Prop
  | instruction i => i.IsReadable
  | label _ | directive _ | definition _ _ => True
  | verbatim _ => False

theorem Directive.words_of_read? {mnemonic : String} {operands : List String} {d : Directive}
    (h : read? mnemonic operands = some d) : d.words = (mnemonic, operands) := by
  unfold read? at h
  split at h <;> cases h <;> rfl

theorem Directive.render_words (d : Directive) :
    (Written.operation d.words.1 d.words.2).render = "\t" ++ d.render := by
  cases d <;> rfl

def Line.written? : Line → Option Written
  | instruction i => some (.operation i.words.1 i.words.2)
  | label l => some (.label l.render)
  | directive d => some (.operation d.words.1 d.words.2)
  | definition l literal => some (.definition l.render literal)
  | verbatim _ => none

theorem Line.render_of_written? {line : Line} {w : Written} (h : line.written? = some w) :
    w.render = line.render := by
  cases line with
  | instruction i =>
    cases h
    exact i.render_words
  | label l =>
    cases h
    rfl
  | directive d =>
    cases h
    exact d.render_words
  | definition l literal =>
    cases h
    rw [← String.toList_inj]
    simp [render, Written.asciz]
  | verbatim text => cases h

theorem Line.isReadable_of_written? {line : Line} {w : Written} (h : line.written? = some w)
    (hreadable : line.IsReadable) : w.IsReadable := by
  cases line with
  | instruction i =>
    cases h
    exact ⟨i.isBare_mnemonic, Instruction.isBare_operands hreadable⟩
  | label l =>
    cases h
    exact l.isBare_render
  | directive d =>
    cases h
    cases d <;> exact ⟨by decide, by decide⟩
  | definition l literal =>
    cases h
    exact l.isBare_render
  | verbatim text => cases h

theorem Written.line?_eq_some_iff {w : Written} {line : Line} :
    w.line? = some line ↔ line.written? = some w ∧ line.IsReadable := by
  constructor
  · intro h
    cases w with
    | label name =>
      obtain ⟨l, hl, rfl⟩ := Option.map_eq_some_iff.mp h
      rw [CodeLabel.read?_eq_some_iff.mp hl]
      exact ⟨rfl, trivial⟩
    | operation mnemonic operands =>
      rcases Option.or_eq_some_iff.mp h with h | ⟨-, h⟩
      · obtain ⟨i, hi, rfl⟩ := Option.map_eq_some_iff.mp h
        obtain ⟨hwords, hreadable⟩ := Instruction.words_of_read? hi
        rw [Line.written?, hwords]
        exact ⟨rfl, hreadable⟩
      · obtain ⟨d, hd, rfl⟩ := Option.map_eq_some_iff.mp h
        rw [Line.written?, Directive.words_of_read? hd]
        exact ⟨rfl, trivial⟩
    | definition name literal =>
      obtain ⟨l, hl, rfl⟩ := Option.map_eq_some_iff.mp h
      rw [DataLabel.read?_eq_some_iff.mp hl]
      exact ⟨rfl, trivial⟩
  · rintro ⟨h, hreadable⟩
    cases line with
    | instruction i =>
      cases h
      rw [line?, Instruction.read?_words hreadable]
      rfl
    | label l =>
      cases h
      rw [line?, CodeLabel.read?_eq_some_iff.mpr rfl]
      rfl
    | directive d =>
      cases h
      cases d <;> rfl
    | definition l literal =>
      cases h
      rw [line?, DataLabel.read?_eq_some_iff.mpr rfl]
      rfl
    | verbatim text => cases h

theorem Line.exists_written {line : Line} (h : line.IsReadable) : ∃ w, line.written? = some w := by
  cases line with
  | verbatim text => cases h
  | _ => exact ⟨_, rfl⟩

theorem Line.written?_of_isReadable {line : Line} (h : line.IsReadable) :
    Written.read? line.render = line.written? := by
  obtain ⟨w, hw⟩ := line.exists_written h
  rw [← render_of_written? hw, Written.read?_render (isReadable_of_written? hw h), hw]

/-- A line is read in the text that it is written as, and in no other. -/
theorem Line.read?_eq_some_iff {text : String} {line : Line} :
    read? text = some line ↔ text = line.render ∧ line.IsReadable := by
  constructor
  · intro h
    obtain ⟨w, hw, hline⟩ := Option.bind_eq_some_iff.mp h
    obtain ⟨hwritten, hreadable⟩ := Written.line?_eq_some_iff.mp hline
    rw [← render_of_written? hwritten, Written.render_of_read? hw]
    exact ⟨rfl, hreadable⟩
  · rintro ⟨rfl, hreadable⟩
    obtain ⟨w, hw⟩ := line.exists_written hreadable
    rw [read?, written?_of_isReadable hreadable, hw]
    exact Written.line?_eq_some_iff.mpr ⟨hw, hreadable⟩

end OnePass
