import OnePass.Proofs.Acceptance
import OnePass.Proofs.PhysicalLines
import OnePass.Proofs.StatementExecution

/-! # Numbers in the text

The constants and offsets in the text of a program come from the leaves of its expressions and the
targets of its assignments. A constant is copied as it is spelt, and an offset grows with every
declaration. So a program has an operand that an instruction cannot take exactly if a number of the
source has needless zeros in front, or a name is used behind whose declaration too many others come
first.
-/
namespace OnePass

section AnyDistance

variable {distance : String → String → Nat} [NameDistance distance]

/-! ## Numbers in instructions -/

/-- What stands as a number in an instruction: a constant as it is spelt, or the offset of a word in
the frame. -/
inductive Immediate where
  | constant (digits : String)
  | offset (distance : Int)
  deriving DecidableEq, Repr

def Instruction.immediate? : Instruction → Option Immediate
  | loadNumber _ digits => some (.constant digits)
  | loadVariable _ slot | storeVariable _ slot => some (.offset (frameOffset slot))
  | _ => none

def Line.immediate? : Line → Option Immediate
  | instruction i => i.immediate?
  | _ => none

/-- The number is spelt without needless zeros, which would make it an octal one. -/
def IsCanonical (digits : String) : Prop :=
  digits.toList.head? = some '0' → digits = "0"

/-- The number can be put into its instruction, with the value that it has in the source. -/
def Immediate.Encodable : Immediate → Prop
  | constant digits => IsNumeral digits.toList ∧ IsCanonical digits ∧
    decimalValue digits.toList < 2 ^ 32
  | offset distance => -4095 ≤ distance ∧ distance ≤ -4

def numbersIn (is : List Instruction) : List Immediate :=
  is.filterMap Instruction.immediate?

def immediates (lines : List Line) : List Immediate :=
  lines.filterMap Line.immediate?

@[simp] theorem numbersIn_append (is js : List Instruction) :
    numbersIn (is ++ js) = numbersIn is ++ numbersIn js :=
  List.filterMap_append

@[simp] theorem immediates_append (xs ys : List Line) :
    immediates (xs ++ ys) = immediates xs ++ immediates ys :=
  List.filterMap_append

@[simp] theorem immediates_instructions (is : List Instruction) :
    immediates (instructions is) = numbersIn is := by
  rw [immediates, instructions, List.filterMap_map]
  rfl

@[simp] theorem immediates_label (l : CodeLabel) (lines : List Line) :
    immediates (.label l :: lines) = immediates lines := rfl

@[simp] theorem immediates_branch (l : CodeLabel) (lines : List Line) :
    immediates (.instruction (.branch l) :: lines) = immediates lines := rfl

@[simp] theorem immediates_nil : immediates [] = [] := rfl

/-! ## Leaves -/

/-- The numbers and the names that are used, in the order of the tokens. -/
def leavesOf : List Token → List Value
  | [] => []
  | ⟨.variableWord, _⟩ :: ⟨.identifier, _⟩ :: rest => leavesOf rest
  | ⟨.identifier, x⟩ :: rest => .var x :: leavesOf rest
  | ⟨.number, digits⟩ :: rest => .number digits :: leavesOf rest
  | _ :: rest => leavesOf rest

def Expr.leaves : Expr → List Value
  | number digits => [.number digits]
  | var x => [.var x]
  | binary _ l r => l.leaves ++ r.leaves
  | negate e => e.leaves

def Condition.leaves (c : Condition) : List Value :=
  c.left.expr.leaves ++ c.right.expr.leaves

mutual

def Statement.leaves : Statement → List Value
  | .assign x e => .var x :: e.expr.leaves
  | .ifThen c s => c.leaves ++ s.leaves
  | .ifElse c s t => c.leaves ++ s.leaves ++ t.leaves
  | .whileDo c s => c.leaves ++ s.leaves
  | .print e => e.expr.leaves
  | .block b => b.leaves
  | .printText _ => []
  | .declare _ => []
  | .skip => []

def Sequence.leaves : Sequence → List Value
  | .last s => s.leaves
  | .more s rest => s.leaves ++ rest.leaves

end

@[simp] theorem leavesOf_cons {t : Token} (rest : List Token)
    (h : t.kind ∉ [Terminal.identifier, .variableWord, .number]) :
    leavesOf (t :: rest) = leavesOf rest := by
  obtain ⟨kind, text⟩ := t
  cases kind <;> first | rfl | simp at h

mutual

theorem Expression.leavesOf_tokens (rest : List Token) : ∀ e : Expression,
    leavesOf (e.tokens ++ rest) = e.expr.leaves ++ leavesOf rest
  | .single t => t.leavesOf_tokens rest
  | .chain e op t => by
    simp [Expression.tokens, Expression.expr, Expr.leaves, Token.additive, e.leavesOf_tokens,
      t.leavesOf_tokens]

theorem Term.leavesOf_tokens (rest : List Token) : ∀ t : Term,
    leavesOf (t.tokens ++ rest) = t.expr.leaves ++ leavesOf rest
  | .single f => f.leavesOf_tokens rest
  | .chain t op f => by
    simp [Term.tokens, Term.expr, Expr.leaves, Token.multiplicative, t.leavesOf_tokens,
      f.leavesOf_tokens]

theorem Factor.leavesOf_tokens (rest : List Token) : ∀ f : Factor,
    leavesOf (f.tokens ++ rest) = f.expr.leaves ++ leavesOf rest
  | .var x => by simp [Factor.tokens, Factor.expr, Expr.leaves, leavesOf]
  | .number digits => by simp [Factor.tokens, Factor.expr, Expr.leaves, leavesOf]
  | .parens e => by simp [Factor.tokens, Factor.expr, e.leavesOf_tokens]
  | .signed sign t => by
    cases sign <;> simp [Factor.tokens, Factor.expr, Expr.withSign, Expr.leaves, Token.additive,
      t.leavesOf_tokens]

end

theorem Condition.leavesOf_tokens (rest : List Token) (c : Condition) :
    leavesOf (c.tokens ++ rest) = c.leaves ++ leavesOf rest := by
  simp [Condition.tokens, Condition.leaves, Token.relational, Expression.leavesOf_tokens]

mutual

theorem Statement.leavesOf_tokens : ∀ (s : Statement) (rest : List Token),
    leavesOf (s.tokens ++ rest) = s.leaves ++ leavesOf rest
  | .assign x e, rest => by
    simp [Statement.tokens, Statement.leaves, leavesOf, e.leavesOf_tokens]
  | .ifThen c s, rest => by
    simp [Statement.tokens, Statement.leaves, c.leavesOf_tokens, s.leavesOf_tokens]
  | .ifElse c s t, rest => by
    simp [Statement.tokens, Statement.leaves, c.leavesOf_tokens, s.leavesOf_tokens,
      t.leavesOf_tokens]
  | .whileDo c s, rest => by
    simp [Statement.tokens, Statement.leaves, c.leavesOf_tokens, s.leavesOf_tokens]
  | .print e, rest => by simp [Statement.tokens, Statement.leaves, e.leavesOf_tokens]
  | .printText literal, rest => by simp [Statement.tokens, Statement.leaves]
  | .block b, rest => by simp [Statement.tokens, Statement.leaves, b.leavesOf_tokens]
  | .declare x, rest => by simp [Statement.tokens, Statement.leaves, leavesOf]
  | .skip, rest => rfl

theorem Sequence.leavesOf_tokens : ∀ (b : Sequence) (rest : List Token),
    leavesOf (b.tokens ++ rest) = b.leaves ++ leavesOf rest
  | .last s, rest => s.leavesOf_tokens rest
  | .more s b, rest => by
    simp [Sequence.tokens, Sequence.leaves, s.leavesOf_tokens, b.leavesOf_tokens]

end

theorem declarations_of_scan {declared names : List String} {tokens : List Token}
    (h : scan declared tokens = some names) :
    names = declared ++ (declarations Token.kind tokens).map Token.text := by
  fun_induction scan declared tokens with
  | case1 declared => simpa [declarations] using h.symm
  | case2 declared x rest hx ih => rw [declarations_cons (by simp), ih h]
  | case3 declared x rest hx => cases h
  | case4 declared word x rest hx => cases h
  | case5 declared word x rest hx ih =>
    rw [ih h, declarations, if_pos ⟨rfl, rfl⟩, declarations_cons (by simp)]
    simp
  | case6 declared t rest ht ht' ih =>
    rw [ih h]
    cases rest with
    | nil => rfl
    | cons y rest =>
      obtain ⟨kind, word⟩ := t
      obtain ⟨kind', x⟩ := y
      rw [declarations, if_neg]
      rintro ⟨rfl, rfl⟩
      exact ht' word x rest rfl rfl

/-! ## Numbers in the code of a tree -/

def Value.immediate? (names : List String) : Value → Option Immediate
  | number digits => some (.constant digits)
  | var x => (slot? names x).map fun slot => .offset (frameOffset slot)
  | _ => none

section Code

variable {declared literals names : List String} {k : Nat} {i : Immediate}

theorem Value.numbersIn_load? {v : Value} {r : Register} {load : List Instruction}
    (h : v.load? declared literals r = some load) (hp : declared <+: names) :
    numbersIn load = (v.immediate? names).toList := by
  cases v with
  | number digits =>
    cases h
    rfl
  | var x =>
    obtain ⟨slot, hslot, rfl⟩ := Option.map_eq_some_iff.mp h
    have hx : x ∈ declared := isSome_slot?.mp (by rw [hslot]; rfl)
    rw [slot?_of_extended hp hx] at hslot
    rw [Value.immediate?, hslot]
    rfl
  | text literal =>
    obtain ⟨label, -, rfl⟩ := Option.map_eq_some_iff.mp h
    rfl
  | temporary =>
    cases h
    rfl

theorem Value.mem_operand? {v : Value} {x : List Instruction × Register}
    (h : v.operand? declared literals k = some x) (hp : declared <+: names) :
    i ∈ numbersIn x.1 ↔ v.immediate? names = some i := by
  rw [numbersIn_load? (exists_of_operand? h).2 hp, Option.mem_toList]

theorem Value.mem_operands? {left right : Value} {x : List Instruction × Register × Register}
    (h : Value.operands? declared literals k left right = some x) (hp : declared <+: names) :
    i ∈ numbersIn x.1 ↔ left.immediate? names = some i ∨ right.immediate? names = some i := by
  obtain ⟨low, -, ⟨hs, -, hload⟩ | ⟨high, -, ⟨-, rfl, -, hload⟩ | ⟨-, -, first, second, hfirst,
    hsecond, hx⟩⟩⟩ := Value.operands?_inv h
  · have hsame : right = left := by
      cases left <;> cases right <;> simp_all [Value.shares]
    rw [numbersIn_load? hload hp, Option.mem_toList, hsame, or_self]
  · rw [numbersIn_load? hload hp, Option.mem_toList]
    simp [Value.immediate?]
  · rw [hx, numbersIn_append, List.mem_append, numbersIn_load? hfirst hp,
      numbersIn_load? hsecond hp, Option.mem_toList, Option.mem_toList]

theorem Expr.mem_pair {e f : Expr} {left right : List Instruction}
    {x : List Instruction × Register × Register}
    (he : (i ∈ numbersIn left ∨ e.value.immediate? names = some i) ↔
      ∃ v ∈ e.leaves, v.immediate? names = some i)
    (hf : (i ∈ numbersIn right ∨ f.value.immediate? names = some i) ↔
      ∃ v ∈ f.leaves, v.immediate? names = some i)
    (hx : Value.operands? declared [] k e.value f.value = some x) (hp : declared <+: names) :
    i ∈ numbersIn (left ++ right ++ x.1) ↔
      ∃ v ∈ e.leaves ++ f.leaves, v.immediate? names = some i := by
  simp only [List.mem_append, or_and_right, exists_or]
  rw [← he, ← hf, numbersIn_append, numbersIn_append, List.mem_append, List.mem_append,
    Value.mem_operands? hx hp, or_or_or_comm]

/-- Every leaf is loaded by the code of its expression, or left to the user of the code. -/
theorem Expr.mem_code {e : Expr} {code : List Instruction} (h : e.code declared k = some code)
    (hp : declared <+: names) :
    (i ∈ numbersIn code ∨ e.value.immediate? names = some i) ↔
      ∃ v ∈ e.leaves, v.immediate? names = some i := by
  induction e generalizing k code with
  | number | var =>
    cases h
    simp [numbersIn, Expr.value, Expr.leaves]
  | negate e ih =>
    rw [code_negate] at h
    obtain ⟨first, hfirst, h⟩ := Option.bind_eq_some_iff.mp h
    obtain ⟨x, hx, h⟩ := Option.bind_eq_some_iff.mp h
    obtain ⟨target, -, h⟩ := Option.bind_eq_some_iff.mp h
    cases h
    have hlast : numbersIn [.negate target x.2] = [] := rfl
    rw [Expr.leaves, ← ih hfirst, ← Value.mem_operand? hx hp, numbersIn_append, hlast,
      List.append_nil, numbersIn_append, List.mem_append]
    simp [Expr.value, Value.immediate?]
  | binary op l r ihl ihr =>
    rw [code_binary] at h
    obtain ⟨left, hleft, h⟩ := Option.bind_eq_some_iff.mp h
    obtain ⟨right, hright, h⟩ := Option.bind_eq_some_iff.mp h
    obtain ⟨x, hx, h⟩ := Option.bind_eq_some_iff.mp h
    obtain ⟨target, -, h⟩ := Option.bind_eq_some_iff.mp h
    cases h
    have hlast : numbersIn [.arithmetic op target x.2.1 x.2.2] = [] := rfl
    rw [Expr.leaves, ← Expr.mem_pair (ihl hleft) (ihr hright) hx hp, numbersIn_append, hlast,
      List.append_nil]
    simp [Expr.value, Value.immediate?]

theorem Expr.mem_use {e : Expr} {code : List Instruction} {y : List Instruction × Register}
    (hc : e.code declared k = some code) (hy : e.value.operand? declared [] k = some y)
    (hp : declared <+: names) :
    i ∈ numbersIn (code ++ y.1) ↔ ∃ v ∈ e.leaves, v.immediate? names = some i := by
  rw [numbersIn_append, List.mem_append, Value.mem_operand? hy hp, Expr.mem_code hc hp]

theorem Condition.mem_code {c : Condition} {lines : List Line} (h : c.code declared k = some lines)
    (hp : declared <+: names) :
    i ∈ immediates lines ↔ ∃ v ∈ c.leaves, v.immediate? names = some i := by
  rw [Condition.code_eq] at h
  obtain ⟨left, hleft, h⟩ := Option.bind_eq_some_iff.mp h
  obtain ⟨right, hright, h⟩ := Option.bind_eq_some_iff.mp h
  obtain ⟨x, hx, h⟩ := Option.bind_eq_some_iff.mp h
  cases h
  have hlast : numbersIn [.compare x.2.1 x.2.2, .branchUnless c.op (.endOf k)] = [] := rfl
  rw [Condition.leaves, ← Expr.mem_pair (Expr.mem_code hleft hp) (Expr.mem_code hright hp) hx hp,
    immediates_instructions, numbersIn_append, hlast, List.append_nil]

end Code

section Tree

variable {literals names : List String} {i : Immediate}

mutual

/-- The numbers in the code of a statement are those of its leaves. -/
theorem Statement.mem_code : ∀ (s : Statement) {p : Progress} {x : List Line × Progress},
    s.code literals p = some x → x.2.declared <+: names →
    (i ∈ immediates x.1 ↔ ∃ v ∈ s.leaves, v.immediate? names = some i)
  | .assign y e, p, x, h, hp => by
    obtain ⟨code, slot, z, hcode, hslot, hz, rfl⟩ := Statement.parts_of_assign h
    have hy : y ∈ p.declared := isSome_slot?.mp (by rw [hslot]; rfl)
    have hlast : numbersIn [.storeVariable z.2 slot] = [.offset (frameOffset slot)] := rfl
    rw [slot?_of_extended hp hy] at hslot
    rw [immediates_instructions, numbersIn_append, List.mem_append, Expr.mem_use hcode hz hp, hlast]
    simp [Statement.leaves, Value.immediate?, hslot, or_comm, eq_comm]
  | .print e, p, x, h, hp => by
    obtain ⟨code, y, hcode, hy, rfl⟩ := Statement.parts_of_print h
    have hload : numbersIn (code ++ .selectFormat .integerFormat :: y.1) =
        numbersIn (code ++ y.1) := by
      rw [numbersIn_append, numbersIn_append]
      rfl
    have hcall : numbersIn (printCall y.2) = [] := rfl
    rw [immediates_instructions, numbersIn_append, hload, hcall, List.append_nil,
      Expr.mem_use hcode hy hp, Statement.leaves]
  | .printText literal, p, x, h, hp => by
    obtain ⟨r, label, -, -, rfl⟩ := Statement.parts_of_printText h
    simp [Statement.leaves, numbersIn, Instruction.immediate?, printCall]
  | .declare y, p, x, h, hp => by
    obtain ⟨-, rfl⟩ := Statement.parts_of_declare h
    simp [Statement.leaves, immediates, Line.immediate?, Instruction.immediate?]
  | .skip, p, x, h, hp => by
    rw [Statement.code] at h
    cases h
    simp [Statement.leaves, immediates]
  | .block b, p, x, h, hp => b.mem_code h hp
  | .ifThen c s, p, x, h, hp => by
    obtain ⟨condition, y, hc, hy, rfl⟩ := Statement.parts_of_ifThen h
    have hknown : p.declared <+: names := (prefix_declared hy).trans hp
    simp only [immediates_append, immediates_branch, immediates_label, immediates_nil,
      List.append_nil, Statement.leaves, List.mem_append, or_and_right, exists_or,
      Condition.mem_code hc hknown, s.mem_code hy hp]
  | .ifElse c s t, p, x, h, hp => by
    obtain ⟨condition, y, z, hc, hy, hz, rfl⟩ := Statement.parts_of_ifElse h
    have hbody : y.2.declared <+: names := (prefix_declared hz).trans hp
    have hknown : p.declared <+: names := (prefix_declared hy).trans hbody
    simp only [immediates_append, immediates_branch, immediates_label, immediates_nil,
      List.append_nil, Statement.leaves, List.mem_append, or_and_right, exists_or,
      Condition.mem_code hc hknown, s.mem_code hy hbody, t.mem_code hz hp]
  | .whileDo c s, p, x, h, hp => by
    obtain ⟨condition, y, hc, hy, rfl⟩ := Statement.parts_of_whileDo h
    have hknown : p.declared <+: names := (prefix_declared hy).trans hp
    simp only [immediates_append, immediates_branch, immediates_label, immediates_nil,
      List.append_nil, Statement.leaves, List.mem_append, or_and_right, exists_or,
      Condition.mem_code hc hknown, s.mem_code hy hp]

theorem Sequence.mem_code : ∀ (b : Sequence) {p : Progress} {x : List Line × Progress},
    b.code literals p = some x → x.2.declared <+: names →
    (i ∈ immediates x.1 ↔ ∃ v ∈ b.leaves, v.immediate? names = some i)
  | .last s, p, x, h, hp => s.mem_code h hp
  | .more s b, p, x, h, hp => by
    obtain ⟨y, z, hy, hz, rfl⟩ := Sequence.parts_of_more h
    have hextended : y.2.declared <+: z.2.declared := ⟨_, (b.spans hz).declared.symm⟩
    simp only [immediates_append, Sequence.leaves, List.mem_append, or_and_right, exists_or,
      s.mem_code hy (hextended.trans hp), b.mem_code hz hp]

end

end Tree

/-! ## Programs -/

def leavesIn (source : String) : List Value :=
  leavesOf (Lexer.tokens (.ofText source))

def namesIn (source : String) : List String :=
  (declarations Token.kind (Lexer.tokens (.ofText source))).map Token.text

theorem mem_of_scan {declared names : List String} {tokens : List Token} {x : String}
    (h : scan declared tokens = some names) (hx : .var x ∈ leavesOf tokens) : x ∈ names := by
  fun_induction scan declared tokens with
  | case1 declared => cases hx
  | case2 declared y rest hy ih =>
    rw [leavesOf, List.mem_cons] at hx
    rcases hx with hx | hx
    · cases hx
      rw [declarations_of_scan h]
      exact List.mem_append_left _ hy
    · exact ih h hx
  | case3 declared y rest hy => cases h
  | case4 declared word y rest hy => cases h
  | case5 declared word y rest hy ih => exact ih h (by rwa [leavesOf] at hx)
  | case6 declared t rest ht ht' ih =>
    refine ih h ?_
    rw [leavesOf.eq_def] at hx
    split at hx <;> simp_all

theorem exists_token_of_leaf {tokens : List Token} {digits : String}
    (h : .number digits ∈ leavesOf tokens) : ⟨.number, digits⟩ ∈ tokens := by
  fun_induction leavesOf tokens with
  | case1 => cases h
  | case2 word x rest ih => exact .tail _ (.tail _ (ih h))
  | case3 x rest ih => exact .tail _ (ih (by simpa using h))
  | case4 digits' rest ih =>
    rw [List.mem_cons] at h
    rcases h with h | h
    · cases h
      exact List.mem_cons_self
    · exact .tail _ (ih h)
  | case5 t rest h1 h2 h3 ih => exact .tail _ (ih h)

section Compiled

variable {source : String} {a : Assembly} (h : compile Assembly (.ofText source) = .ok a)
include h

/-- The names and the leaves of a program that compiles are those of its tree. -/
theorem exists_tree_of_compile : ∃ (tree : Sequence) (code : List Line) (progress : Progress),
    tree.code tree.distinctLiterals {} = some (code, progress) ∧
    a.text.toList = openingText ++ code ++ closingText ∧
    leavesIn source = tree.leaves ∧
    scan [] (Lexer.tokens (.ofText source)) = some progress.declared := by
  obtain ⟨tree, hparses⟩ := exists_parsesText h
  obtain ⟨final, hf, htokens⟩ := hparses.tokens_eq
  obtain ⟨body, last, hl, hlast, ht⟩ := hparses
  obtain ⟨code, progress, hcode, htext, -⟩ := exists_code_of_compile h hl hlast ht
  refine ⟨tree, code, progress, hcode, htext, ?_, ?_⟩
  · rw [leavesIn, htokens, tree.leavesOf_tokens, leavesOf_cons _ (by simp [hf])]
    exact List.append_nil _
  · have hfits := tree.fits_of_code {} (by rw [hcode]; rfl)
    have hliterals : ∀ literal ∈ tree.literals, literal ∈ tree.distinctLiterals :=
      fun _ => List.mem_eraseDups.mpr
    have hscan := tree.scan_tokens {} [final] hfits hliterals
    rw [htokens, hscan, hcode, Option.bind_some, scan_cons _ (by simp [hf]) (by simp [hf])]
    rfl

theorem scan_of_compile : scan [] (Lexer.tokens (.ofText source)) = some (namesIn source) := by
  obtain ⟨_, _, progress, -, -, -, hscan⟩ := exists_tree_of_compile h
  rw [hscan, declarations_of_scan hscan]
  rfl

/-- The numbers in the text are those of the leaves. -/
theorem mem_immediates_of_compile {i : Immediate} :
    i ∈ immediates a.text.toList ↔
      ∃ v ∈ leavesIn source, v.immediate? (namesIn source) = some i := by
  obtain ⟨tree, code, progress, hcode, htext, hleaves, hscan⟩ := exists_tree_of_compile h
  have hnames := hscan.symm.trans (scan_of_compile h)
  have hopening : immediates openingText = [] := rfl
  have hclosing : immediates closingText = [] := rfl
  rw [htext, immediates_append, immediates_append, hopening, hclosing, List.append_nil,
    List.nil_append, hleaves, ← Option.some.inj hnames]
  exact tree.mem_code hcode (List.prefix_refl _)

/-- A constant in the text is a number of the source, as it is spelt. -/
theorem number_of_mem_immediates {digits : String}
    (hi : .constant digits ∈ immediates a.text.toList) : .number digits ∈ leavesIn source := by
  obtain ⟨v, hv, hvi⟩ := (mem_immediates_of_compile h).mp hi
  cases v with
  | number digits' =>
    cases hvi
    exact hv
  | var x =>
    obtain ⟨slot, -, hslot⟩ := Option.map_eq_some_iff.mp hvi
    cases hslot
  | text | temporary => cases hvi

/-- An offset in the text is that of a variable of the source. -/
theorem var_of_mem_immediates {distance : Int}
    (hi : .offset distance ∈ immediates a.text.toList) :
    ∃ x slot, .var x ∈ leavesIn source ∧ slot? (namesIn source) x = some slot ∧
      distance = frameOffset slot := by
  obtain ⟨v, hv, hvi⟩ := (mem_immediates_of_compile h).mp hi
  cases v with
  | var x =>
    obtain ⟨slot, hslot, hdistance⟩ := Option.map_eq_some_iff.mp hvi
    cases hdistance
    exact ⟨x, slot, hv, hslot, rfl⟩
  | number digits => cases hvi
  | text | temporary => cases hvi

theorem mem_namesIn {x : String} (hx : .var x ∈ leavesIn source) : x ∈ namesIn source :=
  mem_of_scan (scan_of_compile h) hx

end Compiled

/-- The numbers of a source are numerals and fit into a word. -/
theorem numeral_of_mem_leavesIn {source digits : String} (h : .number digits ∈ leavesIn source) :
    IsNumeral digits.toList ∧ decimalValue digits.toList < 2 ^ 32 := by
  obtain ⟨l, hl, htoken⟩ := List.mem_map.mp (exists_token_of_leaf h)
  have hyielded : Yielded (.ofText source) l := by
    obtain ⟨x, hx, hok⟩ := List.mem_filterMap.mp hl
    cases x with
    | error d => cases hok
    | ok x =>
      cases hok
      exact hx
  have hkind : l.kind = .number := congrArg Token.kind htoken
  have htext : l.text = digits := congrArg Token.text htoken
  rcases inClass_of_yielded hyielded with hend | hclass
  · rw [hkind] at hend
    cases hend
  · rw [htoken] at hclass
    exact hclass

/-- The slots of a program count its declarations from one. -/
theorem mem_take_iff_slot? {names : List String} {x : String} {slot : Nat}
    (h : slot? names x = some slot) (n : Nat) : 1 ≤ slot ∧ (x ∈ names.take n ↔ slot ≤ n) := by
  have hx : x ∈ names := isSome_slot?.mp (by rw [h]; rfl)
  obtain ⟨i, hi, rfl⟩ := Option.map_eq_some_iff.mp h
  have hindex : names.idxOf x = i := by rw [List.idxOf_eq_getD_idxOf?, hi]; rfl
  rw [List.mem_take_iff_idxOf_lt hx, hindex]
  exact ⟨by omega, by omega⟩

/-- The text of a program that compiles holds the numbers of its source as they are spelt, and for
each name that is used the offset of the slot that its declaration has given it. The constants are
in range and the offsets lead below the frame pointer. All of them can be put into their
instructions exactly if no number has a needless zero in front, and only the first 1023 names that
are declared are used. -/
theorem encodable_iff {source : String} {a : Assembly}
    (h : compile Assembly (.ofText source) = .ok a) :
    (∀ i, i ∈ immediates a.text.toList ↔
      ∃ v ∈ leavesIn source, v.immediate? (namesIn source) = some i) ∧
    (∀ digits, .constant digits ∈ immediates a.text.toList →
      IsNumeral digits.toList ∧ decimalValue digits.toList < 2 ^ 32) ∧
    (∀ distance, .offset distance ∈ immediates a.text.toList → distance ≤ -4) ∧
    ((∀ i ∈ immediates a.text.toList, i.Encodable) ↔
      (∀ digits, .number digits ∈ leavesIn source → IsCanonical digits) ∧
        ∀ x, .var x ∈ leavesIn source → x ∈ (namesIn source).take 1023) := by
  have hmem (i : Immediate) := mem_immediates_of_compile h (i := i)
  refine ⟨hmem, ?_, ?_, ?_, ?_⟩
  · intro digits hi
    exact numeral_of_mem_leavesIn (number_of_mem_immediates h hi)
  · intro distance hi
    obtain ⟨x, slot, -, hslot, rfl⟩ := var_of_mem_immediates h hi
    have hpos := (mem_take_iff_slot? hslot 0).1
    rw [frameOffset]
    omega
  · intro hall
    constructor
    · intro digits hdigits
      exact (hall (.constant digits) ((hmem _).mpr ⟨_, hdigits, rfl⟩)).2.1
    · intro x hx
      obtain ⟨slot, hslot⟩ := Option.isSome_iff_exists.mp (isSome_slot?.mpr (mem_namesIn h hx))
      have hi : .offset (frameOffset slot) ∈ immediates a.text.toList :=
        (hmem _).mpr ⟨.var x, hx, by rw [Value.immediate?, hslot]; rfl⟩
      have hrange := (hall _ hi).1
      rw [frameOffset] at hrange
      exact (mem_take_iff_slot? hslot 1023).2.mpr (by omega)
  · rintro ⟨hcanonical, hfirst⟩ i hi
    cases i with
    | constant digits =>
      have hdigits := number_of_mem_immediates h hi
      obtain ⟨hnumeral, hvalue⟩ := numeral_of_mem_leavesIn hdigits
      exact ⟨hnumeral, hcanonical digits hdigits, hvalue⟩
    | offset distance =>
      obtain ⟨x, slot, hx, hslot, rfl⟩ := var_of_mem_immediates h hi
      obtain ⟨hpos, hle⟩ := mem_take_iff_slot? hslot 1023
      have hslots := hle.mp (hfirst x hx)
      rw [Immediate.Encodable, frameOffset]
      omega

end AnyDistance

theorem encodable_of_countdown : ∃ a, compile Assembly (.ofText countdown) = .ok a ∧
    ∀ i ∈ immediates a.text.toList, i.Encodable := by
  obtain ⟨a, h⟩ := exists_compile_of_isOk countdown (by decide +kernel)
  have hleaves : leavesIn countdown = [.var "x", .number "7", .var "x", .number "5", .var "x",
      .var "x", .number "2", .var "x"] := by decide +kernel
  have hnames : namesIn countdown = ["x"] := by decide +kernel
  refine ⟨a, h, (encodable_iff h).2.2.2.mpr ⟨?_, ?_⟩⟩
  · rw [hleaves]
    simp [IsCanonical]
  · rw [hleaves, hnames]
    simp

def zeroInFront : String :=
  "print 010"

/-- The number is ten for the lexer and eight for an assembler. -/
theorem not_encodable_of_zeroInFront : ∃ a, compile Assembly (.ofText zeroInFront) = .ok a ∧
    "\tldr r4, =010" ∈ a.text.toList.map Line.render ∧
    ∃ i ∈ immediates a.text.toList, ¬ i.Encodable := by
  have hcompile : (compile Assembly (.ofText zeroInFront)).toOption.any (fun a =>
      (a.text.toList.map Line.render).contains "\tldr r4, =010" &&
        (immediates a.text.toList).contains (.constant "010")) = true := by decide +kernel
  cases hc : compile Assembly (.ofText zeroInFront) with
  | error d =>
    rw [hc] at hcompile
    cases hcompile
  | ok a =>
    rw [hc, Except.toOption, Option.any_some, Bool.and_eq_true, List.contains_iff_mem,
      List.contains_iff_mem] at hcompile
    obtain ⟨hline, hi⟩ := hcompile
    refine ⟨a, rfl, hline, _, hi, fun hencodable => ?_⟩
    have hzero := hencodable.2.1 (by decide)
    exact absurd hzero (by decide)

end OnePass
