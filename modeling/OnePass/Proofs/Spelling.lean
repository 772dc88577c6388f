import OnePass.Proofs.Interpreter
import OnePass.Proofs.Lexing

/-! # How lexemes are written

The lexical classes, said without the automaton: words, numerals, quoted texts and the reserved
texts, with gaps of blanks and complete comments around them. The automaton reads a text of a class
into a mode in which a lexeme of that class can end, and a text that it reads belongs to the class
of the mode it is in. A lexeme is maximal exactly if the character behind it does not extend its
mode.
-/
namespace OnePass

/-- What may stand between lexemes: blanks and complete comments. -/
inductive Gap : List Char → Prop
  | empty : Gap []
  | blank {c : Char} {gap : List Char} : c ∈ [' ', '\t', '\r', '\n'] → Gap gap → Gap (c :: gap)
  | comment {body gap : List Char} :
    '\x7d' ∉ body → Gap gap → Gap ('\x7b' :: (body ++ '\x7d' :: gap))

def IsWord : List Char → Prop
  | [] => False
  | c :: cs => Text.isLetter c = true ∧
      ∀ d ∈ cs, Text.isLetter d = true ∨ d.isDigit = true ∨ d = '_'

instance : DecidablePred IsWord
  | [] => .isFalse id
  | c :: cs => @instDecidableAnd (Text.isLetter c = true) _ _ (List.decidableBAll _ cs)

def IsNumeral (text : List Char) : Prop :=
  text ≠ [] ∧ ∀ c ∈ text, c.isDigit = true

instance (text : List Char) : Decidable (IsNumeral text) :=
  @instDecidableAnd (text ≠ []) _ _ (List.decidableBAll _ text)

theorem isDigit_of_mem_toString {n : Nat} {c : Char} (h : c ∈ (toString n).toList) :
    c.isDigit = true := by
  rw [Nat.toString_eq_repr, Nat.toList_repr] at h
  exact Nat.isDigit_of_mem_toDigits (by omega) (by omega) h

/-- What may stand between the quotes of a string: a backslash takes the next character with it. -/
inductive StringBody : List Char → Prop
  | empty : StringBody []
  | plain {c : Char} {body : List Char} :
    c ≠ '"' → c ≠ '\\' → StringBody body → StringBody (c :: body)
  | escape {c : Char} {body : List Char} : StringBody body → StringBody ('\\' :: c :: body)

def IsQuoted (text : List Char) : Prop :=
  ∃ body, StringBody body ∧ text = '"' :: (body ++ ['"'])

def Token.InClass (t : Token) : Prop :=
  match t.kind with
  | .identifier => IsWord t.text.toList ∧ ∀ kind, (t.text, kind) ∉ reservedTexts
  | .number => IsNumeral t.text.toList ∧ decimalValue t.text.toList < UInt32.size
  | .stringConst => IsQuoted t.text.toList
  | kind => (t.text, kind) ∈ reservedTexts

/-- The text has the shape of a lexeme, whatever its kind and its value. -/
inductive Shaped (text : List Char) : Prop
  | word : IsWord text → Shaped text
  | numeral : IsNumeral text → Shaped text
  | quoted : IsQuoted text → Shaped text
  | fixed {kind : Terminal} : (String.ofList text, kind) ∈ reservedTexts → Shaped text

/-- No lexeme begins with the text and the character behind it. -/
def Maximal (text rest : List Char) : Prop :=
  ∀ c ∈ rest.head?, ∀ more, ¬ Shaped (text ++ c :: more)

/-! ## The classes -/

theorem StringBody.append {xs ys : List Char} (hx : StringBody xs) (hy : StringBody ys) :
    StringBody (xs ++ ys) := by
  induction hx with
  | empty => exact hy
  | plain hquote hslash _ ih => exact .plain hquote hslash ih
  | escape _ ih => exact .escape ih

theorem isWord_append {text : List Char} {c : Char} (h : IsWord text)
    (hc : Lexer.isWordChar c = true) : IsWord (text ++ [c]) := by
  cases text with
  | nil => exact h.elim
  | cons d text =>
    refine ⟨h.1, ?_⟩
    intro e he
    rcases List.mem_append.mp he with he | he
    · exact h.2 e he
    · obtain rfl : e = c := by simpa using he
      simp only [Lexer.isWordChar, Bool.or_eq_true, decide_eq_true_eq] at hc
      tauto

theorem isNumeral_append {text : List Char} {c : Char} (h : IsNumeral text)
    (hc : c.isDigit = true) : IsNumeral (text ++ [c]) := by
  refine ⟨by simp, ?_⟩
  intro d hd
  rcases List.mem_append.mp hd with hd | hd
  · exact h.2 d hd
  · obtain rfl : d = c := by simpa using hd
    exact hc

theorem isDigit_eq_false_of_isLetter {c : Char} (h : Text.isLetter c = true) :
    c.isDigit = false := by
  by_contra hd
  have hdigit : 48 ≤ c.toNat ∧ c.toNat ≤ 57 := by
    simpa [Char.isDigit, UInt32.le_iff_toNat_le] using hd
  have hascii : c.toNat < 128 := by omega
  rw [Text.isLetter, if_pos hascii] at h
  rcases Bool.or_eq_true_iff.mp h with hupper | hlower
  · have hA : 'A'.val ≤ c.val := (of_decide_eq_true hupper).1
    have hcode : 65 ≤ c.toNat := UInt32.le_iff_toNat_le.mp hA
    omega
  · have ha : 'a'.val ≤ c.val := of_decide_eq_true (Bool.and_eq_true_iff.mp hlower).1
    have hcode : 97 ≤ c.toNat := UInt32.le_iff_toNat_le.mp ha
    omega

theorem isBlank_iff {c : Char} : Lexer.isBlank c = true ↔ c ∈ [' ', '\t', '\r', '\n'] := by
  simp [Lexer.isBlank, or_assoc]

theorem isBlank_eq_false {c : Char} (h : Text.isLetter c = true ∨ c.isDigit = true) :
    Lexer.isBlank c = false := by
  by_contra hb
  have hmem : c ∈ [' ', '\t', '\r', '\n'] := isBlank_iff.mp (by simpa using hb)
  simp only [List.mem_cons, List.not_mem_nil, or_false] at hmem
  rcases hmem with rfl | rfl | rfl | rfl <;> exact absurd h (by decide)

theorem reserved?_of_mem {text : String} {kind : Terminal} (h : (text, kind) ∈ reservedTexts) :
    reserved? text = some kind := by
  have hall : ∀ entry ∈ reservedTexts, reserved? entry.1 = some entry.2 := by decide
  exact hall _ h

theorem not_mem_reservedTexts {text : String} (h : reserved? text = none) (kind : Terminal) :
    (text, kind) ∉ reservedTexts := by
  intro hmem
  rw [reserved?_of_mem hmem] at h
  cases h

/-! ## The value of a numeral -/

/-- Cutting off at every digit cuts off the value. -/
theorem foldl_min_wordLimit (digits : List Char) (n : Nat) :
    digits.foldl (fun n c => min (10 * n + (c.toNat - '0'.toNat)) Lexer.wordLimit)
        (min n Lexer.wordLimit) =
      min (digits.foldl (fun n c => 10 * n + (c.toNat - '0'.toNat)) n) Lexer.wordLimit := by
  induction digits generalizing n with
  | nil => rfl
  | cons c digits ih =>
    have hstep : min (10 * min n Lexer.wordLimit + (c.toNat - '0'.toNat)) Lexer.wordLimit =
        min (10 * n + (c.toNat - '0'.toNat)) Lexer.wordLimit := by omega
    rw [List.foldl_cons, List.foldl_cons, hstep]
    exact ih _

theorem fitsWord_iff (digits : List Char) :
    Lexer.fitsWord digits = true ↔ decimalValue digits < UInt32.size := by
  have hvalue : Lexer.wordValue digits = min (decimalValue digits) Lexer.wordLimit :=
    foldl_min_wordLimit digits 0
  have hlimit : Lexer.wordLimit = UInt32.size := rfl
  simp only [Lexer.fitsWord, hvalue, decide_eq_true_eq, hlimit]
  omega

namespace Lexer

/-! ## What the automaton reads -/

namespace Mode

def extend (mode : Mode) (c : Char) : Option Mode :=
  if mode = .start then none else mode.next c

def run (mode : Mode) (text : List Char) : Option Mode :=
  text.foldlM extend mode

def reading : List Char → Option Mode
  | [] => none
  | c :: cs => (enter c).bind fun mode => mode.run cs

theorem ne_nil_of_reading {text : List Char} {mode : Mode} (h : reading text = some mode) :
    text ≠ [] := by
  rintro rfl
  cases h

theorem ne_start_of_terminal? {mode : Mode} {kind : Terminal} (h : mode.terminal? = some kind) :
    mode ≠ .start := by
  rintro rfl
  cases h

theorem extend_of_ne {mode : Mode} {c : Char} (h : mode ≠ .start) :
    mode.extend c = mode.next c := if_neg h

@[simp] theorem run_nil (mode : Mode) : mode.run [] = some mode := rfl

theorem run_cons (mode : Mode) (c : Char) (cs : List Char) :
    mode.run (c :: cs) = (mode.extend c).bind fun mode' => mode'.run cs := by
  simp [run, List.foldlM_cons, Option.bind_eq_bind]

theorem run_append (mode : Mode) (xs ys : List Char) :
    mode.run (xs ++ ys) = (mode.run xs).bind fun mode' => mode'.run ys := by
  simp [run, List.foldlM_append, Option.bind_eq_bind]

theorem reading_append {text : List Char} (h : text ≠ []) (more : List Char) :
    reading (text ++ more) = (reading text).bind fun mode => mode.run more := by
  cases text with
  | nil => exact absurd rfl h
  | cons c cs => simp [reading, run_append, Option.bind_assoc]

/-- A mode that every character of the text keeps is the mode behind it. -/
theorem run_of_keeps {mode : Mode} {text : List Char} (hm : mode ≠ .start)
    (h : ∀ c ∈ text, mode.next c = some mode) : mode.run text = some mode := by
  induction text with
  | nil => rfl
  | cons c cs ih =>
    rw [run_cons, extend_of_ne hm, h c (by simp), Option.bind_some]
    exact ih fun d hd => h d (by simp [hd])

def Describes : Mode → List Char → Prop
  | .start, text => Gap text
  | .word, text => IsWord text
  | .digits, text => IsNumeral text
  | .colon, text => text = [':']
  | .less, text => text = ['<']
  | .greater, text => text = ['>']
  | .comment, text => ∃ body, '\x7d' ∉ body ∧ text = '\x7b' :: body
  | .quoted, text => ∃ body, StringBody body ∧ text = '"' :: body
  | .escaped, text => ∃ body, StringBody body ∧ text = '"' :: (body ++ ['\\'])
  | .complete kind, text =>
    kind = .stringConst ∧ IsQuoted text ∨ (String.ofList text, kind) ∈ reservedTexts

theorem enter_describes {c : Char} {mode : Mode} (h : enter c = some mode) :
    mode.Describes [c] := by
  cases mode
  case complete kind => exact Or.inr (mem_reservedTexts (enter_complete h))
  all_goals
    simp only [enter, ite_eq_iff, Option.some.injEq, reduceCtorEq, and_false, false_or, or_false,
      and_true] at h
  case start => exact .blank (isBlank_iff.mp h) .empty
  case word => exact ⟨h.2.2, by simp⟩
  case digits => exact ⟨by simp, by simpa using h.2⟩
  case colon | less | greater => simp only [Describes, h]
  case comment => exact ⟨[], by simp, by simp only [h]⟩
  case quoted => exact ⟨[], .empty, by simp only [h]⟩

/-- A character that extends the text extends what it looks like. -/
theorem extend_describes {mode mode' : Mode} {c : Char} {text : List Char}
    (hd : mode.Describes text) (h : mode.extend c = some mode') :
    mode'.Describes (text ++ [c]) := by
  cases mode with
  | start => cases h
  | complete kind => cases h
  | word =>
    obtain ⟨hc, rfl⟩ : isWordChar c = true ∧ word = mode' := by simpa [extend, next] using h
    exact isWord_append hd hc
  | digits =>
    obtain ⟨hc, rfl⟩ : c.isDigit = true ∧ digits = mode' := by simpa [extend, next] using h
    exact isNumeral_append hd hc
  | colon =>
    obtain ⟨rfl, rfl⟩ : c = '=' ∧ complete .assignOp = mode' := by simpa [extend, next] using h
    obtain rfl : text = [':'] := hd
    exact Or.inr (by decide)
  | less =>
    obtain ⟨hc, rfl⟩ : (c = '=' ∨ c = '>') ∧ complete .relationalOp = mode' := by
      simpa [extend, next] using h
    obtain rfl : text = ['<'] := hd
    rcases hc with rfl | rfl <;> exact Or.inr (by decide)
  | greater =>
    obtain ⟨rfl, rfl⟩ : c = '=' ∧ complete .relationalOp = mode' := by
      simpa [extend, next] using h
    obtain rfl : text = ['>'] := hd
    exact Or.inr (by decide)
  | comment =>
    obtain ⟨body, hbody, rfl⟩ := hd
    by_cases hc : c = '\x7d'
    · obtain rfl : start = mode' := by simpa [extend, next, hc] using h
      subst hc
      exact .comment hbody .empty
    · obtain rfl : comment = mode' := by simpa [extend, next, hc] using h
      exact ⟨body ++ [c], by simpa [hbody] using Ne.symm hc, rfl⟩
  | quoted =>
    obtain ⟨body, hbody, rfl⟩ := hd
    by_cases hslash : c = '\\'
    · obtain rfl : escaped = mode' := by simpa [extend, next, hslash] using h
      exact ⟨body, hbody, by simp [hslash]⟩
    · by_cases hquote : c = '"'
      · obtain rfl : complete .stringConst = mode' := by
          simpa [extend, next, hslash, hquote] using h
        exact Or.inl ⟨rfl, body, hbody, by simp [hquote]⟩
      · obtain rfl : quoted = mode' := by simpa [extend, next, hslash, hquote] using h
        exact ⟨body ++ [c], hbody.append (.plain hquote hslash .empty), rfl⟩
  | escaped =>
    obtain ⟨body, hbody, rfl⟩ := hd
    obtain rfl : quoted = mode' := by simpa [extend, next] using h
    exact ⟨body ++ ['\\', c], hbody.append (.escape .empty), by simp⟩

theorem run_describes {mode mode' : Mode} {text more : List Char} (hd : mode.Describes text)
    (h : mode.run more = some mode') : mode'.Describes (text ++ more) := by
  induction more generalizing mode text with
  | nil =>
    obtain rfl : mode = mode' := by simpa using h
    simpa using hd
  | cons c more ih =>
    rw [run_cons] at h
    obtain ⟨between, hextend, hrun⟩ := Option.bind_eq_some_iff.mp h
    have := ih (extend_describes hd hextend) hrun
    rwa [List.append_assoc] at this

/-- A text that the automaton reads looks as its mode says. -/
theorem describes_of_reading {text : List Char} {mode : Mode} (h : reading text = some mode) :
    mode.Describes text := by
  cases text with
  | nil => cases h
  | cons c cs =>
    obtain ⟨entered, henter, hrun⟩ := Option.bind_eq_some_iff.mp h
    exact run_describes (enter_describes henter) hrun

/-! ## Every class is read -/

theorem reading_word {text : List Char} (h : IsWord text) : reading text = some .word := by
  cases text with
  | nil => exact h.elim
  | cons c cs =>
    have henter : enter c = some .word := by
      simp [enter, isBlank_eq_false (.inl h.1), isDigit_eq_false_of_isLetter h.1, h.1]
    rw [reading, henter, Option.bind_some]
    refine run_of_keeps (by decide) ?_
    intro d hd
    have hword : isWordChar d = true := by
      rcases h.2 d hd with hd | hd | hd <;> simp [isWordChar, hd]
    simp [next, hword]

theorem reading_numeral {text : List Char} (h : IsNumeral text) : reading text = some .digits := by
  cases text with
  | nil => exact absurd rfl h.1
  | cons c cs =>
    have hc : c.isDigit = true := h.2 c (by simp)
    have henter : enter c = some .digits := by simp [enter, isBlank_eq_false (.inr hc), hc]
    rw [reading, henter, Option.bind_some]
    refine run_of_keeps (by decide) ?_
    intro d hd
    simp [next, h.2 d (by simp [hd])]

theorem reading_blank {c : Char} (h : c ∈ [' ', '\t', '\r', '\n']) :
    reading [c] = some .start := by
  simp [reading, enter, isBlank_iff.mpr h]

theorem reading_comment {body : List Char} (h : '\x7d' ∉ body) :
    reading ('\x7b' :: (body ++ ['\x7d'])) = some .start := by
  have hopen : reading ['\x7b'] = some .comment := by decide
  have hbody : run .comment body = some .comment := by
    refine run_of_keeps (by decide) ?_
    intro c hc
    have hne : c ≠ '\x7d' := fun heq => h (heq ▸ hc)
    simp [next, hne]
  have hclose : run .comment ['\x7d'] = some .start := by decide
  rw [← List.singleton_append, reading_append (by simp), hopen, Option.bind_some, run_append, hbody,
    Option.bind_some, hclose]

theorem run_stringBody {body : List Char} (h : StringBody body) :
    run .quoted body = some .quoted := by
  induction h with
  | empty => rfl
  | plain hquote hslash _ ih =>
    rw [run_cons, extend_of_ne (by decide)]
    simpa [next, hquote, hslash] using ih
  | escape _ ih =>
    rw [run_cons, extend_of_ne (by decide)]
    simp only [next, if_true, Option.bind_some]
    rw [run_cons, extend_of_ne (by decide)]
    exact ih

theorem reading_quoted {text : List Char} (h : IsQuoted text) :
    reading text = some (.complete .stringConst) := by
  obtain ⟨body, hbody, rfl⟩ := h
  have hopen : reading ['"'] = some .quoted := by decide
  have hclose : run .quoted ['"'] = some (.complete .stringConst) := by decide
  rw [← List.singleton_append, reading_append (by simp), hopen, Option.bind_some, run_append,
    run_stringBody hbody, Option.bind_some, hclose]

theorem exists_reading_fixed {text : String} {kind : Terminal} (h : (text, kind) ∈ reservedTexts) :
    ∃ mode found, reading text.toList = some mode ∧ mode.terminal? = some found := by
  have hall : ∀ entry ∈ reservedTexts, ((reading entry.1.toList).bind terminal?).isSome := by decide
  obtain ⟨found, hfound⟩ := Option.isSome_iff_exists.mp (hall _ h)
  obtain ⟨mode, hmode, hterminal⟩ := Option.bind_eq_some_iff.mp hfound
  exact ⟨mode, found, hmode, hterminal⟩

/-- A text with the shape of a lexeme can end where the automaton has read it. -/
theorem exists_reading_of_shaped {text : List Char} (h : Shaped text) :
    ∃ mode found, reading text = some mode ∧ mode.terminal? = some found := by
  cases h with
  | word h => exact ⟨_, _, reading_word h, rfl⟩
  | numeral h => exact ⟨_, _, reading_numeral h, rfl⟩
  | quoted h => exact ⟨_, _, reading_quoted h, rfl⟩
  | fixed h => simpa using exists_reading_fixed h

/-- A lexeme is maximal exactly if the character behind it does not extend its mode. -/
theorem maximal_iff {text rest : List Char} {mode : Mode} {kind : Terminal}
    (hr : reading text = some mode) (hk : mode.terminal? = some kind) :
    Maximal text rest ↔ ∀ c ∈ rest.head?, mode.next c = none := by
  have hstart := ne_start_of_terminal? hk
  constructor
  · intro hmaximal c hc
    have hd := describes_of_reading hr
    by_contra hnext
    have hshaped : Shaped (text ++ [c]) := by
      cases mode with
      | word =>
        have hword : isWordChar c = true := by simpa [next] using hnext
        exact .word (isWord_append hd hword)
      | digits =>
        have hdigit : c.isDigit = true := by simpa [next] using hnext
        exact .numeral (isNumeral_append hd hdigit)
      | less =>
        obtain rfl : text = ['<'] := hd
        have hc : c = '=' ∨ c = '>' := by simpa [next, or_iff_not_imp_left] using hnext
        rcases hc with rfl | rfl
        · exact .fixed (show (_, Terminal.relationalOp) ∈ reservedTexts by decide)
        · exact .fixed (show (_, Terminal.relationalOp) ∈ reservedTexts by decide)
      | greater =>
        obtain rfl : text = ['>'] := hd
        obtain rfl : c = '=' := by simpa [next] using hnext
        exact .fixed (show (_, Terminal.relationalOp) ∈ reservedTexts by decide)
      | complete => exact absurd rfl hnext
      | _ => cases hk
    exact hmaximal c hc [] hshaped
  · intro hnext c hc more hshaped
    obtain ⟨mode', found, hread, -⟩ := exists_reading_of_shaped hshaped
    rw [reading_append (ne_nil_of_reading hr), hr, Option.bind_some, run_cons,
      extend_of_ne hstart, hnext c hc] at hread
    cases hread

theorem next_eq_none_of_gap {mode : Mode} {kind : Terminal} {gap : List Char} {c : Char}
    (hk : mode.terminal? = some kind) (hg : Gap gap) (hc : c ∈ gap.head?) :
    mode.next c = none := by
  have hmem : c ∈ [' ', '\t', '\r', '\n', '\x7b'] := by
    cases hg with
    | empty => simp at hc
    | blank hblank =>
      obtain rfl := Option.some.inj hc
      exact List.mem_append_left ['\x7b'] hblank
    | comment =>
      obtain rfl := Option.some.inj hc
      decide
  obtain ⟨hword, hdigit, hequal, hgreater⟩ :
      isWordChar c = false ∧ c.isDigit = false ∧ c ≠ '=' ∧ c ≠ '>' := by
    simp only [List.mem_cons, List.not_mem_nil, or_false] at hmem
    rcases hmem with rfl | rfl | rfl | rfl | rfl <;> decide
  cases mode with
  | word => simp [next, hword]
  | digits => simp [next, hdigit]
  | less => simp [next, hequal, hgreater]
  | greater => simp [next, hequal]
  | complete => rfl
  | _ => cases hk

end Mode

end Lexer

/-! ## Classification -/

theorem Token.InClass.cases {t : Token} (h : t.InClass) :
    (t.kind = .identifier ∧ IsWord t.text.toList ∧ ∀ kind, (t.text, kind) ∉ reservedTexts) ∨
      (t.kind = .number ∧ IsNumeral t.text.toList ∧ decimalValue t.text.toList < UInt32.size) ∨
      (t.kind = .stringConst ∧ IsQuoted t.text.toList) ∨ (t.text, t.kind) ∈ reservedTexts := by
  obtain ⟨kind, text⟩ := t
  cases kind with
  | identifier => exact .inl ⟨rfl, h⟩
  | number => exact .inr (.inl ⟨rfl, h⟩)
  | stringConst => exact .inr (.inr (.inl ⟨rfl, h⟩))
  | _ => exact .inr (.inr (.inr h))

theorem Token.InClass.shaped {t : Token} (h : t.InClass) : Shaped t.text.toList := by
  rcases h.cases with ⟨-, h, -⟩ | ⟨-, h, -⟩ | ⟨-, h⟩ | h
  · exact .word h
  · exact .numeral h
  · exact .quoted h
  · exact .fixed (by simpa using h)

theorem Token.InClass.ne_endOfInput {t : Token} (h : t.InClass) : t.kind ≠ .endOfInput := by
  have hall : ∀ entry ∈ reservedTexts, entry.2 ≠ .endOfInput := by decide
  rcases h.cases with ⟨hkind, -⟩ | ⟨hkind, -⟩ | ⟨hkind, -⟩ | hfixed
  · simp [hkind]
  · simp [hkind]
  · simp [hkind]
  · exact hall _ hfixed

theorem Token.inClass_of_mem {t : Token} (h : (t.text, t.kind) ∈ reservedTexts) : t.InClass := by
  have hall : ∀ entry ∈ reservedTexts,
      entry.2 ≠ .identifier ∧ entry.2 ≠ .number ∧ entry.2 ≠ .stringConst := by decide
  have hkind := hall _ h
  obtain ⟨kind, text⟩ := t
  cases kind with
  | identifier => exact absurd rfl hkind.1
  | number => exact absurd rfl hkind.2.1
  | stringConst => exact absurd rfl hkind.2.2
  | _ => exact h

namespace Lexer

theorem reserved?_eq_none {text : String} {mode : Mode}
    (hr : Mode.reading text.toList = some mode)
    (hm : mode = .digits ∨ mode = .complete .stringConst) : reserved? text = none := by
  have hall : ∀ entry ∈ reservedTexts, Mode.reading entry.1.toList ≠ some .digits ∧
      Mode.reading entry.1.toList ≠ some (.complete .stringConst) := by decide
  cases hreserved : reserved? text with
  | none => rfl
  | some kind =>
    have hne := hall _ (mem_reservedTexts hreserved)
    rcases hm with rfl | rfl
    · exact absurd hr hne.1
    · exact absurd hr hne.2

/-- A text is classified unless it is a numeral that does not fit into a word. -/
theorem classify_ok_iff {text : String} {kind : Terminal} {p : Position} {x : Lexeme} :
    classify text.toList kind p = .ok x ↔
      x = ⟨text, (reserved? text).getD kind, p⟩ ∧
        ((reserved? text).getD kind = .number → decimalValue text.toList < UInt32.size) := by
  simp only [classify, String.ofList_toList, ← fitsWord_iff]
  generalize (reserved? text).getD kind = found
  by_cases hcut : found = .number ∧ fitsWord text.toList = false
  · simp [hcut]
  · have hfits : found = .number → fitsWord text.toList = true := by simpa using hcut
    rw [if_neg (by simpa using hfits), Except.ok.injEq]
    exact ⟨fun h => ⟨h.symm, hfits⟩, fun h => h.1.symm⟩

theorem classify_of_inClass {t : Token} {mode : Mode} {kind : Terminal} (h : t.InClass)
    (hr : Mode.reading t.text.toList = some mode) (hk : mode.terminal? = some kind) (p : Position) :
    classify t.text.toList kind p = .ok ⟨t.text, t.kind, p⟩ := by
  rw [classify_ok_iff]
  rcases h.cases with ⟨hkind, hword, hfree⟩ | ⟨hkind, hnumeral, hvalue⟩ | ⟨hkind, hquoted⟩ | hfixed
  · obtain rfl : Mode.word = mode := Option.some.inj ((Mode.reading_word hword).symm.trans hr)
    obtain rfl := Option.some.inj hk
    have hnone : reserved? t.text = none := by
      refine Option.eq_none_iff_forall_not_mem.mpr ?_
      exact fun found hfound => hfree found (mem_reservedTexts hfound)
    simp [hnone, hkind]
  · obtain rfl : Mode.digits = mode :=
      Option.some.inj ((Mode.reading_numeral hnumeral).symm.trans hr)
    obtain rfl := Option.some.inj hk
    simp [reserved?_eq_none hr (.inl rfl), hkind, hvalue]
  · obtain rfl : Mode.complete .stringConst = mode :=
      Option.some.inj ((Mode.reading_quoted hquoted).symm.trans hr)
    obtain rfl := Option.some.inj hk
    simp [reserved?_eq_none hr (.inr rfl), hkind]
  · have hnumber : t.kind ≠ .number := by
      have hall : ∀ entry ∈ reservedTexts, entry.2 ≠ .number := by decide
      exact hall _ hfixed
    simp [reserved?_of_mem hfixed, hnumber]

theorem inClass_of_classify {text : String} {mode : Mode} {kind : Terminal} {p : Position}
    {x : Lexeme} (hr : Mode.reading text.toList = some mode) (hk : mode.terminal? = some kind)
    (h : classify text.toList kind p = .ok x) :
    x.text = text ∧ x.position = p ∧ x.token.InClass := by
  obtain ⟨rfl, hvalue⟩ := classify_ok_iff.mp h
  refine ⟨rfl, rfl, ?_⟩
  cases hreserved : reserved? text with
  | some found =>
    apply Token.inClass_of_mem
    simpa [Lexeme.token, hreserved] using mem_reservedTexts hreserved
  | none =>
    have hfree := not_mem_reservedTexts hreserved
    rw [hreserved] at hvalue
    have hd := Mode.describes_of_reading hr
    cases mode with
    | word =>
      obtain rfl := Option.some.inj hk
      exact ⟨hd, hfree⟩
    | digits =>
      obtain rfl := Option.some.inj hk
      exact ⟨hd, hvalue rfl⟩
    | less =>
      obtain rfl : text = "<" := String.toList_injective hd
      exact absurd (by decide) (hfree .relationalOp)
    | greater =>
      obtain rfl : text = ">" := String.toList_injective hd
      exact absurd (by decide) (hfree .relationalOp)
    | complete found =>
      obtain rfl := Option.some.inj hk
      rcases hd with ⟨rfl, hquoted⟩ | hmem
      · exact hquoted
      · exact absurd (by simpa using hmem) (hfree found)
    | _ => cases hk

end Lexer

end OnePass
