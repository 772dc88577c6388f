import OnePass.Proofs.Spelling

/-! # Texts and their lexemes

Every text is a gap followed by its end, by a character that starts nothing, or by a piece that the
automaton reads as far as it can. What a pull brings depends on that piece alone, so the lexemes of
a text that is lexed to its end, with the gaps between them, are the text again, and tokens written
with gaps between them are lexed as those tokens.
-/
namespace OnePass

theorem Gap.append {xs ys : List Char} (hx : Gap xs) (hy : Gap ys) : Gap (xs ++ ys) := by
  induction hx with
  | empty => exact hy
  | blank hblank _ ih => exact .blank hblank ih
  | comment hbody _ ih => simpa using Gap.comment hbody ih

namespace Lexer

/-! ## Pieces of text in the automaton -/

theorem getLast?_cons_or (c : Char) (text : List Char) (last : Option Char) :
    (c :: text).getLast?.or last = text.getLast?.or (some c) := by
  rw [List.getLast?_cons]
  cases text.getLast? <;> rfl

section Scan

variable {last : Option Char} {reversed : List Char} {start p : Position}
  {items : List Input.Item}

theorem scan_start :
    scan last reversed start p .start items = scan last [] p p .start items := by
  cases items with
  | nil => rfl
  | cons item rest =>
    cases item with
    | failure reason => rfl
    | char c =>
      simp only [scan, if_true]
      rfl

theorem scan_run {text : List Char} {mode mode' : Mode} (h : mode.run text = some mode') :
    scan last reversed start p mode (text.map .char ++ items) =
      scan (text.getLast?.or last) (text.reverse ++ reversed) start (p.advanceBy text) mode'
        items := by
  induction text generalizing last reversed p mode with
  | nil =>
    obtain rfl : mode = mode' := by simpa using h
    simp
  | cons c text ih =>
    rw [Mode.run_cons] at h
    obtain ⟨between, hextend, hrun⟩ := Option.bind_eq_some_iff.mp h
    have hstart : mode ≠ .start := by
      rintro rfl
      cases hextend
    rw [Mode.extend_of_ne hstart] at hextend
    rw [getLast?_cons_or, List.map_cons, List.cons_append, scan]
    simp only [hextend, hstart, if_false]
    rw [ih hrun]
    simp

theorem scan_reading {text : List Char} {mode : Mode} (h : Mode.reading text = some mode) :
    scan last reversed start p .start (text.map .char ++ items) =
      scan (text.getLast?.or last) text.reverse p (p.advanceBy text) mode items := by
  cases text with
  | nil => cases h
  | cons c text =>
    obtain ⟨entered, henter, hrun⟩ := Option.bind_eq_some_iff.mp h
    rw [getLast?_cons_or, List.map_cons, List.cons_append, scan]
    simp only [Mode.next, henter, if_true]
    rw [scan_run hrun]
    simp

theorem scan_gap {gap : List Char} (h : Gap gap) :
    scan last reversed start p .start (gap.map .char ++ items) =
      scan (gap.getLast?.or last) [] (p.advanceBy gap) (p.advanceBy gap) .start items := by
  induction h generalizing last reversed start p with
  | empty => exact scan_start
  | @blank c gap hblank _ ih =>
    have hread : scan last reversed start p .start (([c] : List Char).map .char ++
        (gap.map .char ++ items)) = _ := scan_reading (Mode.reading_blank hblank)
    rw [List.map_cons, List.cons_append, getLast?_cons_or]
    exact hread.trans ih
  | @comment body gap hbody _ ih =>
    have hsplit : '\x7b' :: (body ++ '\x7d' :: gap) =
        ('\x7b' :: (body ++ ['\x7d'])) ++ gap := by simp
    rw [hsplit, List.map_append, List.append_assoc, scan_reading (Mode.reading_comment hbody), ih,
      List.getLast?_append, Option.or_assoc, Position.advanceBy_append]

end Scan

/-! ## What a pull brings -/

def before (p : Position) (text : List Char) (tail : List Input.Item) : Lexer :=
  { upcoming := text.map .char ++ tail, position := p }

def Brings (l : Lexer) (outcome : Except Diagnostic Lexeme) (l' : Lexer) : Prop :=
  match outcome with
  | .ok x => next l = .ok x l'
  | .error d => ∃ failed, next l = .error d failed

/-- What a text brings that the automaton has read into the mode and cannot read further. -/
def stopped (mode : Mode) (text rest : List Char) (start stop : Position) :
    Except Diagnostic Lexeme :=
  match mode.terminal?, rest with
  | some kind, _ => classify text kind start
  | none, c :: _ => .error (.located (.unexpectedCharacter c) stop)
  | none, [] => atEnd mode start stop

theorem atEnd_ne_ok {mode : Mode} {start stop : Position} {x : Lexeme} (hm : mode ≠ .start) :
    atEnd mode start stop ≠ .ok x := by
  cases mode with
  | start => exact absurd rfl hm
  | _ => exact nofun

section Pull

variable {gap text rest : List Char} {mode : Mode} (p : Position) (tail : List Input.Item)

theorem brings_end (hg : Gap gap) :
    Brings (before p gap []) (.ok (.atEnd (p.advanceBy gap))) (before (p.advanceBy gap) [] []) := by
  simp only [Brings, next, before]
  rw [scan_gap hg]
  rfl

theorem brings_stray {c : Char} (hg : Gap gap) (hc : Mode.enter c = none) (l : Lexer) :
    Brings (before p (gap ++ c :: rest) tail)
      (.error (.located (.unexpectedCharacter c) (p.advanceBy gap))) l := by
  simp only [Brings, next, before]
  rw [List.map_append, List.append_assoc, scan_gap hg, List.map_cons, List.cons_append, scan]
  simp only [Mode.next, hc, Mode.terminal?]
  exact ⟨_, rfl⟩

/-- A gap and a piece lead the automaton to the mode behind the piece. -/
theorem next_before (hg : Gap gap) (hr : Mode.reading text = some mode) :
    next (before p (gap ++ text) tail) =
      scan (text.getLast?.or (gap.getLast?.or none)) text.reverse (p.advanceBy gap)
        (p.advanceBy (gap ++ text)) mode tail := by
  simp only [next, before, List.map_append, List.append_assoc]
  rw [scan_gap hg, scan_reading hr, Position.advanceBy_append]

theorem scan_close {last : Option Char} {reversed : List Char} {start : Position} {kind : Terminal}
    (hk : mode.terminal? = some kind) (hstop : ∀ c ∈ rest.head?, mode.next c = none)
    (ht : tail = [] ∨ rest ≠ []) :
    scan last reversed start p mode (rest.map .char ++ tail) =
      close reversed kind start p (rest.map .char ++ tail) := by
  cases rest with
  | nil =>
    obtain rfl : tail = [] := ht.resolve_right (by simp)
    simp only [List.map_nil, List.append_nil, scan, hk]
  | cons c rest =>
    have hnext : mode.next c = none := hstop c rfl
    simp only [List.map_cons, List.cons_append, scan, hnext, hk]

/-- What a read piece brings does not depend on what comes behind the character that ends it. -/
theorem brings_stopped (hg : Gap gap) (hr : Mode.reading text = some mode) (hm : mode ≠ .start)
    (hstop : ∀ c ∈ rest.head?, mode.next c = none) (ht : tail = [] ∨ rest ≠ []) :
    Brings (before p (gap ++ (text ++ rest)) tail)
      (stopped mode text rest (p.advanceBy gap) (p.advanceBy (gap ++ text)))
      (before (p.advanceBy (gap ++ text)) rest tail) := by
  have hbefore : before p (gap ++ (text ++ rest)) tail =
      before p (gap ++ text) (rest.map .char ++ tail) := by simp [before]
  have hscan := next_before p (rest.map .char ++ tail) hg hr
  rw [← hbefore] at hscan
  cases hk : mode.terminal? with
  | some kind =>
    rw [scan_close _ tail hk hstop ht] at hscan
    simp only [stopped, hk, Brings, hscan, close, List.reverse_reverse]
    cases classify text kind (p.advanceBy gap) with
    | ok x => rfl
    | error d => exact ⟨_, rfl⟩
  | none =>
    cases rest with
    | nil =>
      obtain rfl : tail = [] := ht.resolve_right (by simp)
      cases mode with
      | start => exact absurd rfl hm
      | word | digits | less | greater | complete => cases hk
      | colon | comment | quoted | escaped => exact Exists.intro _ hscan
    | cons c rest =>
      have hnext : mode.next c = none := hstop c rfl
      simp only [stopped, hk, Brings, hscan, List.map_cons, List.cons_append, scan, hnext]
      exact ⟨_, rfl⟩

/-- Where the input is lost behind a gap, the pull fails. -/
theorem brings_lost_gap (hg : Gap gap) (reason : ReadFailure) (l : Lexer) :
    Brings (before p gap (.failure reason :: tail))
      (.error (.located (.readFailure reason) (p.advanceBy gap))) l := by
  simp only [Brings, next, before]
  rw [scan_gap hg]
  exact ⟨_, rfl⟩

/-- Where the input is lost behind a piece, the pull fails, whatever the piece is. -/
theorem brings_lost_piece (hg : Gap gap) (hr : Mode.reading text = some mode)
    (reason : ReadFailure) (l : Lexer) :
    Brings (before p (gap ++ text) (.failure reason :: tail))
      (.error (.located (.readFailure reason) (p.advanceBy (gap ++ text)))) l :=
  Exists.intro _ (next_before p (.failure reason :: tail) hg hr)

end Pull

/-! ## Every text has a front -/

/-- What can stand where a lexeme is expected: the end, a character that starts nothing, or a piece
that the automaton reads as far as it can. -/
inductive Front : List Char → Prop
  | ended : Front []
  | stray {c : Char} {rest : List Char} : Mode.enter c = none → Front (c :: rest)
  | piece {text rest : List Char} {mode : Mode} : Mode.reading text = some mode → mode ≠ .start →
    (∀ c ∈ rest.head?, mode.next c = none) → Front (text ++ rest)

/-- The automaton runs up to the end of the text, back to its start, or as far as it can. -/
theorem exists_run (mode : Mode) (text : List Char) :
    ∃ taken rest mode', text = taken ++ rest ∧ mode.run taken = some mode' ∧
      (mode' = .start ∨ ∀ c ∈ rest.head?, mode'.next c = none) := by
  induction text generalizing mode with
  | nil => exact ⟨[], [], mode, rfl, rfl, .inr (by simp)⟩
  | cons c text ih =>
    by_cases hstart : mode = .start
    · exact ⟨[], c :: text, mode, rfl, rfl, .inl hstart⟩
    · cases hnext : mode.next c with
      | none => exact ⟨[], c :: text, mode, rfl, rfl, .inr (by simpa using hnext)⟩
      | some between =>
        obtain ⟨taken, rest, mode', rfl, hrun, hstop⟩ := ih between
        refine ⟨c :: taken, rest, mode', rfl, ?_, hstop⟩
        rw [Mode.run_cons, Mode.extend_of_ne hstart, hnext, Option.bind_some, hrun]

theorem exists_front (text : List Char) :
    ∃ gap rest, text = gap ++ rest ∧ Gap gap ∧ Front rest := by
  induction hn : text.length using Nat.strongRecOn generalizing text with
  | ind n ih =>
    cases text with
    | nil => exact ⟨[], [], rfl, .empty, .ended⟩
    | cons c text =>
      cases henter : Mode.enter c with
      | none => exact ⟨[], c :: text, rfl, .empty, .stray henter⟩
      | some entered =>
        obtain ⟨taken, rest, mode, rfl, hrun, hstop⟩ := exists_run entered text
        have hr : Mode.reading (c :: taken) = some mode := by
          rw [Mode.reading, henter, Option.bind_some, hrun]
        by_cases hm : mode = .start
        · -- a blank or a complete comment, with a shorter text behind it
          subst hm
          have hshorter : rest.length < n := by
            rw [← hn, List.length_cons, List.length_append]
            omega
          obtain ⟨gap, rest, rfl, hg, hfront⟩ := ih _ hshorter rest rfl
          refine ⟨(c :: taken) ++ gap, rest, by simp, ?_, hfront⟩
          exact Gap.append (Mode.describes_of_reading hr) hg
        · exact ⟨[], (c :: taken) ++ rest, rfl, .empty, .piece hr hm (hstop.resolve_left hm)⟩

/-! ## Tokens -/

section Tokens

variable {p : Position} {gap text rest : List Char} {tail : List Input.Item}

/-- A maximal token behind a gap is the next lexeme. -/
theorem brings_lexeme {x : Lexeme} (hg : Gap gap) (hposition : x.position = p.advanceBy gap)
    (hclass : x.token.InClass) (hmax : Maximal x.text.toList rest) (ht : tail = [] ∨ rest ≠ []) :
    Brings (before p (gap ++ (x.text.toList ++ rest)) tail) (.ok x)
      (before (p.advanceBy (gap ++ x.text.toList)) rest tail) := by
  obtain ⟨mode, kind, hr, hk⟩ := Mode.exists_reading_of_shaped hclass.shaped
  have hstop := (Mode.maximal_iff hr hk).mp hmax
  have hbrings := brings_stopped p tail hg hr (Mode.ne_start_of_terminal? hk) hstop ht
  have hstopped : stopped mode x.text.toList rest (p.advanceBy gap)
      (p.advanceBy (gap ++ x.text.toList)) = .ok x := by
    rw [← hposition]
    simp only [stopped, hk]
    exact classify_of_inClass hclass hr hk x.position
  rw [← hstopped]
  exact hbrings

/-- A lexeme that a read piece brings is a maximal token. -/
theorem inClass_of_stopped {mode : Mode} {start stop : Position} {x : Lexeme}
    (hr : Mode.reading text = some mode) (hm : mode ≠ .start)
    (hstop : ∀ c ∈ rest.head?, mode.next c = none)
    (h : stopped mode text rest start stop = .ok x) :
    x.text.toList = text ∧ x.position = start ∧ x.token.InClass ∧ Maximal text rest := by
  cases hk : mode.terminal? with
  | some kind =>
    have hread : Mode.reading (String.ofList text).toList = some mode := by
      rwa [String.toList_ofList]
    have hclassify : classify (String.ofList text).toList kind start = .ok x := by
      simpa only [stopped, hk, String.toList_ofList] using h
    obtain ⟨htext, hposition, hclass⟩ := inClass_of_classify hread hk hclassify
    refine ⟨by rw [htext, String.toList_ofList], hposition, hclass, ?_⟩
    exact (Mode.maximal_iff hr hk).mpr hstop
  | none =>
    cases rest with
    | cons c rest => simp [stopped, hk] at h
    | nil =>
      simp only [stopped, hk] at h
      exact absurd h (atEnd_ne_ok hm)

end Tokens

/-! ## Whole texts -/

/-- The lexemes stand at the front of the text from the position on, each behind a gap, and the rest
of the text is behind the last of them. -/
inductive Splits : Position → List Char → List Lexeme → List Char → Prop
  | done {p : Position} {rest : List Char} : Splits p rest [] rest
  | lexeme {p : Position} {gap tail rest : List Char} {x : Lexeme} {xs : List Lexeme} :
    Gap gap → x.position = p.advanceBy gap → x.token.InClass → Maximal x.text.toList tail →
    Splits (p.advanceBy (gap ++ x.text.toList)) tail xs rest →
    Splits p (gap ++ (x.text.toList ++ tail)) (x :: xs) rest

theorem drain_of_brings_ok {l l' : Lexer} {x : Lexeme} (h : Brings l (.ok x) l')
    (hx : x.kind ≠ .endOfInput) (fuel : Nat) :
    drain (fuel + 1) l = .ok x :: drain fuel l' := by
  have hn : next l = .ok x l' := h
  simp only [drain, hn, hx, if_false]

theorem drain_of_brings_end {l l' : Lexer} {x : Lexeme} (h : Brings l (.ok x) l')
    (hx : x.kind = .endOfInput) (fuel : Nat) : drain (fuel + 1) l = [.ok x] := by
  have hn : next l = .ok x l' := h
  simp only [drain, hn, hx, if_true]

theorem drain_of_brings_error {l l' : Lexer} {d : Diagnostic} (h : Brings l (.error d) l')
    (fuel : Nat) : drain (fuel + 1) l = [.error d] := by
  obtain ⟨failed, hn⟩ : ∃ failed, next l = .error d failed := h
  simp only [drain, hn]

theorem ofInput_ofText (source : String) :
    ofInput (.ofText source) = before {} source.toList [] := by
  simp [ofInput, before, Input.ofText]

theorem splits_of_drain {fuel : Nat} {p : Position} {text : List Char} {body : List Lexeme}
    {final : Lexeme} (hf : final.kind = .endOfInput)
    (h : drain fuel (before p text []) = (body ++ [final]).map .ok) :
    ∃ last, Splits p text body last ∧ Gap last ∧ final = .atEnd (p.advanceBy text) := by
  induction fuel generalizing p text body with
  | zero => simp [drain] at h
  | succ fuel ih =>
    obtain ⟨gap, rest, rfl, hg, hfront⟩ := exists_front text
    cases hfront with
    | ended =>
      rw [List.append_nil] at h ⊢
      rw [drain_of_brings_end (brings_end p hg) rfl] at h
      cases body with
      | nil =>
        obtain rfl : Lexeme.atEnd (p.advanceBy gap) = final := by simpa using h
        exact ⟨gap, .done, hg, rfl⟩
      | cons x body => simp at h
    | stray hc =>
      rw [drain_of_brings_error (brings_stray p [] hg hc (before p [] []))] at h
      cases body <;> simp at h
    | @piece text rest mode hr hm hstop =>
      have hbrings := brings_stopped p [] hg hr hm hstop (.inl rfl)
      cases hstopped : stopped mode text rest (p.advanceBy gap) (p.advanceBy (gap ++ text)) with
      | error d =>
        rw [hstopped] at hbrings
        rw [drain_of_brings_error hbrings] at h
        cases body <;> simp at h
      | ok x =>
        rw [hstopped] at hbrings
        obtain ⟨rfl, hposition, hclass, hmax⟩ := inClass_of_stopped hr hm hstop hstopped
        have hkind : x.kind ≠ .endOfInput := hclass.ne_endOfInput
        rw [drain_of_brings_ok hbrings hkind] at h
        cases body with
        | nil =>
          obtain ⟨rfl, -⟩ : x = final ∧ _ := by simpa using h
          exact absurd hf hkind
        | cons y body =>
          simp only [List.cons_append, List.map_cons, List.cons.injEq, Except.ok.injEq] at h
          obtain ⟨rfl, h⟩ := h
          obtain ⟨last, hsplits, hlast, rfl⟩ := ih h
          refine ⟨last, .lexeme hg hposition hclass hmax hsplits, hlast, ?_⟩
          simp only [Position.advanceBy_append]

theorem drain_of_splits {fuel : Nat} {p : Position} {text last : List Char} {xs : List Lexeme}
    (h : Splits p text xs last) (hlast : Gap last) (hfuel : xs.length < fuel) :
    drain fuel (before p text []) = (xs ++ [Lexeme.atEnd (p.advanceBy text)]).map .ok := by
  induction h generalizing fuel with
  | done =>
    obtain ⟨fuel, rfl⟩ := Nat.exists_eq_succ_of_ne_zero (Nat.ne_of_gt hfuel)
    exact drain_of_brings_end (brings_end _ hlast) rfl fuel
  | @lexeme p gap tail rest x xs hg hposition hclass hmax _ ih =>
    obtain ⟨fuel, rfl⟩ := Nat.exists_eq_succ_of_ne_zero (Nat.ne_of_gt (Nat.zero_lt_of_lt hfuel))
    have hbrings := brings_lexeme hg hposition hclass hmax (.inl rfl)
    have hrest := ih hlast (Nat.lt_of_succ_lt_succ hfuel)
    rw [drain_of_brings_ok hbrings hclass.ne_endOfInput, hrest]
    simp only [Position.advanceBy_append, List.cons_append, List.map_cons]

end Lexer

/-! ## Writing tokens -/

structure Piece where
  gap : List Char
  token : Token
  deriving DecidableEq, Repr

def Piece.text (piece : Piece) : List Char :=
  piece.gap ++ piece.token.text.toList

def written (pieces : List Piece) : List Char :=
  pieces.flatMap Piece.text

@[simp] theorem written_nil : written [] = [] := rfl

@[simp] theorem written_cons (piece : Piece) (pieces : List Piece) :
    written (piece :: pieces) = piece.gap ++ (piece.token.text.toList ++ written pieces) := by
  simp [written, Piece.text]

/-- A gap behind a token keeps it apart from what comes next. -/
theorem Token.InClass.maximal {t : Token} {gap rest : List Char} (ht : t.InClass) (hg : Gap gap)
    (h : gap = [] → rest = []) : Maximal t.text.toList (gap ++ rest) := by
  obtain ⟨mode, kind, hr, hk⟩ := Lexer.Mode.exists_reading_of_shaped ht.shaped
  rw [Lexer.Mode.maximal_iff hr hk]
  intro c hc
  have hhead : c ∈ gap.head? := by
    cases gap with
    | nil => simp [h rfl] at hc
    | cons d gap => exact hc
  exact Lexer.Mode.next_eq_none_of_gap hk hg hhead

theorem exists_splits_written {pieces : List Piece} {last : List Char} (p : Position)
    (hgaps : ∀ piece ∈ pieces, Gap piece.gap) (hlast : Gap last)
    (hapart : ∀ piece ∈ pieces.tail, piece.gap ≠ [])
    (hclass : ∀ piece ∈ pieces, piece.token.InClass) :
    ∃ xs, Lexer.Splits p (written pieces ++ last) xs last ∧
      xs.map Lexeme.token = pieces.map Piece.token := by
  induction pieces generalizing p with
  | nil => exact ⟨[], .done, rfl⟩
  | cons piece pieces ih =>
    obtain ⟨xs, hsplits, htokens⟩ := ih (p.advanceBy piece.text)
      (fun q hq => hgaps q (by simp [hq])) (fun q hq => hapart q (List.mem_of_mem_tail hq))
      (fun q hq => hclass q (by simp [hq]))
    have ht : piece.token.InClass := hclass piece (by simp)
    have hmax : Maximal piece.token.text.toList (written pieces ++ last) := by
      cases pieces with
      | nil =>
        have hfree : Maximal piece.token.text.toList (last ++ []) := ht.maximal hlast fun _ => rfl
        rwa [List.append_nil] at hfree
      | cons q pieces =>
        rw [written_cons, List.append_assoc]
        exact ht.maximal (hgaps q (by simp)) fun hempty => absurd hempty (hapart q (by simp))
    let x : Lexeme := ⟨piece.token.text, piece.token.kind, p.advanceBy piece.gap⟩
    refine ⟨x :: xs, ?_, ?_⟩
    · rw [written_cons, List.append_assoc, List.append_assoc]
      exact .lexeme (x := x) (hgaps piece (by simp)) rfl ht hmax hsplits
    · rw [List.map_cons, List.map_cons, htokens]
      rfl

theorem Lexer.Splits.length_le {p : Position} {text rest : List Char} {xs : List Lexeme}
    (h : Lexer.Splits p text xs rest) : xs.length ≤ text.length := by
  induction h with
  | done => exact Nat.zero_le _
  | @lexeme p gap tail rest x xs _ _ hclass _ _ ih =>
    obtain ⟨mode, kind, hr, -⟩ := Lexer.Mode.exists_reading_of_shaped hclass.shaped
    have hpos : 0 < x.text.toList.length :=
      List.length_pos_of_ne_nil (Lexer.Mode.ne_nil_of_reading hr)
    simp only [List.length_cons, List.length_append]
    omega

/-- Tokens that are written with gaps between them are lexed as these tokens. -/
theorem lexemes_of_written (pieces : List Piece) (last : List Char)
    (hgaps : ∀ piece ∈ pieces, Gap piece.gap) (hlast : Gap last)
    (hapart : ∀ piece ∈ pieces.tail, piece.gap ≠ [])
    (hclass : ∀ piece ∈ pieces, piece.token.InClass) :
    (Lexer.lexemes (.ofText (String.ofList (written pieces ++ last)))).map
        (Except.map Lexeme.token) =
      (pieces.map Piece.token ++ [(⟨.endOfInput, ""⟩ : Token)]).map .ok := by
  obtain ⟨xs, hsplits, htokens⟩ := exists_splits_written {} hgaps hlast hapart hclass
  have hfuel :
      xs.length < (Input.ofText (String.ofList (written pieces ++ last))).items.length + 1 := by
    have hle := hsplits.length_le
    simp only [Input.ofText, String.toList_ofList, List.length_map]
    omega
  rw [Lexer.lexemes, Lexer.ofInput_ofText, String.toList_ofList,
    Lexer.drain_of_splits hsplits hlast hfuel, ← htokens]
  simp [Except.map, Lexeme.token, Lexeme.atEnd]

def separated : List Piece :=
  [⟨[], ⟨.identifier, "ab"⟩⟩, ⟨['\x7b', '*', '\x7d'], ⟨.identifier, "c_1"⟩⟩,
    ⟨[' '], ⟨.number, "007"⟩⟩, ⟨['\n'], ⟨.stringConst, "\"\\\"\x7d\""⟩⟩,
    ⟨['\t'], ⟨.relationalOp, "<="⟩⟩]

theorem lexemes_of_separated :
    (∀ piece ∈ separated, Gap piece.gap) ∧ Gap [] ∧
      (∀ piece ∈ separated.tail, piece.gap ≠ []) ∧
      (∀ piece ∈ separated, piece.token.InClass) ∧
      (Lexer.lexemes (.ofText (String.ofList (written separated ++ [])))).map
          (Except.map Lexeme.token) =
        (separated.map Piece.token ++ [(⟨.endOfInput, ""⟩ : Token)]).map .ok := by
  have hgaps : ∀ piece ∈ separated, Gap piece.gap := by
    simp only [separated, List.forall_mem_cons, List.not_mem_nil, IsEmpty.forall_iff, implies_true,
      and_true]
    exact ⟨.empty, .comment (show '\x7d' ∉ ['*'] by decide) .empty, .blank (by decide) .empty,
      .blank (by decide) .empty, .blank (by decide) .empty⟩
  have hapart : ∀ piece ∈ separated.tail, piece.gap ≠ [] := by decide
  have hclass : ∀ piece ∈ separated, piece.token.InClass := by
    simp only [separated, List.forall_mem_cons, List.not_mem_nil, IsEmpty.forall_iff, implies_true,
      and_true]
    refine ⟨⟨by decide +kernel, not_mem_reservedTexts (by decide)⟩,
      ⟨by decide +kernel, not_mem_reservedTexts (by decide)⟩, ⟨by decide, by decide⟩, ?_,
      Token.inClass_of_mem (by decide)⟩
    exact ⟨['\\', '"', '\x7d'], .escape (.plain (by decide) (by decide) .empty), by decide⟩
  exact ⟨hgaps, .empty, hapart, hclass, lexemes_of_written separated [] hgaps .empty hapart hclass⟩

/-- The text from the position on is the pieces and the last gap behind them. Each piece is a gap
and a maximal token, and its lexeme stands where the characters before it lead. -/
structure Layout (p : Position) (text : List Char) (xs : List Lexeme) (pieces : List Piece)
    (last : List Char) : Prop where
  whole : text = written pieces ++ last
  length : pieces.length = xs.length
  gaps : ∀ piece ∈ pieces, Gap piece.gap
  inClass : ∀ piece ∈ pieces, piece.token.InClass
  maximal : ∀ before piece after, pieces = before ++ piece :: after →
    Maximal piece.token.text.toList (written after ++ last)
  located : ∀ before piece after, pieces = before ++ piece :: after →
    xs[before.length]? = some ⟨piece.token.text, piece.token.kind,
      p.advanceBy (written before ++ piece.gap)⟩

theorem layout_nil (p : Position) (last : List Char) : Layout p last [] [] last where
  whole := rfl
  length := rfl
  gaps := by simp
  inClass := by simp
  maximal := by simp
  located := by simp

theorem Layout.cons {p : Position} {gap tail last : List Char} {x : Lexeme} {xs : List Lexeme}
    {pieces : List Piece} (hg : Gap gap) (hposition : x.position = p.advanceBy gap)
    (hclass : x.token.InClass) (hmax : Maximal x.text.toList tail)
    (h : Layout (p.advanceBy (gap ++ x.text.toList)) tail xs pieces last) :
    Layout p (gap ++ (x.text.toList ++ tail)) (x :: xs) (⟨gap, x.token⟩ :: pieces) last where
  whole := by simp [h.whole, Lexeme.token]
  length := by simp [h.length]
  gaps := List.forall_mem_cons.mpr ⟨hg, h.gaps⟩
  inClass := List.forall_mem_cons.mpr ⟨hclass, h.inClass⟩
  maximal := by
    intro before piece after hsplit
    cases before with
    | nil =>
      obtain ⟨rfl, rfl⟩ := List.cons.inj hsplit
      rw [← h.whole]
      exact hmax
    | cons first before =>
      exact h.maximal before piece after (List.cons.inj hsplit).2
  located := by
    intro before piece after hsplit
    cases before with
    | nil =>
      obtain ⟨rfl, rfl⟩ := List.cons.inj hsplit
      simp [Lexeme.token, ← hposition]
    | cons first before =>
      obtain ⟨rfl, htail⟩ := List.cons.inj hsplit
      simpa [Position.advanceBy_append, Lexeme.token] using h.located before piece after htail

theorem Lexer.Splits.exists_layout {p : Position} {text last : List Char} {xs : List Lexeme}
    (h : Lexer.Splits p text xs last) : ∃ pieces, Layout p text xs pieces last := by
  induction h with
  | done => exact ⟨[], layout_nil _ _⟩
  | lexeme hg hposition hclass hmax _ ih =>
    obtain ⟨pieces, hlayout⟩ := ih
    exact ⟨_, hlayout.cons hg hposition hclass hmax⟩

/-- A text that is lexed to its end is laid out as its lexemes, which begin at the first position,
with a gap at the end; the end of the input is behind the whole text. -/
theorem layout_of_lexemes (source : String) (body : List Lexeme) (final : Lexeme)
    (h : Lexer.lexemes (.ofText source) = (body ++ [final]).map .ok)
    (hf : final.kind = .endOfInput) :
    ∃ pieces last, Layout {} source.toList body pieces last ∧ Gap last ∧
      final = .atEnd (Position.advanceBy {} source.toList) := by
  rw [Lexer.lexemes, Lexer.ofInput_ofText] at h
  obtain ⟨last, hsplits, hlast, hfinal⟩ := Lexer.splits_of_drain hf h
  obtain ⟨pieces, hlayout⟩ := hsplits.exists_layout
  exact ⟨pieces, last, hlayout, hlast, hfinal⟩

def commented : String :=
  "\x7b set \x7d\nβ1:=007;\tprint \"a\\\"\x7b\" "

theorem layout_of_commented :
    ∃ body final pieces last,
      Lexer.lexemes (.ofText commented) = (body ++ [final]).map .ok ∧ final.kind = .endOfInput ∧
      body.map Lexeme.token = [⟨.identifier, "β1"⟩, ⟨.assignOp, ":="⟩, ⟨.number, "007"⟩,
        ⟨.separator, ";"⟩, ⟨.printWord, "print"⟩, ⟨.stringConst, "\"a\\\"\x7b\""⟩] ∧
      Layout {} commented.toList body pieces last ∧ Gap last ∧
      final = .atEnd (Position.advanceBy {} commented.toList) := by
  let body := ((Lexer.lexemes (.ofText commented)).filterMap Except.toOption).dropLast
  have hlexemes : Lexer.lexemes (.ofText commented) =
      (body ++ [Lexeme.atEnd ⟨2, 23⟩]).map .ok := by decide +kernel
  have htokens : body.map Lexeme.token = [⟨.identifier, "β1"⟩, ⟨.assignOp, ":="⟩,
      ⟨.number, "007"⟩, ⟨.separator, ";"⟩, ⟨.printWord, "print"⟩,
      ⟨.stringConst, "\"a\\\"\x7b\""⟩] := by decide +kernel
  obtain ⟨pieces, last, hlayout⟩ := layout_of_lexemes commented body _ hlexemes rfl
  exact ⟨body, _, pieces, last, hlexemes, rfl, htokens, hlayout⟩

end OnePass
