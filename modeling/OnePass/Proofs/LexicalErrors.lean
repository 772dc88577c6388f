import OnePass.Proofs.Tokenization

/-! # Lexical errors

Where a text cannot be lexed further one of six defects stands, and the first characters tell which.
A defect is described without the automaton. The lexemes of a text end in an error exactly if a
defect stands behind tokens and gaps, and the error is the one that the defect is reported as.
-/
namespace OnePass

def StartsNothing (c : Char) : Prop :=
  c ≠ ':' ∧ ∀ more, ¬ Shaped (c :: more) ∧ ¬ Gap (c :: more)

inductive Defect where
  /-- A character that begins nothing. -/
  | stray
  /-- A colon with another character than `=` behind it. -/
  | brokenAssign
  /-- A colon at the end. -/
  | cutAssign
  | openComment
  | openString
  | largeNumber
  deriving DecidableEq, Repr

namespace Defect

/-- The text begins with the defect, and the defect is reported as the diagnostic if the text begins
at the position. -/
def Reports (p : Position) (text : List Char) (d : Diagnostic) : Defect → Prop
  | stray => ∃ c more, text = c :: more ∧ StartsNothing c ∧
      d = .located (.unexpectedCharacter c) p
  | brokenAssign => ∃ c more, text = ':' :: c :: more ∧ c ≠ '=' ∧
      d = .located (.unexpectedCharacter c) (p.advanceBy [':'])
  | cutAssign => text = [':'] ∧ d = .located .unexpectedEndOfInput (p.advanceBy text)
  | openComment => ∃ body, text = '\x7b' :: body ∧ '\x7d' ∉ body ∧
      d = .located .unterminatedComment p
  | openString => ∃ body, text = '"' :: body ∧
      (∀ inner after, body = inner ++ '"' :: after → ¬ StringBody inner) ∧
      d = .located .unterminatedString p
  | largeNumber => ∃ digits rest, text = digits ++ rest ∧ IsNumeral digits ∧
      (∀ c ∈ rest.head?, c.isDigit = false) ∧ UInt32.size ≤ decimalValue digits ∧
      d = .located (.numberOutOfRange (String.ofList digits)) p

end Defect

namespace Lexer

/-! ## Characters that begin nothing -/

theorem Mode.startsNothing_of_enter {c : Char} (h : enter c = none) : StartsNothing c := by
  refine ⟨?_, ?_⟩
  · rintro rfl
    cases h
  · intro more
    constructor
    · intro hshaped
      obtain ⟨mode, kind, hread, -⟩ := exists_reading_of_shaped hshaped
      rw [reading, h] at hread
      cases hread
    · intro hgap
      cases hgap with
      | blank hblank => simp [enter, isBlank_iff.mpr hblank] at h
      | comment => cases h

theorem Mode.enter_of_startsNothing {c : Char} (h : StartsNothing c) : enter c = none := by
  obtain ⟨hcolon, hnothing⟩ := h
  cases henter : enter c with
  | none => rfl
  | some mode =>
    have hd := enter_describes henter
    exfalso
    cases mode with
    | start => exact (hnothing []).2 hd
    | word => exact (hnothing []).1 (.word hd)
    | digits => exact (hnothing []).1 (.numeral hd)
    | colon => exact hcolon (List.singleton_inj.mp hd)
    | less =>
      obtain rfl := List.singleton_inj.mp hd
      exact (hnothing []).1 (.fixed (show (_, Terminal.relationalOp) ∈ reservedTexts by decide))
    | greater =>
      obtain rfl := List.singleton_inj.mp hd
      exact (hnothing []).1 (.fixed (show (_, Terminal.relationalOp) ∈ reservedTexts by decide))
    | comment =>
      obtain ⟨body, -, hc⟩ := hd
      obtain ⟨rfl, -⟩ := List.cons.inj hc
      exact (hnothing ['\x7d']).2 (@Gap.comment [] [] (by simp) .empty)
    | quoted =>
      obtain ⟨body, -, hc⟩ := hd
      obtain ⟨rfl, -⟩ := List.cons.inj hc
      exact (hnothing ['"']).1 (.quoted ⟨[], .empty, rfl⟩)
    | escaped =>
      obtain ⟨body, -, hc⟩ := hd
      simp at hc
    | complete kind =>
      rcases hd with ⟨-, hquoted⟩ | hfixed
      · exact (hnothing []).1 (.quoted hquoted)
      · exact (hnothing []).1 (.fixed hfixed)

/-! ## Strings that are never closed -/

/-- Behind an opening quote the text closes the string, or it leads on inside it. -/
theorem Mode.closes_or_run_quoted (body : List Char) :
    (∃ inner after, body = inner ++ '"' :: after ∧ StringBody inner) ∨
      run .quoted body = some .quoted ∨ run .quoted body = some .escaped := by
  induction hn : body.length using Nat.strongRecOn generalizing body with
  | ind n ih =>
    cases body with
    | nil => exact .inr (.inl rfl)
    | cons c body =>
      by_cases hquote : c = '"'
      · exact .inl ⟨[], body, by rw [hquote]; rfl, .empty⟩
      by_cases hslash : c = '\\'
      · subst hslash
        cases body with
        | nil => exact .inr (.inr rfl)
        | cons d body =>
          have hrun : run .quoted ('\\' :: d :: body) = run .quoted body := rfl
          have hshorter : body.length < n := by
            rw [← hn, List.length_cons, List.length_cons]
            omega
          rw [hrun]
          rcases ih _ hshorter body rfl with ⟨inner, after, rfl, hinner⟩ | hopen
          · exact .inl ⟨'\\' :: d :: inner, after, rfl, .escape hinner⟩
          · exact .inr hopen
      · have hrun : run .quoted (c :: body) = run .quoted body := by
          rw [run_cons, extend_of_ne (by decide)]
          simp [next, hquote, hslash]
        have hshorter : body.length < n := by
          rw [← hn, List.length_cons]
          exact Nat.lt_succ_self _
        rw [hrun]
        rcases ih _ hshorter body rfl with ⟨inner, after, rfl, hinner⟩ | hopen
        · exact .inl ⟨c :: inner, after, rfl, .plain hquote hslash hinner⟩
        · exact .inr hopen

theorem Mode.run_of_closed {inner after : List Char} {mode : Mode} (h : StringBody inner)
    (hr : run .quoted (inner ++ '"' :: after) = some mode) : mode = .complete .stringConst := by
  rw [run_append, run_stringBody h, Option.bind_some, run_cons, extend_of_ne (by decide)] at hr
  cases after with
  | nil => exact (Option.some.inj hr).symm
  | cons c after => cases hr

/-- A quote leads on inside a string exactly if nothing closes the string. -/
theorem Mode.open_iff {body : List Char} :
    (∀ inner after, body = inner ++ '"' :: after → ¬ StringBody inner) ↔
      ∃ mode, (mode = .quoted ∨ mode = .escaped) ∧ run .quoted body = some mode := by
  constructor
  · intro hopen
    rcases closes_or_run_quoted body with ⟨inner, after, hbody, hinner⟩ | hrun | hrun
    · exact absurd hinner (hopen inner after hbody)
    · exact ⟨.quoted, .inl rfl, hrun⟩
    · exact ⟨.escaped, .inr rfl, hrun⟩
  · rintro ⟨mode, hmode, hrun⟩ inner after rfl hinner
    obtain rfl := run_of_closed hinner hrun
    rcases hmode with hmode | hmode <;> cases hmode

/-! ## Defects and what a pull brings -/

/-- Only a numeral that does not fit into a word is refused where a lexeme can end. -/
theorem classify_error {text : List Char} {mode : Mode} {kind : Terminal} {p : Position}
    {d : Diagnostic} (hr : Mode.reading text = some mode) (hk : mode.terminal? = some kind)
    (h : classify text kind p = .error d) :
    mode = .digits ∧ UInt32.size ≤ decimalValue text ∧
      d = .located (.numberOutOfRange (String.ofList text)) p := by
  have hreserved : ∀ entry ∈ reservedTexts, entry.2 ≠ .number := by decide
  unfold classify at h
  dsimp only at h
  split_ifs at h with hcut
  cases h
  obtain ⟨hnumber, hlarge⟩ : (reserved? (String.ofList text)).getD kind = .number ∧
      fitsWord text = false := by simpa using hcut
  have hkind : kind = .number := by
    cases hfound : reserved? (String.ofList text) with
    | none => simpa [hfound] using hnumber
    | some found =>
      rw [hfound] at hnumber
      exact absurd hnumber (hreserved _ (mem_reservedTexts hfound))
  subst hkind
  refine ⟨?_, ?_, rfl⟩
  · cases mode with
    | digits => rfl
    | complete found =>
      obtain rfl := Option.some.inj hk
      rcases Mode.describes_of_reading hr with ⟨hstring, -⟩ | hfixed
      · cases hstring
      · exact absurd rfl (hreserved _ hfixed)
    | _ => cases hk
  · by_contra hsmall
    rw [(fitsWord_iff text).mpr (by omega)] at hlarge
    cases hlarge

section Defects

variable {p : Position} {text rest : List Char} {mode : Mode} {d : Diagnostic}

/-- A piece of text that brings an error begins with a defect. -/
theorem exists_reports_of_stopped (hr : Mode.reading text = some mode) (hm : mode ≠ .start)
    (hstop : ∀ c ∈ rest.head?, mode.next c = none)
    (h : stopped mode text rest p (p.advanceBy text) = .error d) :
    ∃ defect : Defect, defect.Reports p (text ++ rest) d := by
  have hd := Mode.describes_of_reading hr
  cases hk : mode.terminal? with
  | some kind =>
    simp only [stopped, hk] at h
    obtain ⟨rfl, hlarge, rfl⟩ := classify_error hr hk h
    refine ⟨.largeNumber, text, rest, rfl, hd, ?_, hlarge, rfl⟩
    intro c hc
    have hnext := hstop c hc
    simpa [Mode.next] using hnext
  | none =>
    cases rest with
    | cons c rest =>
      have hnext : mode.next c = none := hstop c rfl
      simp only [stopped, hk] at h
      cases h
      cases mode with
      | colon =>
        obtain rfl : text = [':'] := hd
        refine ⟨.brokenAssign, c, rest, rfl, ?_, rfl⟩
        rintro rfl
        cases hnext
      | start => exact absurd rfl hm
      | comment | quoted | escaped => cases hnext
      | _ => cases hk
    | nil =>
      rw [List.append_nil]
      simp only [stopped, hk] at h
      cases mode with
      | start => exact absurd rfl hm
      | colon =>
        obtain rfl : text = [':'] := hd
        cases h
        exact ⟨.cutAssign, rfl, rfl⟩
      | comment =>
        obtain ⟨body, hbody, rfl⟩ := hd
        cases h
        exact ⟨.openComment, body, rfl, hbody, rfl⟩
      | quoted | escaped =>
        have hopen : ∃ body, text = '"' :: body := by
          obtain ⟨body, -, hbody⟩ := hd
          exact ⟨_, hbody⟩
        obtain ⟨body, rfl⟩ := hopen
        cases h
        refine ⟨.openString, body, rfl, Mode.open_iff.mpr ⟨_, ?_, hr⟩, rfl⟩
        simp
      | _ => cases hk

theorem brings_of_reports {gap : List Char} {defect : Defect} (hg : Gap gap)
    (h : defect.Reports (p.advanceBy gap) text d) (l : Lexer) :
    Brings (before p (gap ++ text) []) (.error d) l := by
  -- Every defect but the first is a piece at which the automaton stops.
  have hpiece : ∀ (taken rest : List Char) {mode : Mode}, text = taken ++ rest →
      Mode.reading taken = some mode → mode ≠ .start → (∀ c ∈ rest.head?, mode.next c = none) →
      stopped mode taken rest (p.advanceBy gap) (p.advanceBy (gap ++ taken)) = .error d →
      Brings (before p (gap ++ text) []) (.error d) l := by
    intro taken rest mode htext hr hm hstop hstopped
    have hbrings := brings_stopped p [] hg hr hm hstop (.inl rfl)
    rw [hstopped] at hbrings
    rw [htext]
    exact hbrings
  cases defect with
  | stray =>
    obtain ⟨c, more, rfl, hc, rfl⟩ := h
    exact brings_stray p [] hg (Mode.enter_of_startsNothing hc) l
  | brokenAssign =>
    obtain ⟨c, more, rfl, hc, rfl⟩ := h
    refine hpiece [':'] (c :: more) rfl rfl (by decide) ?_ ?_
    · simpa [Mode.next] using hc
    · rw [Position.advanceBy_append]
      rfl
  | cutAssign =>
    obtain ⟨rfl, rfl⟩ := h
    refine hpiece [':'] [] rfl rfl (by decide) (by simp) ?_
    rw [Position.advanceBy_append]
    rfl
  | openComment =>
    obtain ⟨body, rfl, hbody, rfl⟩ := h
    have hrun : Mode.run .comment body = some .comment := by
      refine Mode.run_of_keeps (by decide) ?_
      intro c hc
      have hne : c ≠ '\x7d' := fun heq => hbody (heq ▸ hc)
      simp [Mode.next, hne]
    exact hpiece _ [] (List.append_nil _).symm hrun (by decide) (by simp) rfl
  | openString =>
    obtain ⟨body, rfl, hopen, rfl⟩ := h
    obtain ⟨mode, hmode, hrun⟩ := Mode.open_iff.mp hopen
    rcases hmode with rfl | rfl
    · exact hpiece _ [] (List.append_nil _).symm hrun (by decide) (by simp) rfl
    · exact hpiece _ [] (List.append_nil _).symm hrun (by decide) (by simp) rfl
  | largeNumber =>
    obtain ⟨digits, rest, rfl, hdigits, hrest, hlarge, rfl⟩ := h
    have hr := Mode.reading_numeral hdigits
    refine hpiece digits rest rfl hr (by decide) ?_ ?_
    · intro c hc
      simp [Mode.next, hrest c hc]
    · have hread : Mode.reading (String.ofList digits).toList = some .digits := by
        rwa [String.toList_ofList]
      have hfits : fitsWord digits = false := by
        by_contra hfits
        have hsmall := (fitsWord_iff digits).mp (by simpa using hfits)
        omega
      simp [stopped, Mode.terminal?, classify, reserved?_eq_none hread (.inl rfl), hfits]

/-- The defect that the first characters of a text point to. -/
def suspect : List Char → Defect
  | [':'] => .cutAssign
  | c :: _ =>
    if c = ':' then .brokenAssign
    else if c = '\x7b' then .openComment
    else if c = '"' then .openString
    else if c.isDigit then .largeNumber
    else .stray
  | [] => .stray

theorem eq_suspect_of_reports {defect : Defect} (h : defect.Reports p text d) :
    defect = suspect text := by
  cases defect with
  | stray =>
    obtain ⟨c, more, rfl, ⟨hcolon, hnothing⟩, -⟩ := h
    have hbrace : c ≠ '\x7b' := by
      rintro rfl
      exact (hnothing ['\x7d']).2 (@Gap.comment [] [] (by simp) .empty)
    have hquote : c ≠ '"' := by
      rintro rfl
      exact (hnothing ['"']).1 (.quoted ⟨[], .empty, rfl⟩)
    have hdigit : c.isDigit = false := by
      by_contra hdigit
      exact (hnothing []).1 (.numeral ⟨by simp, by simpa using hdigit⟩)
    simp [suspect, hcolon, hbrace, hquote, hdigit]
  | brokenAssign =>
    obtain ⟨c, more, rfl, -⟩ := h
    rfl
  | cutAssign =>
    obtain ⟨rfl, -⟩ := h
    rfl
  | openComment =>
    obtain ⟨body, rfl, -⟩ := h
    rfl
  | openString =>
    obtain ⟨body, rfl, -⟩ := h
    rfl
  | largeNumber =>
    obtain ⟨digits, rest, rfl, ⟨hne, hdigits⟩, -⟩ := h
    obtain ⟨c, digits, rfl⟩ := List.exists_cons_of_ne_nil hne
    have hc : c.isDigit = true := hdigits c (by simp)
    have hother : c ≠ ':' ∧ c ≠ '\x7b' ∧ c ≠ '"' := by
      refine ⟨?_, ?_, ?_⟩ <;> rintro rfl <;> cases hc
    simp [suspect, hother, hc]

end Defects

/-! ## Whole texts -/

theorem Splits.drain_eq {p : Position} {text tail : List Char} {xs : List Lexeme}
    (h : Splits p text xs tail) (fuel : Nat) :
    ∃ taken, text = taken ++ tail ∧ drain (xs.length + fuel) (before p text []) =
      xs.map .ok ++ drain fuel (before (p.advanceBy taken) tail []) := by
  induction h with
  | done => exact ⟨[], rfl, by simp⟩
  | @lexeme p gap text tail x xs hg hposition hclass hmax _ ih =>
    obtain ⟨taken, rfl, hdrain⟩ := ih
    have hbrings := brings_lexeme hg hposition hclass hmax (.inl rfl)
    have hfuel : (x :: xs).length + fuel = xs.length + fuel + 1 := by
      rw [List.length_cons]
      omega
    refine ⟨gap ++ x.text.toList ++ taken, by simp, ?_⟩
    rw [hfuel, drain_of_brings_ok hbrings hclass.ne_endOfInput, hdrain,
      Position.advanceBy_append p (gap ++ x.text.toList)]
    rfl

/-- A text whose lexemes end in an error splits into its lexemes and a defect behind a gap. -/
theorem splits_of_drain_error {fuel : Nat} {p : Position} {text : List Char} {body : List Lexeme}
    {d : Diagnostic} (h : drain fuel (before p text []) = body.map .ok ++ [.error d]) :
    ∃ taken gap rest, text = taken ++ (gap ++ rest) ∧ Splits p text body (gap ++ rest) ∧ Gap gap ∧
      ∃ defect : Defect, defect.Reports (p.advanceBy (taken ++ gap)) rest d := by
  induction fuel generalizing p text body with
  | zero => simp [drain] at h
  | succ fuel ih =>
    obtain ⟨gap, rest, rfl, hg, hfront⟩ := exists_front text
    cases hfront with
    | ended =>
      rw [List.append_nil, drain_of_brings_end (brings_end p hg) rfl] at h
      cases body <;> simp at h
    | @stray c rest hc =>
      rw [drain_of_brings_error (brings_stray p [] hg hc (before p [] []))] at h
      cases body with
      | nil =>
        obtain rfl : Diagnostic.located (.unexpectedCharacter c) (p.advanceBy gap) = d := by
          simpa using h
        exact ⟨[], gap, c :: rest, rfl, .done, hg, .stray, c, rest, rfl,
          Mode.startsNothing_of_enter hc, rfl⟩
      | cons x body => simp at h
    | @piece text rest mode hr hm hstop =>
      have hbrings := brings_stopped p [] hg hr hm hstop (.inl rfl)
      cases hstopped : stopped mode text rest (p.advanceBy gap) (p.advanceBy (gap ++ text)) with
      | error d' =>
        rw [hstopped] at hbrings
        rw [drain_of_brings_error hbrings] at h
        cases body with
        | nil =>
          obtain rfl : d' = d := by simpa using h
          rw [Position.advanceBy_append] at hstopped
          exact ⟨[], gap, text ++ rest, rfl, .done, hg,
            exists_reports_of_stopped hr hm hstop hstopped⟩
        | cons x body => simp at h
      | ok x =>
        rw [hstopped] at hbrings
        obtain ⟨rfl, hposition, hclass, hmax⟩ := inClass_of_stopped hr hm hstop hstopped
        rw [drain_of_brings_ok hbrings hclass.ne_endOfInput] at h
        cases body with
        | nil => simp at h
        | cons y body =>
          simp only [List.map_cons, List.cons_append, List.cons.injEq, Except.ok.injEq] at h
          obtain ⟨rfl, h⟩ := h
          obtain ⟨taken, gap', rest, rfl, hsplits, hgap, defect, hreports⟩ := ih h
          refine ⟨gap ++ x.text.toList ++ taken, gap', rest, by simp,
            .lexeme hg hposition hclass hmax hsplits, hgap, defect, ?_⟩
          rwa [List.append_assoc, Position.advanceBy_append]

theorem drain_ends {fuel : Nat} {l : Lexer} (hl : l.mode = .start)
    (hfuel : l.upcoming.length < fuel) :
    (∃ (body : List Lexeme) (d : Diagnostic), drain fuel l = body.map .ok ++ [.error d]) ∨
      ∃ body final, drain fuel l = (body ++ [final]).map .ok ∧ final.kind = .endOfInput := by
  induction fuel generalizing l with
  | zero => exact absurd hfuel (Nat.not_lt_zero _)
  | succ fuel ih =>
    cases hn : next l with
    | error d l' => exact .inl ⟨[], d, by simp [drain, hn]⟩
    | ok x l' =>
      by_cases hx : x.kind = .endOfInput
      · exact .inr ⟨[], x, by simp [drain, hn, hx], hx⟩
      · obtain ⟨hl', hshorter⟩ := next_ok hl hn
        have hlt := (hshorter.resolve_left hx).2
        rcases ih hl' (by omega) with ⟨body, d, hdrain⟩ | ⟨body, final, hdrain, hfinal⟩
        · exact .inl ⟨x :: body, d, by simp [drain, hn, hx, hdrain]⟩
        · exact .inr ⟨x :: body, final, by simp [drain, hn, hx, hdrain], hfinal⟩

end Lexer

/-- A text that is laid out as its lexemes splits into them. -/
theorem Layout.splits {p : Position} {text last : List Char} {xs : List Lexeme}
    {pieces : List Piece} (h : Layout p text xs pieces last) : Lexer.Splits p text xs last := by
  induction pieces generalizing p text xs with
  | nil =>
    obtain rfl : xs = [] := List.eq_nil_of_length_eq_zero h.length.symm
    obtain rfl : text = last := h.whole
    exact .done
  | cons piece pieces ih =>
    obtain ⟨x, xs, rfl⟩ := List.exists_cons_of_length_eq_add_one h.length.symm
    obtain rfl : x = ⟨piece.token.text, piece.token.kind, p.advanceBy piece.gap⟩ := by
      simpa using h.located [] piece pieces rfl
    have hbehind : Layout (p.advanceBy piece.text) (written pieces ++ last) xs pieces last := by
      constructor
      case whole => rfl
      case length => exact Nat.succ.inj h.length
      case gaps => exact fun q hq => h.gaps q (List.mem_cons_of_mem _ hq)
      case inClass => exact fun q hq => h.inClass q (List.mem_cons_of_mem _ hq)
      case maximal =>
        intro before q after hsplit
        exact h.maximal (piece :: before) q after (by rw [hsplit]; rfl)
      case located =>
        intro before q after hsplit
        have hlocated := h.located (piece :: before) q after (by rw [hsplit]; rfl)
        simpa [Piece.text, Position.advanceBy_append] using hlocated
    have hg := h.gaps piece (by simp)
    have hclass := h.inClass piece (by simp)
    have hmax := h.maximal [] piece pieces rfl
    rw [h.whole, written_cons, List.append_assoc, List.append_assoc]
    exact .lexeme (x := ⟨_, _, p.advanceBy piece.gap⟩) hg rfl hclass hmax (ih hbehind)

/-- The lexemes of a text end in an error exactly if the text is laid out as the lexemes before it, a
gap and one defect, and the error is what the defect is reported as. A text without a defect is lexed
to its end. -/
theorem lexical_errors_exact (source : String) :
    (∀ body d, Lexer.lexemes (.ofText source) = body.map .ok ++ [.error d] ↔
      ∃ pieces gap rest, Layout {} source.toList body pieces (gap ++ rest) ∧ Gap gap ∧
        ∃! defect : Defect,
          defect.Reports (Position.advanceBy {} (written pieces ++ gap)) rest d) ∧
    ((∃ (body : List Lexeme) (d : Diagnostic),
        Lexer.lexemes (.ofText source) = body.map .ok ++ [.error d]) ∨
      ∃ body final, Lexer.lexemes (.ofText source) = (body ++ [final]).map .ok ∧
        final.kind = .endOfInput) := by
  rw [Lexer.lexemes, Lexer.ofInput_ofText]
  refine ⟨fun body d => ⟨fun h => ?_, ?_⟩, ?_⟩
  · obtain ⟨taken, gap, rest, htext, hsplits, hg, defect, hreports⟩ :=
      Lexer.splits_of_drain_error h
    obtain ⟨pieces, hlayout⟩ := hsplits.exists_layout
    have htaken : taken = written pieces :=
      List.append_cancel_right (htext.symm.trans hlayout.whole)
    rw [htaken] at hreports
    refine ⟨pieces, gap, rest, hlayout, hg, defect, hreports, ?_⟩
    intro other hother
    exact (Lexer.eq_suspect_of_reports hother).trans (Lexer.eq_suspect_of_reports hreports).symm
  · rintro ⟨pieces, gap, rest, hlayout, hg, defect, hreports, -⟩
    have hsplits := hlayout.splits
    have hlength := hsplits.length_le
    have hfuel : (Input.ofText source).items.length + 1 =
        body.length + ((source.toList.length - body.length) + 1) := by
      simp only [Input.ofText, List.length_map]
      omega
    obtain ⟨taken, htext, hdrain⟩ := hsplits.drain_eq (source.toList.length - body.length + 1)
    have htaken : taken = written pieces :=
      List.append_cancel_right (htext.symm.trans hlayout.whole)
    rw [Position.advanceBy_append, ← htaken] at hreports
    have hbrings := Lexer.brings_of_reports hg hreports (Lexer.before {} [] [])
    rw [hfuel, hdrain, Lexer.drain_of_brings_error hbrings]
  · refine Lexer.drain_ends rfl ?_
    simp [Lexer.before, Input.ofText]

/-- A backslash at the end escapes nothing that could close the string. -/
example : Lexer.lexemes (.ofText "x \"a\\") =
    [.ok ⟨"x", .identifier, ⟨1, 1⟩⟩, .error (.located .unterminatedString ⟨1, 3⟩)] := by
  decide +kernel

end OnePass
