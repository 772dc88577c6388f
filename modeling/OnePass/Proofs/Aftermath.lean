import OnePass.Proofs.LexicalErrors

/-! # Behind the end and behind an error

The lexer can be pulled again when the end has come or a pull has failed. At the end, and where no
character leads on, it stays where it is, and each pull brings what the automaton stopped with. Only
a number that is out of range has been read as a lexeme: behind it the lexer goes on with the rest
of the text.
-/
namespace OnePass

namespace Lexer

/-! ## Pulling at a standstill -/

theorem pulls_of_next_ok {l : Lexer} {x : Lexeme} (h : next l = .ok x l) (n : Nat) :
    pulls n l = List.replicate n (.ok x) := by
  induction n with
  | zero => rfl
  | succ n ih =>
    rw [pulls, h]
    simp only [ih, List.replicate_succ]

theorem pulls_of_next_error {l : Lexer} {d : Diagnostic} (h : next l = .error d l) (n : Nat) :
    pulls n l = List.replicate n (.error d) := by
  induction n with
  | zero => rfl
  | succ n ih =>
    rw [pulls, h]
    simp only [ih, List.replicate_succ]

theorem length_pulls (n : Nat) (l : Lexer) : (pulls n l).length = n := by
  induction n generalizing l with
  | zero => rfl
  | succ n ih =>
    rw [pulls]
    cases next l with
    | ok x l' => simp [ih]
    | error d l' => simp [ih]

/-- How an error is repeated that has left the lexer where it stopped. What is not closed is
reported where it begins, and from then on at the end of the input. -/
inductive Repeats (final : Position) : Diagnostic → Diagnostic → Prop
  | character (c : Char) (p : Position) :
    Repeats final (.located (.unexpectedCharacter c) p) (.located (.unexpectedCharacter c) p)
  | ending (p : Position) :
    Repeats final (.located .unexpectedEndOfInput p) (.located .unexpectedEndOfInput p)
  | comment (p : Position) :
    Repeats final (.located .unterminatedComment p) (.located .unterminatedComment final)
  | string (p : Position) :
    Repeats final (.located .unterminatedString p) (.located .unterminatedString final)

theorem Repeats.again {final : Position} {d d' : Diagnostic} (h : Repeats final d d') :
    Repeats final d' d' := by
  cases h <;> constructor

/-- The automaton fails where it can neither go on nor end a lexeme, and it stays there. -/
theorem scan_standstill {mode : Mode} {rest : List Char} (hk : mode.terminal? = none)
    (hm : mode ≠ .start ∨ rest ≠ []) (hstop : ∀ c ∈ rest.head?, mode.next c = none)
    (last : Option Char) (reversed : List Char) (start stop : Position) :
    ∃ d d' l, scan last reversed start stop mode (rest.map .char) = .error d l ∧
      next l = .error d' l ∧ ∀ final, (rest = [] → stop = final) → Repeats final d d' := by
  cases rest with
  | cons c rest =>
    have hnext : mode.next c = none := hstop c rfl
    refine ⟨_, _, { upcoming := (c :: rest).map .char, position := stop, mode }, ?_, ?_,
      fun _ _ => .character c stop⟩
    · simp only [List.map_cons, scan, hnext, hk]
    · simp only [next, List.map_cons, scan, hnext, hk]
  | nil =>
    cases mode with
    | start => simp at hm
    | word | digits | less | greater | complete => cases hk
    | colon => exact ⟨_, _, _, rfl, rfl, fun _ _ => .ending stop⟩
    | comment => exact ⟨_, _, _, rfl, rfl, fun _ h => h rfl ▸ .comment start⟩
    | quoted | escaped => exact ⟨_, _, _, rfl, rfl, fun _ h => h rfl ▸ .string start⟩

/-! ## One pull -/

inductive Pull (p : Position) (text : List Char) : EStateM.Result Diagnostic Lexer Lexeme → Prop
  | ended : Pull p text (.ok (.atEnd (p.advanceBy text)) (before (p.advanceBy text) [] []))
  | token {x : Lexeme} {taken rest : List Char} : text = taken ++ rest → x.kind ≠ .endOfInput →
    Pull p text (.ok x (before (p.advanceBy taken) rest []))
  | large {front digits rest : List Char} : text = front ++ (digits ++ rest) → IsNumeral digits →
    (∀ c ∈ rest.head?, c.isDigit = false) →
    Pull p text (.error (.located (.numberOutOfRange (String.ofList digits)) (p.advanceBy front))
      (before (p.advanceBy (front ++ digits)) rest []))
  | standstill {d d' : Diagnostic} {l : Lexer} : Repeats (p.advanceBy text) d d' →
    next l = .error d' l → Pull p text (.error d l)

section Pull

variable {gap : List Char} (p : Position)

theorem pull_stray {c : Char} (rest : List Char) (hg : Gap gap) (hc : Mode.enter c = none) :
    Pull p (gap ++ c :: rest) (next (before p (gap ++ c :: rest) [])) := by
  have hscan : next (before p (gap ++ c :: rest) []) =
      scan (gap.getLast?.or none) [] (p.advanceBy gap) (p.advanceBy gap) .start
        ((c :: rest).map .char) := by
    simp only [next, before, List.map_append, List.append_nil]
    exact scan_gap hg
  have hne : c :: rest ≠ [] := List.cons_ne_nil c rest
  have hk : Mode.start.terminal? = none := rfl
  have hstop : ∀ c' ∈ (c :: rest).head?, Mode.start.next c' = none := by
    simpa [Mode.next] using hc
  obtain ⟨d, d', l, hd, hl, hrepeats⟩ := scan_standstill hk (.inr hne) hstop
    (gap.getLast?.or none) [] (p.advanceBy gap) (p.advanceBy gap)
  rw [hscan, hd]
  exact .standstill (hrepeats _ fun hnil => absurd hnil hne) hl

/-- Behind a piece the automaton ends a lexeme, or it comes to a standstill. -/
theorem pull_piece {text rest : List Char} {mode : Mode} (hg : Gap gap)
    (hr : Mode.reading text = some mode) (hm : mode ≠ .start)
    (hstop : ∀ c ∈ rest.head?, mode.next c = none) :
    Pull p (gap ++ (text ++ rest)) (next (before p (gap ++ (text ++ rest)) [])) := by
  have hscan := next_before p (rest.map .char) hg hr
  have hbefore : before p (gap ++ text) (rest.map .char) =
      before p (gap ++ (text ++ rest)) [] := by simp [before]
  rw [hbefore] at hscan
  cases hk : mode.terminal? with
  | none =>
    obtain ⟨d, d', l, hd, hl, hrepeats⟩ := scan_standstill hk (.inl hm) hstop
      (text.getLast?.or (gap.getLast?.or none)) text.reverse (p.advanceBy gap)
      (p.advanceBy (gap ++ text))
    rw [hscan, hd]
    refine .standstill (hrepeats _ fun hrest => ?_) hl
    rw [hrest, List.append_nil]
  | some kind =>
    have hnil : rest.map Input.Item.char = rest.map .char ++ [] := (List.append_nil _).symm
    rw [hscan, hnil, scan_close _ [] hk hstop (.inl rfl), close, List.reverse_reverse]
    cases hclassify : classify text kind (p.advanceBy gap) with
    | ok x =>
      have hstopped : stopped mode text rest (p.advanceBy gap) (p.advanceBy (gap ++ text)) =
          .ok x := by simpa only [stopped, hk] using hclassify
      obtain ⟨-, -, hclass, -⟩ := inClass_of_stopped hr hm hstop hstopped
      exact .token (List.append_assoc gap text rest).symm hclass.ne_endOfInput
    | error d =>
      obtain ⟨rfl, -, rfl⟩ := classify_error hr hk hclassify
      exact .large rfl (Mode.describes_of_reading hr) (by simpa [Mode.next] using hstop)

theorem pull_next (text : List Char) : Pull p text (next (before p text [])) := by
  obtain ⟨gap, rest, rfl, hg, hfront⟩ := exists_front text
  cases hfront with
  | ended =>
    have hend : next (before p gap []) = _ := brings_end p hg
    rw [List.append_nil, hend]
    exact .ended
  | stray hc => exact pull_stray p _ hg hc
  | piece hr hm hstop => exact pull_piece p hg hr hm hstop

end Pull

/-! ## What is pulled afterwards -/

/-- What is pulled behind an outcome of a lexer before the text. -/
inductive Aftermath (p : Position) (text : List Char) :
    Except Diagnostic Lexeme → List (Except Diagnostic Lexeme) → Prop
  | ended {x : Lexeme} {n : Nat} : x.kind = .endOfInput →
    Aftermath p text (.ok x) (List.replicate n (.ok x))
  | token {x : Lexeme} {later : List (Except Diagnostic Lexeme)} : x.kind ≠ .endOfInput →
    Aftermath p text (.ok x) later
  | large {front digits rest : List Char} {n : Nat} : text = front ++ (digits ++ rest) →
    IsNumeral digits → (∀ c ∈ rest.head?, c.isDigit = false) →
    Aftermath p text (.error (.located (.numberOutOfRange (String.ofList digits))
      (p.advanceBy front))) (pulls n (before (p.advanceBy (front ++ digits)) rest []))
  | standstill {d d' : Diagnostic} {n : Nat} : Repeats (p.advanceBy text) d d' →
    Aftermath p text (.error d) (List.replicate n (.error d'))

variable {p : Position} {text : List Char} {earlier later : List (Except Diagnostic Lexeme)}
  {outcome : Except Diagnostic Lexeme} {n : Nat}

/-- What comes of a text comes of it behind any other text, too. -/
theorem Aftermath.behind {taken : List Char}
    (h : Aftermath (p.advanceBy taken) text outcome later) :
    Aftermath p (taken ++ text) outcome later := by
  cases h with
  | ended hx => exact .ended hx
  | token hx => exact .token hx
  | @large front digits rest n htext hdigits hrest =>
    rw [← Position.advanceBy_append, ← Position.advanceBy_append, ← List.append_assoc]
    exact .large (by rw [htext, List.append_assoc]) hdigits hrest
  | standstill hrepeats =>
    rw [← Position.advanceBy_append] at hrepeats
    exact .standstill hrepeats

theorem eq_of_replicate {o : Except Diagnostic Lexeme}
    (h : List.replicate n o = earlier ++ outcome :: later) :
    outcome = o ∧ later = List.replicate later.length o := by
  obtain ⟨-, -, hbehind⟩ := List.append_eq_replicate_iff.mp h.symm
  obtain ⟨houtcome, hlater⟩ := List.forall_mem_cons.mp (List.eq_replicate_iff.mp hbehind).2
  exact ⟨houtcome, List.eq_replicate_iff.mpr ⟨rfl, hlater⟩⟩

theorem aftermath_of_pulls (h : pulls n (before p text []) = earlier ++ outcome :: later) :
    Aftermath p text outcome later := by
  induction n generalizing p text earlier with
  | zero => simp [pulls] at h
  | succ n ih =>
    have hpull := pull_next p text
    rw [pulls] at h
    generalize next (before p text []) = result at h hpull
    cases hpull with
    | ended =>
      have hstays : next (before (p.advanceBy text) [] []) =
          .ok (.atEnd (p.advanceBy text)) (before (p.advanceBy text) [] []) := rfl
      dsimp only at h
      rw [pulls_of_next_ok hstays, ← List.replicate_succ] at h
      obtain ⟨rfl, hlater⟩ := eq_of_replicate h
      rw [hlater]
      exact .ended rfl
    | token htext hx =>
      cases earlier with
      | nil =>
        obtain ⟨rfl, -⟩ := List.cons.inj h
        exact .token hx
      | cons first earlier =>
        rw [htext]
        exact (ih (List.cons.inj h).2).behind
    | @large front digits rest htext hdigits hrest =>
      cases earlier with
      | nil =>
        obtain ⟨rfl, rfl⟩ := List.cons.inj h
        exact .large htext hdigits hrest
      | cons first earlier =>
        rw [htext, ← List.append_assoc]
        exact (ih (List.cons.inj h).2).behind
    | standstill hrepeats hl =>
      dsimp only at h
      rw [pulls_of_next_error hl] at h
      cases earlier with
      | nil =>
        obtain ⟨rfl, rfl⟩ := List.cons.inj h
        exact .standstill hrepeats
      | cons first earlier =>
        obtain ⟨rfl, hlater⟩ := eq_of_replicate (List.cons.inj h).2
        rw [hlater]
        exact .standstill hrepeats.again

end Lexer

/-- What is pulled behind an outcome. The end of the input comes again and again, and so does a
character that leads nowhere or a lexeme that is cut off. What is not closed is reported at the end
of the text from then on. Behind a number out of range the lexer is one at the rest of the text. So
no other error is followed by anything but errors. -/
theorem pulls_afterwards (source : String) {n : Nat}
    {earlier later : List (Except Diagnostic Lexeme)} {outcome : Except Diagnostic Lexeme}
    (h : Lexer.pulls n (.ofInput (.ofText source)) = earlier ++ outcome :: later) :
    (∀ x, outcome = .ok x → x.kind = .endOfInput → ∀ o ∈ later, o = outcome) ∧
    (∀ c p, outcome = .error (.located (.unexpectedCharacter c) p) → ∀ o ∈ later, o = outcome) ∧
    (∀ p, outcome = .error (.located .unexpectedEndOfInput p) → ∀ o ∈ later, o = outcome) ∧
    (∀ p, outcome = .error (.located .unterminatedComment p) → ∀ o ∈ later,
      o = .error (.located .unterminatedComment (Position.advanceBy {} source.toList))) ∧
    (∀ p, outcome = .error (.located .unterminatedString p) → ∀ o ∈ later,
      o = .error (.located .unterminatedString (Position.advanceBy {} source.toList))) ∧
    (∀ number p, outcome = .error (.located (.numberOutOfRange number) p) →
      ∃ front digits rest, source.toList = front ++ (digits ++ rest) ∧
        IsNumeral digits ∧ (∀ c ∈ rest.head?, c.isDigit = false) ∧
        number = String.ofList digits ∧ p = Position.advanceBy {} front ∧
        later = Lexer.pulls later.length
          { Lexer.ofInput (.ofText (String.ofList rest)) with
            position := Position.advanceBy {} (front ++ digits) }) ∧
    ∀ d, outcome = .error d → (∀ number p, d ≠ .located (.numberOutOfRange number) p) →
      ∀ o ∈ later, ∃ d', o = .error d' := by
  rw [Lexer.ofInput_ofText] at h
  have hafter := Lexer.aftermath_of_pulls h
  have hstill : ∀ d, outcome = .error d →
      (∀ number p, d ≠ .located (.numberOutOfRange number) p) →
      ∃ d', Lexer.Repeats (Position.advanceBy {} source.toList) d d' ∧
        ∀ o ∈ later, o = .error d' := by
    rintro d rfl hother
    cases hafter with
    | large => exact absurd rfl (hother _ _)
    | standstill hrepeats => exact ⟨_, hrepeats, fun o ho => List.eq_of_mem_replicate ho⟩
  refine ⟨?_, ?_, ?_, ?_, ?_, ?_, ?_⟩
  · rintro x rfl hx
    cases hafter with
    | ended => exact fun o ho => List.eq_of_mem_replicate ho
    | token hother => exact absurd hx hother
  · rintro c p rfl
    obtain ⟨d', ⟨⟩, hlater⟩ := hstill _ rfl nofun
    exact hlater
  · rintro p rfl
    obtain ⟨d', ⟨⟩, hlater⟩ := hstill _ rfl nofun
    exact hlater
  · rintro p rfl
    obtain ⟨d', ⟨⟩, hlater⟩ := hstill _ rfl nofun
    exact hlater
  · rintro p rfl
    obtain ⟨d', ⟨⟩, hlater⟩ := hstill _ rfl nofun
    exact hlater
  · rintro number p rfl
    cases hafter with
    | @large front digits rest n htext hdigits hrest =>
      refine ⟨front, digits, rest, htext, hdigits, hrest, rfl, rfl, ?_⟩
      rw [Lexer.length_pulls, Lexer.ofInput_ofText, String.toList_ofList]
      rfl
    | standstill hrepeats => cases hrepeats
  · intro d hd hother o ho
    obtain ⟨d', -, hlater⟩ := hstill d hd hother
    exact ⟨d', hlater o ho⟩

/-- A number out of range, a name behind it, and a comment that is not closed. -/
theorem pulls_afterwards_of_number :
    Lexer.pulls 4 (.ofInput (.ofText "4294967296x \x7b")) =
      [] ++ .error (.located (.numberOutOfRange "4294967296") ⟨1, 1⟩) ::
        [.ok ⟨"x", .identifier, ⟨1, 11⟩⟩, .error (.located .unterminatedComment ⟨1, 13⟩),
          .error (.located .unterminatedComment ⟨1, 14⟩)] ∧
    ∃ front digits rest, "4294967296x \x7b".toList = front ++ (digits ++ rest) ∧
      "4294967296" = String.ofList digits ∧
      [.ok ⟨"x", .identifier, ⟨1, 11⟩⟩, .error (.located .unterminatedComment ⟨1, 13⟩),
          .error (.located .unterminatedComment ⟨1, 14⟩)] =
        Lexer.pulls 3 { Lexer.ofInput (.ofText (String.ofList rest)) with
          position := Position.advanceBy {} (front ++ digits) } := by
  have h : Lexer.pulls 4 (.ofInput (.ofText "4294967296x \x7b")) =
      [] ++ .error (.located (.numberOutOfRange "4294967296") ⟨1, 1⟩) ::
        [.ok ⟨"x", .identifier, ⟨1, 11⟩⟩, .error (.located .unterminatedComment ⟨1, 13⟩),
          .error (.located .unterminatedComment ⟨1, 14⟩)] := by decide +kernel
  obtain ⟨front, digits, rest, htext, -, -, hnumber, -, hlater⟩ :=
    (pulls_afterwards _ h).2.2.2.2.2.1 _ _ rfl
  exact ⟨h, front, digits, rest, htext, hnumber, hlater⟩

end OnePass
