import OnePass.Compile
import OnePass.Proofs.Tokenization

/-! # Programs read in pieces

A program that is read gives the characters of its text, however the bytes are cut into reads. Where
a line is lost, the characters are those of the complete lines before it, with the failure behind
them: the lexemes are those of these lines, and the failure stands in place of the end of the input
or of a comment or string that was not closed before. The reads bring at least one byte each: a read
without bytes is how the end of a program is told.
-/
namespace OnePass

/-! ## Encoded characters -/

theorem mem_utf8EncodeChar {c : Char} : (0x0A : UInt8) ∈ String.utf8EncodeChar c ↔ c = '\n' := by
  constructor
  · intro h
    have hmod {k : Nat} (hk : (0x0A : UInt8) = UInt8.ofNat k) : k % 256 = 10 := by
      have htoNat := congrArg UInt8.toNat hk
      simpa using htoNat.symm
    have hvalue : c.val.toNat = 10 := by
      simp only [String.utf8EncodeChar] at h
      split_ifs at h <;> simp only [List.mem_cons, List.not_mem_nil, or_false] at h
      · have := hmod h
        omega
      · rcases h with h | h <;> have := hmod h <;> omega
      · rcases h with h | h | h <;> have := hmod h <;> omega
      · rcases h with h | h | h | h <;> have := hmod h <;> omega
    apply Char.ext
    exact UInt32.toNat_inj.mp hvalue
  · rintro rfl
    decide

theorem mem_flatMap_utf8EncodeChar {text : List Char} :
    (0x0A : UInt8) ∈ text.flatMap String.utf8EncodeChar ↔ '\n' ∈ text := by
  simp [List.mem_flatMap, mem_utf8EncodeChar]

theorem toList_toUTF8 (text : String) :
    text.toUTF8.data.toList = text.toList.flatMap String.utf8EncodeChar := by
  rw [String.toUTF8_eq_toByteArray, ← String.utf8Encode_toList, List.utf8Encode,
    List.data_toByteArray]

namespace Input

theorem decodeLine_encoded (text : List Char) :
    decodeLine (text.flatMap String.utf8EncodeChar) = text.map .char := by
  have harray : (⟨(text.flatMap String.utf8EncodeChar).toArray⟩ : ByteArray) = text.utf8Encode := by
    rw [List.utf8Encode, ByteArray.ext_iff, List.data_toByteArray]
  simp only [decodeLine, harray, List.utf8Decode?_utf8Encode]

theorem decodeLine_invalid {bytes : List UInt8} (h : ¬ bytes.toByteArray.IsValidUTF8) :
    decodeLine bytes = [.failure .invalidUtf8] := by
  have harray : (⟨bytes.toArray⟩ : ByteArray) = bytes.toByteArray := by
    rw [ByteArray.ext_iff, List.data_toByteArray]
  have hnone : ByteArray.utf8Decode? bytes.toByteArray = none := by
    rwa [← ByteArray.isSome_utf8Decode?_iff, Bool.not_eq_true, Option.isSome_eq_false_iff,
      Option.isNone_iff_eq_none] at h
  simp only [decodeLine, harray, hnone]

/-! ## Lines -/

/-- Reads one line: the bytes up to and including a line feed or up to the end. A failing read loses
the bytes before it, a read without bytes ends the line. -/
def readLine : List Signal → Except String (List UInt8) × List Signal
  | [] => (.ok [], [])
  | .byte b :: rest =>
    if b = 0x0A then (.ok [b], rest)
    else ((readLine rest).1.map (b :: ·), (readLine rest).2)
  | .failure message :: rest => (.error message, rest)
  | .nothing :: rest => (.ok [], rest)

theorem readLine_subset (s : List Signal) : (readLine s).2 ⊆ s := by
  induction s with
  | nil => exact List.Subset.refl _
  | cons signal s ih =>
    cases signal with
    | byte b =>
      by_cases hb : b = 0x0A
      · rw [readLine, if_pos hb]
        exact List.subset_cons_self _ _
      · rw [readLine, if_neg hb]
        exact List.subset_cons_of_subset _ ih
    | failure message => exact List.subset_cons_self _ _
    | nothing => exact List.subset_cons_self _ _

theorem gather_eq (pending : List UInt8) {s : List Signal} (hs : .nothing ∉ s) :
    gather pending s =
      match readLine s with
      | (.ok bytes, rest) =>
        (if pending.reverse ++ bytes = [] then [] else decodeLine (pending.reverse ++ bytes)) ++
          gather [] rest
      | (.error message, rest) => .failure (.device message) :: gather [] rest := by
  induction s generalizing pending with
  | nil =>
    cases pending <;> simp [gather, readLine]
  | cons signal rest ih =>
    cases signal with
    | nothing => exact absurd List.mem_cons_self hs
    | failure message => rfl
    | byte b =>
      by_cases hb : b = 0x0A
      · simp [gather, readLine, hb]
      · rw [gather, if_neg hb, ih _ (List.not_mem_of_not_mem_cons hs), readLine, if_neg hb]
        cases hline : readLine rest with
        | mk outcome rest =>
          cases outcome with
          | ok bytes => simp [Except.map]
          | error message => rfl

theorem exists_line {s rest : List Signal} {bytes : List UInt8} (hs : .nothing ∉ s)
    (h : readLine s = (.ok bytes, rest)) (hrest : rest ≠ []) :
    ∃ inner, bytes = inner ++ [0x0A] ∧ (0x0A : UInt8) ∉ inner := by
  induction s generalizing bytes with
  | nil =>
    simp only [readLine, Prod.mk.injEq] at h
    exact absurd h.2.symm hrest
  | cons signal s ih =>
    cases signal with
    | nothing => exact absurd List.mem_cons_self hs
    | failure message => simp [readLine] at h
    | byte b =>
      by_cases hb : b = 0x0A
      · simp only [readLine, hb, if_true, Prod.mk.injEq, Except.ok.injEq] at h
        exact ⟨[], h.1.symm, by simp⟩
      · simp only [readLine, hb, if_false, Prod.mk.injEq] at h
        obtain ⟨hmap, hrest'⟩ := h
        cases hline : (readLine s).1 with
        | error message => simp [hline, Except.map] at hmap
        | ok tail =>
          obtain ⟨inner, rfl, hinner⟩ := ih (List.not_mem_of_not_mem_cons hs) (Prod.ext hline hrest')
          obtain rfl : b :: (inner ++ [0x0A]) = bytes := by simpa [hline, Except.map] using hmap
          exact ⟨b :: inner, rfl, by simp [hinner, Ne.symm hb]⟩

/-! ## Reads without failures -/

theorem gather_bytes {bytes : List UInt8} (h : (0x0A : UInt8) ∉ bytes) (pending : List UInt8)
    (s : List Signal) :
    gather pending (bytes.map .byte ++ s) = gather (bytes.reverse ++ pending) s := by
  induction bytes generalizing pending with
  | nil => rfl
  | cons b bytes ih =>
    have hb : b ≠ 0x0A := fun heq => h (by simp [heq])
    have hbytes : (0x0A : UInt8) ∉ bytes := fun hmem => h (by simp [hmem])
    rw [List.map_cons, List.cons_append, gather, if_neg hb, ih hbytes]
    simp

/-- The encoded characters give the characters, with those of the line begun before. -/
theorem gather_encoded (begun text : List Char) :
    gather (begun.flatMap String.utf8EncodeChar).reverse
        ((text.flatMap String.utf8EncodeChar).map .byte) =
      (begun ++ text).map .char := by
  induction text generalizing begun with
  | nil =>
    cases begun with
    | nil => rfl
    | cons c begun =>
      have hne : ((c :: begun).flatMap String.utf8EncodeChar).reverse.isEmpty = false := by simp
      rw [List.flatMap_nil, List.map_nil, gather, hne, if_neg Bool.false_ne_true,
        List.reverse_reverse, decodeLine_encoded, List.append_nil]
  | cons c text ih =>
    by_cases hc : c = '\n'
    · have hfeed : String.utf8EncodeChar '\n' = [0x0A] := by decide
      have hline : ((0x0A : UInt8) :: (begun.flatMap String.utf8EncodeChar).reverse).reverse =
          (begun ++ ['\n']).flatMap String.utf8EncodeChar := by
        simp [hfeed]
      have hrest := ih []
      rw [List.flatMap_nil, List.reverse_nil] at hrest
      rw [hc, List.flatMap_cons, hfeed, List.map_append, List.map_cons, List.map_nil,
        List.singleton_append, gather, if_pos rfl, hline, decodeLine_encoded, hrest]
      simp
    · have hfree : (0x0A : UInt8) ∉ String.utf8EncodeChar c := fun h => hc (mem_utf8EncodeChar.mp h)
      have hbegun := ih (begun ++ [c])
      rw [List.flatMap_append, List.flatMap_singleton, List.reverse_append] at hbegun
      rw [List.flatMap_cons, List.map_append, gather_bytes hfree, hbegun]
      simp

end Input

def ReadEvent.data : ReadEvent → List UInt8
  | bytes data => data
  | failure _ | interrupted => []

theorem signals_of_reads {events : List ReadEvent} (hbring : .bytes [] ∉ events)
    (h : ∀ message, .failure message ∉ events) :
    Input.signals events = (events.flatMap ReadEvent.data).map .byte := by
  induction events with
  | nil => rfl
  | cons event events ih =>
    have hevents := ih (List.not_mem_of_not_mem_cons hbring)
      fun message hmem => h message (List.mem_cons_of_mem _ hmem)
    rw [Input.signals] at hevents ⊢
    rw [List.flatMap_cons, List.flatMap_cons, List.map_append, hevents]
    cases event with
    | failure message => exact absurd List.mem_cons_self (h message)
    | interrupted => rfl
    | bytes data =>
      cases data with
      | nil => exact absurd List.mem_cons_self hbring
      | cons b data => rfl

theorem nothing_notMem_signals {events : List ReadEvent} (hbring : .bytes [] ∉ events) :
    .nothing ∉ Input.signals events := by
  intro hmem
  obtain ⟨event, hevent, hmem⟩ := List.mem_flatMap.mp hmem
  cases event with
  | failure message => simp at hmem
  | interrupted => cases hmem
  | bytes data =>
    cases data with
    | nil => exact hbring hevent
    | cons b data => simp at hmem

/-- A text that is read without failure is the text, however it is cut into reads. -/
theorem ofReads_eq_ofText {text : String} {events : List ReadEvent}
    (hdata : events.flatMap ReadEvent.data = text.toUTF8.data.toList)
    (hbring : .bytes [] ∉ events) (hok : ∀ message, .failure message ∉ events) :
    Input.ofReads events = .ofText text := by
  have hgather := Input.gather_encoded [] text.toList
  rw [List.flatMap_nil, List.reverse_nil, List.nil_append] at hgather
  rw [Input.ofReads, signals_of_reads hbring hok, hdata, toList_toUTF8, hgather, Input.ofText]

/-- Reading a text in pieces and having it as a whole give the same lexemes and failures, pull by
pull, and the same result of compiling. -/
theorem reads_agree_with_text {distance : String → String → Nat} [NameDistance distance]
    (text : String) (events : List ReadEvent)
    (hdata : events.flatMap ReadEvent.data = text.toUTF8.data.toList)
    (hbring : .bytes [] ∉ events) (hok : ∀ message, .failure message ∉ events) :
    Lexer.lexemes (.ofReads events) = Lexer.lexemes (.ofText text) ∧
      (∀ n, Lexer.pulls n (.ofInput (.ofReads events)) = Lexer.pulls n (.ofInput (.ofText text))) ∧
      ∀ (τ : Type) [Target τ], compile τ (.ofReads events) = compile τ (.ofText text) := by
  rw [ofReads_eq_ofText hdata hbring hok]
  exact ⟨rfl, fun _ => rfl, fun _ _ => rfl⟩

def cutReads : List ReadEvent :=
  [.bytes [0xC3], .interrupted, .bytes [0xA9, 0x20, 0x3A, 0x3D, 0x20], .bytes [0x31, 0x0A, 0x23]]

theorem reads_agree_with_cutText :
    cutReads.flatMap ReadEvent.data = "é := 1\n#".toUTF8.data.toList ∧ .bytes [] ∉ cutReads ∧
      (∀ message, .failure message ∉ cutReads) ∧
      Lexer.lexemes (.ofReads cutReads) = Lexer.lexemes (.ofText "é := 1\n#") ∧
      Lexer.pulls 5 (.ofInput (.ofReads cutReads)) =
        Lexer.pulls 5 (.ofInput (.ofText "é := 1\n#")) ∧
      compile Assembly (.ofReads cutReads) = compile Assembly (.ofText "é := 1\n#") := by
  have hdata : cutReads.flatMap ReadEvent.data = "é := 1\n#".toUTF8.data.toList := by
    decide +kernel
  have hbring : .bytes [] ∉ cutReads := by simp [cutReads]
  have hok : ∀ message, .failure message ∉ cutReads := by simp [cutReads]
  obtain ⟨hlexemes, hpulls, hcompile⟩ :=
    reads_agree_with_text "é := 1\n#" cutReads hdata hbring hok
  exact ⟨hdata, hbring, hok, hlexemes, hpulls 5, hcompile Assembly⟩

/-! ## Lost lines -/

namespace Input

/-- The lines that are read before the first one that is lost, and why it is lost: a read fails, or
the bytes of the line are not UTF-8. -/
inductive Loses : List Signal → List String → ReadFailure → Prop
  | device {s rest : List Signal} {message : String} :
    readLine s = (.error message, rest) → Loses s [] (.device message)
  | undecodable {s rest : List Signal} {bytes : List UInt8} :
    readLine s = (.ok bytes, rest) → ¬ bytes.toByteArray.IsValidUTF8 → Loses s [] .invalidUtf8
  | line {s rest : List Signal} {line : String} {lines : List String} {reason : ReadFailure} :
    readLine s = (.ok line.toUTF8.data.toList, rest) → Loses rest lines reason →
    Loses s (line :: lines) reason

theorem Loses.ne_nil {s : List Signal} {lines : List String} {reason : ReadFailure}
    (h : Loses s lines reason) : s ≠ [] := by
  induction h with
  | device hline =>
    rintro rfl
    cases hline
  | undecodable hline hinvalid =>
    rintro rfl
    cases hline
    exact hinvalid ByteArray.isValidUTF8_empty
  | line hline _ ih =>
    rintro rfl
    exact ih (congrArg Prod.snd hline).symm

def IsLine (line : String) : Prop :=
  ∃ inner, line.toList = inner ++ ['\n'] ∧ '\n' ∉ inner

theorem isLine_of_bytes {line : String} {inner : List UInt8}
    (h : line.toUTF8.data.toList = inner ++ [0x0A]) (hinner : (0x0A : UInt8) ∉ inner) :
    IsLine line := by
  rw [toList_toUTF8] at h
  rcases List.eq_nil_or_concat line.toList with hnil | ⟨before, c, hconcat⟩
  · simp [hnil] at h
  · rw [List.concat_eq_append] at hconcat
    rw [hconcat, List.flatMap_append, List.flatMap_singleton] at h
    have hlast : (String.utf8EncodeChar c).getLast? = some 0x0A := by
      have := congrArg List.getLast? h
      rwa [List.getLast?_append_of_ne_nil _ String.utf8EncodeChar_ne_nil,
        List.getLast?_concat] at this
    obtain rfl : c = '\n' := mem_utf8EncodeChar.mp (List.mem_of_getLast? hlast)
    have hbefore : before.flatMap String.utf8EncodeChar = inner :=
      (List.append_left_inj [0x0A]).mp h
    refine ⟨before, hconcat, ?_⟩
    rwa [← hbefore, mem_flatMap_utf8EncodeChar] at hinner

theorem nothing_notMem_rest {s rest : List Signal} {outcome : Except String (List UInt8)}
    (h : readLine s = (outcome, rest)) (hs : .nothing ∉ s) : .nothing ∉ rest := by
  intro hmem
  have hrest : (readLine s).2 = rest := by rw [h]
  exact hs (readLine_subset s (hrest ▸ hmem))

theorem Loses.isLine {s : List Signal} {lines : List String} {reason : ReadFailure}
    (h : Loses s lines reason) (hs : .nothing ∉ s) : ∀ line ∈ lines, IsLine line := by
  induction h with
  | device | undecodable => simp
  | @line s rest line lines reason hline hloses ih =>
    obtain ⟨inner, hbytes, hinner⟩ := exists_line hs hline hloses.ne_nil
    have hlater := ih (nothing_notMem_rest hline hs)
    exact List.forall_mem_cons.mpr ⟨isLine_of_bytes hbytes hinner, hlater⟩

/-- The items are the characters of the lines and then the failure. -/
theorem Loses.exists_items {s : List Signal} {lines : List String} {reason : ReadFailure}
    (h : Loses s lines reason) (hs : .nothing ∉ s) :
    ∃ more, gather [] s = (String.join lines).toList.map .char ++ .failure reason :: more := by
  induction h with
  | @device s rest message hline =>
    refine ⟨gather [] rest, ?_⟩
    rw [gather_eq [] hs, hline]
    rfl
  | @undecodable s rest bytes hline hinvalid =>
    have hne : bytes ≠ [] := by
      rintro rfl
      exact hinvalid ByteArray.isValidUTF8_empty
    refine ⟨gather [] rest, ?_⟩
    rw [gather_eq [] hs, hline]
    simp [hne, decodeLine_invalid hinvalid]
  | @line s rest line lines reason hline hloses ih =>
    obtain ⟨more, hmore⟩ := ih (nothing_notMem_rest hline hs)
    refine ⟨more, ?_⟩
    obtain ⟨inner, hinner, -⟩ := exists_line hs hline hloses.ne_nil
    have hne : line.toUTF8.data.toList ≠ [] := by
      rw [hinner]
      simp
    have hdecoded : decodeLine line.toUTF8.data.toList = line.toList.map .char := by
      rw [toList_toUTF8, decodeLine_encoded]
    rw [gather_eq [] hs, hline, String.join_cons]
    simp only [List.reverse_nil, List.nil_append, hne, if_false, hdecoded, hmore,
      String.toList_append, List.map_append, List.append_assoc]

theorem length_readLine {s : List Signal} (h : s ≠ []) : (readLine s).2.length < s.length := by
  induction s with
  | nil => exact absurd rfl h
  | cons signal s ih =>
    cases signal with
    | failure message => simp [readLine]
    | nothing => simp [readLine]
    | byte b =>
      by_cases hb : b = 0x0A
      · simp [readLine, hb]
      · rw [readLine, if_neg hb]
        by_cases hs : s = []
        · simp [hs, readLine]
        · exact Nat.lt_succ_of_lt (ih hs)

/-- If reading fails at all, a first line is lost. -/
theorem exists_loses {s : List Signal} (hs : .nothing ∉ s) {failed : ReadFailure}
    (h : .failure failed ∈ gather [] s) : ∃ lines reason, Loses s lines reason := by
  induction hn : s.length using Nat.strongRecOn generalizing s with
  | ind n ih =>
    have hne : s ≠ [] := by
      rintro rfl
      cases h
    have hshorter : (readLine s).2.length < n := hn ▸ length_readLine hne
    rw [gather_eq [] hs] at h
    cases hline : readLine s with
    | mk outcome rest =>
      rw [hline] at h hshorter
      cases outcome with
      | error message => exact ⟨[], _, .device hline⟩
      | ok bytes =>
        by_cases hvalid : bytes.toByteArray.IsValidUTF8
        · -- the line is complete, so the failure comes later
          obtain ⟨text, htext⟩ := hvalid
          have hbytes : bytes = text.flatMap String.utf8EncodeChar := by
            rwa [List.utf8Encode, List.toByteArray_inj] at htext
          have hlater : .failure failed ∈ gather [] rest := by
            rw [hbytes] at h
            simp only [List.reverse_nil, List.nil_append, decodeLine_encoded] at h
            split_ifs at h
            · simpa using h
            · simpa using h
          obtain ⟨lines, reason, hloses⟩ :=
            ih _ hshorter (nothing_notMem_rest hline hs) hlater rfl
          have hencoded : bytes = (String.ofList text).toUTF8.data.toList := by
            rw [toList_toUTF8, String.toList_ofList, hbytes]
          exact ⟨String.ofList text :: lines, reason, .line (hencoded ▸ hline) hloses⟩
        · exact ⟨[], _, .undecodable hline hvalid⟩

theorem line_advanceBy {text : List Char} (h : '\n' ∉ text) (p : Position) :
    (p.advanceBy text).line = p.line := by
  induction text generalizing p with
  | nil => rfl
  | cons c text ih =>
    have hc : c ≠ '\n' := fun heq => h (by simp [heq])
    rw [Position.advanceBy_cons, ih (fun hmem => h (List.mem_cons_of_mem _ hmem)),
      Position.advance_of_ne p hc]

/-- Complete lines lead from the beginning of one line to the beginning of another. -/
theorem advanceBy_lines {lines : List String} (h : ∀ line ∈ lines, IsLine line) (n : Nat) :
    Position.advanceBy ⟨n, 1⟩ (String.join lines).toList = ⟨n + lines.length, 1⟩ := by
  induction lines generalizing n with
  | nil => rfl
  | cons line lines ih =>
    obtain ⟨inner, hline, hinner⟩ := h line List.mem_cons_self
    have hrow : (Position.advanceBy ⟨n, 1⟩ inner).line = n := line_advanceBy hinner _
    rw [String.join_cons, String.toList_append, hline, Position.advanceBy_append,
      Position.advanceBy_append, Position.advanceBy_cons, Position.advanceBy_nil,
      Position.advance_newline, hrow, ih (fun line hmem => h line (List.mem_cons_of_mem _ hmem))]
    simp only [List.length_cons, Position.mk.injEq, and_true]
    omega

def EndsLine (text : List Char) : Prop :=
  ∀ c ∈ text.getLast?, c = '\n'

theorem EndsLine.of_append {xs ys : List Char} (h : EndsLine (xs ++ ys)) : EndsLine ys := by
  intro c hc
  apply h
  rw [List.getLast?_append, Option.mem_def.mp hc]
  rfl

theorem EndsLine.getLast? {text : List Char} (h : EndsLine text) (hne : text ≠ []) :
    text.getLast? = some '\n' := by
  cases hlast : text.getLast? with
  | none => exact absurd (List.getLast?_eq_none_iff.mp hlast) hne
  | some c => rw [h c hlast]

theorem endsLine_join {lines : List String} (h : ∀ line ∈ lines, IsLine line) :
    EndsLine (String.join lines).toList := by
  intro c hc
  rcases List.eq_nil_or_concat lines with rfl | ⟨before, line, rfl⟩
  · simp at hc
  · obtain ⟨inner, hline, -⟩ := h line (by simp)
    rw [List.concat_eq_append, String.join_append, String.toList_append] at hc
    simpa [hline, String.join_cons, eq_comm] using hc

end Input

namespace Lexer

/-- A piece that ends with a line feed is a comment or a string that is still open. -/
theorem Mode.open_of_newline {text : List Char} {mode : Mode} (hr : reading text = some mode)
    (hm : mode ≠ .start) (hlast : text.getLast? = some '\n') :
    mode = .comment ∨ mode = .quoted := by
  have hd := describes_of_reading hr
  have hmem : '\n' ∈ text := List.mem_of_getLast? hlast
  cases mode with
  | start => exact absurd rfl hm
  | comment => exact .inl rfl
  | quoted => exact .inr rfl
  | word =>
    cases text with
    | nil => exact hd.elim
    | cons c cs =>
      rcases List.mem_cons.mp hmem with rfl | hmem
      · exact absurd hd.1 (by decide)
      · exact absurd (hd.2 _ hmem) (by decide)
  | digits => exact absurd (hd.2 _ hmem) (by decide)
  | colon | less | greater =>
    rw [show text = _ from hd] at hlast
    exact absurd hlast (by decide)
  | escaped =>
    obtain ⟨body, -, rfl⟩ := hd
    rw [← List.cons_append, List.getLast?_concat] at hlast
    cases hlast
  | complete kind =>
    rcases hd with ⟨-, body, -, rfl⟩ | hfixed
    · rw [← List.cons_append, List.getLast?_concat] at hlast
      cases hlast
    · have hall : ∀ entry ∈ reservedTexts, '\n' ∉ entry.1.toList := by decide
      exact absurd hmem (by simpa using hall _ hfixed)

/-- What stands at the end of the lexemes when the input is lost behind the text: the failure,
unless the text has an error of its own. -/
def lostEnd (failure : Diagnostic) : Except Diagnostic Lexeme → Diagnostic
  | .ok _ => failure
  | .error d =>
    if d.cause = .unterminatedComment ∨ d.cause = .unterminatedString then failure else d

/-- An error before the end of the text is not about what is still open there. -/
theorem lostEnd_of_stopped {mode : Mode} {text rest : List Char} {start stop : Position}
    {d : Diagnostic} (failure : Diagnostic) (hrest : rest ≠ [])
    (h : stopped mode text rest start stop = .error d) : lostEnd failure (.error d) = d := by
  unfold stopped at h
  split at h
  · unfold classify at h
    dsimp only at h
    split_ifs at h
    cases h
    rfl
  · cases h
    rfl
  · exact absurd rfl hrest

/-- Both lists have the same lexemes before their ends, and the second ends with the failure or with
an error of the first. -/
def CutShort (failure : Diagnostic) (whole cut : List (Except Diagnostic Lexeme)) : Prop :=
  ∃ (xs : List Lexeme) (final : Except Diagnostic Lexeme),
    (∀ x ∈ xs, x.kind ≠ .endOfInput) ∧ (∀ x, final = .ok x → x.kind = .endOfInput) ∧
    whole = xs.map .ok ++ [final] ∧ cut = xs.map .ok ++ [.error (lostEnd failure final)]

theorem cutShort_end {failure : Diagnostic} {final : Except Diagnostic Lexeme}
    (h : ∀ x, final = .ok x → x.kind = .endOfInput) :
    CutShort failure [final] [.error (lostEnd failure final)] :=
  ⟨[], final, by simp, h, rfl, rfl⟩

theorem CutShort.cons {failure : Diagnostic} {whole cut : List (Except Diagnostic Lexeme)}
    {x : Lexeme} (hx : x.kind ≠ .endOfInput) (h : CutShort failure whole cut) :
    CutShort failure (.ok x :: whole) (.ok x :: cut) := by
  obtain ⟨xs, final, hxs, hfinal, rfl, rfl⟩ := h
  exact ⟨x :: xs, final, List.forall_mem_cons.mpr ⟨hx, hxs⟩, hfinal, rfl, rfl⟩

section Lost

variable {gap text rest : List Char} {mode : Mode} {p : Position} {n m : Nat}
  (reason : ReadFailure) (more : List Input.Item)

/-- The input is lost inside a comment or a string. -/
theorem cutShort_open (hg : Gap gap) (hr : Mode.reading text = some mode) (hm : mode ≠ .start)
    (hlast : text.getLast? = some '\n') :
    CutShort (.located (.readFailure reason) (p.advanceBy (gap ++ text)))
      (drain (n + 1) (before p (gap ++ text) []))
      (drain (m + 1) (before p (gap ++ text) (.failure reason :: more))) := by
  have hlost := brings_lost_piece p more hg hr reason (before p [] [])
  have hstop : ∀ c ∈ ([] : List Char).head?, mode.next c = none := by simp
  have hwhole := brings_stopped p [] hg hr hm hstop (.inl rfl)
  rw [List.append_nil] at hwhole
  rw [drain_of_brings_error hlost]
  rcases Mode.open_of_newline hr hm hlast with rfl | rfl
  · rw [drain_of_brings_error hwhole]
    exact cutShort_end nofun
  · rw [drain_of_brings_error hwhole]
    exact cutShort_end nofun

/-- A piece with text behind it is the same whether or not the input is lost later. -/
theorem cutShort_piece {failure : Diagnostic} (hg : Gap gap) (hr : Mode.reading text = some mode)
    (hm : mode ≠ .start) (hstop : ∀ c ∈ rest.head?, mode.next c = none) (hrest : rest ≠ [])
    (h : CutShort failure (drain n (before (p.advanceBy (gap ++ text)) rest []))
      (drain m (before (p.advanceBy (gap ++ text)) rest (.failure reason :: more)))) :
    CutShort failure (drain (n + 1) (before p (gap ++ (text ++ rest)) []))
      (drain (m + 1) (before p (gap ++ (text ++ rest)) (.failure reason :: more))) := by
  have hwhole := brings_stopped p [] hg hr hm hstop (.inl rfl)
  have hcut := brings_stopped p (.failure reason :: more) hg hr hm hstop (.inr hrest)
  cases hstopped : stopped mode text rest (p.advanceBy gap) (p.advanceBy (gap ++ text)) with
  | error d =>
    rw [hstopped] at hwhole hcut
    rw [drain_of_brings_error hwhole, drain_of_brings_error hcut]
    have hkept := lostEnd_of_stopped failure hrest hstopped
    nth_rewrite 2 [← hkept]
    exact cutShort_end nofun
  | ok x =>
    rw [hstopped] at hwhole hcut
    obtain ⟨-, -, hclass, -⟩ := inClass_of_stopped hr hm hstop hstopped
    rw [drain_of_brings_ok hwhole hclass.ne_endOfInput,
      drain_of_brings_ok hcut hclass.ne_endOfInput]
    exact h.cons hclass.ne_endOfInput

/-- When the input is lost behind a text that is empty or ends a line, the lexemes are those of the
text, and the failure takes the place of its end or of what is still open there. -/
theorem cutShort_drain (hend : Input.EndsLine text) (hn : text.length < n) (hm : text.length < m) :
    CutShort (.located (.readFailure reason) (p.advanceBy text)) (drain n (before p text []))
      (drain m (before p text (.failure reason :: more))) := by
  induction n generalizing p text m with
  | zero => exact absurd hn (Nat.not_lt_zero _)
  | succ n ih =>
    obtain ⟨m, rfl⟩ := Nat.exists_eq_succ_of_ne_zero (Nat.ne_of_gt (Nat.zero_lt_of_lt hm))
    obtain ⟨gap, rest, rfl, hg, hfront⟩ := exists_front text
    cases hfront with
    | ended =>
      rw [List.append_nil, drain_of_brings_end (brings_end p hg) rfl,
        drain_of_brings_error (brings_lost_gap p more hg reason (before p [] []))]
      exact cutShort_end fun x hx => Except.ok.inj hx ▸ rfl
    | stray hc =>
      rw [drain_of_brings_error (brings_stray p [] hg hc (before p [] [])),
        drain_of_brings_error (brings_stray p (.failure reason :: more) hg hc (before p [] []))]
      exact cutShort_end nofun
    | @piece text rest mode hr hmode hstop =>
      have hne := Mode.ne_nil_of_reading hr
      by_cases hrest : rest = []
      · subst hrest
        rw [List.append_nil] at hend ⊢
        exact cutShort_open reason more hg hr hmode (hend.of_append.getLast? hne)
      · have hpos : 0 < text.length := List.length_pos_of_ne_nil hne
        simp only [List.length_append] at hn hm
        have hrec : CutShort (.located (.readFailure reason)
            ((p.advanceBy (gap ++ text)).advanceBy rest)) (drain n (before _ rest []))
            (drain m (before _ rest (.failure reason :: more))) :=
          ih hend.of_append.of_append (by omega) (by omega)
        rw [← Position.advanceBy_append, List.append_assoc] at hrec
        exact cutShort_piece reason more hg hr hmode hstop hrest hrec

end Lost

end Lexer

/-- Wherever reading fails, a first line is lost. When a line is lost, the lexemes are those of the
complete lines before it, and the failure, at the beginning of the lost line, takes the place of
their end and of an open comment or string; any other error of these lines comes before it. -/
theorem lexemes_of_lost_input (events : List ReadEvent) (hbring : .bytes [] ∉ events) :
    ((∃ reason, .failure reason ∈ (Input.ofReads events).items) →
      ∃ lines reason, Input.Loses (Input.signals events) lines reason) ∧
    ∀ lines reason, Input.Loses (Input.signals events) lines reason →
      Lexer.CutShort (.located (.readFailure reason) ⟨lines.length + 1, 1⟩)
        (Lexer.lexemes (.ofText (String.join lines))) (Lexer.lexemes (.ofReads events)) := by
  have hsignals := nothing_notMem_signals hbring
  refine ⟨fun ⟨_, hfailed⟩ => Input.exists_loses hsignals hfailed, ?_⟩
  intro lines reason h
  have hlines := h.isLine hsignals
  obtain ⟨more, hitems⟩ := h.exists_items hsignals
  have hposition : Position.advanceBy {} (String.join lines).toList = ⟨lines.length + 1, 1⟩ := by
    rw [Input.advanceBy_lines hlines 1, Nat.add_comm]
  have hread : Lexer.ofInput (.ofReads events) =
      Lexer.before {} (String.join lines).toList (.failure reason :: more) := by
    simp only [Lexer.ofInput, Input.ofReads, Lexer.before, hitems]
  rw [Lexer.lexemes, Lexer.lexemes, Lexer.ofInput_ofText, hread, ← hposition]
  apply Lexer.cutShort_drain reason more (Input.endsLine_join hlines)
  · simp [Input.ofText]
  · simp only [Input.ofReads, hitems, List.length_append, List.length_map]
    omega

def failingReads : List ReadEvent :=
  [.bytes [0x78, 0x3B, 0x0A, 0x7B], .interrupted, .bytes [0x0A, 0x7D, 0x79], .failure "unplugged",
    .bytes [0x7D]]

theorem lexemes_of_failingReads :
    .bytes [] ∉ failingReads ∧ (∃ reason, .failure reason ∈ (Input.ofReads failingReads).items) ∧
      Input.Loses (Input.signals failingReads) ["x;\n", "\x7b\n"] (.device "unplugged") ∧
      Lexer.CutShort (.located (.readFailure (.device "unplugged")) ⟨3, 1⟩)
        (Lexer.lexemes (.ofText (String.join ["x;\n", "\x7b\n"])))
        (Lexer.lexemes (.ofReads failingReads)) := by
  have hbring : .bytes [] ∉ failingReads := by simp [failingReads]
  have hfirst : Input.readLine (Input.signals failingReads) =
      (.ok "x;\n".toUTF8.data.toList, Input.signals [.bytes [0x7B, 0x0A, 0x7D, 0x79],
        .failure "unplugged", .bytes [0x7D]]) := by decide +kernel
  have hsecond : Input.readLine (Input.signals [.bytes [0x7B, 0x0A, 0x7D, 0x79],
      .failure "unplugged", .bytes [0x7D]]) = (.ok "\x7b\n".toUTF8.data.toList,
        Input.signals [.bytes [0x7D, 0x79], .failure "unplugged", .bytes [0x7D]]) := by
    decide +kernel
  have hloses : Input.Loses (Input.signals failingReads) ["x;\n", "\x7b\n"]
      (.device "unplugged") := .line hfirst (.line hsecond (.device rfl))
  have hfailed : .failure (.device "unplugged") ∈ (Input.ofReads failingReads).items := by
    obtain ⟨more, hitems⟩ := hloses.exists_items (nothing_notMem_signals hbring)
    rw [Input.ofReads, hitems]
    simp
  exact ⟨hbring, ⟨_, hfailed⟩, hloses, (lexemes_of_lost_input failingReads hbring).2 _ _ hloses⟩

end OnePass
