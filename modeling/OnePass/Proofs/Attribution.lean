import OnePass.Proofs.Mapping
import OnePass.Proofs.Recycling
import OnePass.Proofs.SyntaxErrors

/-! # The positions of emitted lines

Every line is pushed with the position of the token matched most recently, although the lexer is one
token ahead by then. Only the prologue is pushed before the first token is matched. Positions never
go back, because the lexer never does.
-/
namespace OnePass

section AnyDistance

variable {distance : String → String → Nat} [NameDistance distance]

/-! ## The order of positions -/

namespace Position

theorem le_iff {p q : Position} :
    p ≤ q ↔ p.line < q.line ∨ p.line = q.line ∧ p.column ≤ q.column := by
  have hle : p ≤ q ↔ ((compare p.line q.line).then (compare p.column q.column)).isLE = true := .rfl
  rw [hle, Ordering.isLE_then_iff_or]
  simp only [Nat.isLE_compare, Nat.compare_eq_lt, Nat.compare_eq_eq]

theorem le_refl (p : Position) : p ≤ p := by
  rw [le_iff]
  omega

theorem le_trans {p q r : Position} (hpq : p ≤ q) (hqr : q ≤ r) : p ≤ r := by
  rw [le_iff] at *
  omega

theorem le_advance (p : Position) (c : Char) : p ≤ p.advance c := by
  rw [le_iff, advance]
  split_ifs
  · exact .inl (Nat.lt_succ_self _)
  · exact .inr ⟨rfl, Nat.le_succ _⟩

end Position

namespace Lexer

theorem position_of_close {reversed : List Char} {kind : Terminal} {start position : Position}
    {upcoming : List Input.Item} {x : Lexeme} {l : Lexer}
    (h : close reversed kind start position upcoming = .ok x l) :
    x.position = start ∧ l.position = position := by
  unfold close classify at h
  dsimp only at h
  split_ifs at h
  cases h
  exact ⟨rfl, rfl⟩

theorem position_of_scan {items : List Input.Item} {last : Option Char} {reversed : List Char}
    {start position : Position} {mode : Mode} {x : Lexeme} {l : Lexer} (hle : start ≤ position)
    (h : scan last reversed start position mode items = .ok x l) :
    start ≤ x.position ∧ x.position ≤ l.position := by
  induction items generalizing last reversed start position mode with
  | nil =>
    unfold scan at h
    split at h
    · obtain ⟨hx, hl⟩ := position_of_close h
      rw [hx, hl]
      exact ⟨Position.le_refl _, hle⟩
    · cases mode <;> cases h
      exact ⟨hle, Position.le_refl _⟩
  | cons item rest ih =>
    cases item with
    | failure reason => cases h
    | char c =>
      unfold scan at h
      split at h
      · split_ifs at h
        · obtain ⟨hstart, hstop⟩ := ih (Position.le_advance _ _) h
          exact ⟨Position.le_trans hle hstart, hstop⟩
        · exact ih (Position.le_trans hle (Position.le_advance _ _)) h
      · split at h
        · obtain ⟨hx, hl⟩ := position_of_close h
          rw [hx, hl]
          exact ⟨Position.le_refl _, hle⟩
        · cases h

theorem position_of_next {l l' : Lexer} {x : Lexeme} (h : next l = .ok x l') :
    l.position ≤ x.position ∧ x.position ≤ l'.position :=
  position_of_scan (Position.le_refl _) h

end Lexer

/-! ## Lines of a whole run -/

def Session.added (s s' : Session) : List Emission :=
  s'.workspace.emitter.emitted.toList.drop s.workspace.emitter.emitted.size

/-- The states of a compilation with the tokens matched so far and the lines pushed so far, each of
them with the token that had been matched most recently when it was pushed. -/
inductive Pushed (input : Input) :
    List Lexeme → List (Emission × Option Lexeme) → Session → Prop
  | start {s} : Compiling.start (.ofInput input) = .ok () s → Pushed input [] [] s
  | move {matched history s s'} : Pushed input matched history s → s.control ≠ [] →
    Compiling.move s = .ok () s' →
    Pushed input (matched ++ s.matching)
      (history ++ (s.added s').map fun e => (e, (matched ++ s.matching).getLast?)) s'

variable {input : Input} {matched : List Lexeme} {history : List (Emission × Option Lexeme)}
  {s s' : Session}

theorem Reached.exists_pushed (h : Reached input matched s) :
    ∃ matched' history, Pushed input matched' history s := by
  induction h with
  | start hs => exact ⟨[], [], .start hs⟩
  | move _ hc hm ih =>
    obtain ⟨matched', history, hpushed⟩ := ih
    exact ⟨_, _, hpushed.move hc hm⟩

theorem Reached.lookahead_le (h : Reached input matched s) :
    s.lookahead.position ≤ s.lexer.position := by
  induction h with
  | start hs => exact (Lexer.position_of_next (Compiling.start_ok hs).1).2
  | move _ hc hm ih =>
    rcases Compiling.taken_of_pushes (Compiling.pushes_of_move hc hm) with
      ⟨-, hlookahead, hlexer⟩ | ⟨-, -, hn⟩
    · rwa [hlookahead, hlexer]
    · exact (Lexer.position_of_next hn).2

theorem Reached.lookahead_le_of_move (h : Reached input matched s) (hc : s.control ≠ [])
    (hm : Compiling.move s = .ok () s') : s.lookahead.position ≤ s'.lookahead.position := by
  rcases Compiling.taken_of_pushes (Compiling.pushes_of_move hc hm) with
    ⟨-, hlookahead, -⟩ | ⟨-, -, hn⟩
  · rw [hlookahead]
    exact Position.le_refl _
  · exact Position.le_trans h.lookahead_le (Lexer.position_of_next hn).1

namespace Pushed

/-- A matched token has been read, and so has the next one. -/
theorem exists_reached (h : Pushed input matched history s) :
    ∃ read, Reached input read s ∧ ∀ l ∈ matched, l ∈ read ++ [s.lookahead] := by
  induction h with
  | start hs => exact ⟨[], .start hs, by simp⟩
  | @move matched history s s' _ hc hm ih =>
    obtain ⟨read, hreached, hread⟩ := ih
    refine ⟨_, hreached.move hc hm, ?_⟩
    have hkept : ∀ l ∈ read ++ [s.lookahead], l ∈ read ++ s.taken ++ [s'.lookahead] := by
      intro l hl
      rcases Compiling.taken_of_pushes (Compiling.pushes_of_move hc hm) with
        ⟨htaken, hlookahead, -⟩ | ⟨htaken, -⟩
      · rwa [htaken, List.append_nil, hlookahead]
      · rw [htaken]
        exact List.mem_append_left _ hl
    have hmatching : ∀ l ∈ s.matching, l = s.lookahead := by
      unfold Session.matching
      split <;> simp
    intro l hl
    rcases List.mem_append.mp hl with hl | hl
    · exact hkept l (hread l hl)
    · rw [hmatching l hl]
      exact hkept _ (by simp)

theorem mem_lexemes (h : Pushed input matched history s) {l : Lexeme} (hl : l ∈ matched) :
    .ok l ∈ Lexer.lexemes input := by
  obtain ⟨read, hreached, hread⟩ := h.exists_reached
  obtain ⟨tail, hlexemes, -⟩ := hreached.exists_lexemes_eq
  rw [hlexemes]
  exact List.mem_append_left _ (List.mem_map_of_mem (hread l hl))

structure Attributed (matched : List Lexeme) (history : List (Emission × Option Lexeme))
    (s : Session) : Prop where
  emitted : history.map Prod.fst = s.workspace.emitter.emitted.toList
  current : s.workspace.emitter.position = matched.getLast?.map Lexeme.position
  recent : ∀ x ∈ history, x.1.position = x.2.map Lexeme.position
  tokens : ∀ x ∈ history, ∀ l, x.2 = some l → l ∈ matched
  ordered : (history.filterMap fun x => x.1.position).Pairwise (· ≤ ·)
  past : ∀ x ∈ history, ∀ p, x.1.position = some p →
    ∃ q, s.workspace.emitter.position = some q ∧ p ≤ q
  ahead : ∀ q, s.workspace.emitter.position = some q → q ≤ s.lookahead.position

/-- The new lines carry the position that the emitter has behind the move, and it is not before the
old one. -/
theorem Attributed.extend {e : Emitter} {more : List Lexeme} (h : Attributed matched history s)
    (hadds : e.Adds s'.workspace.emitter) (hemitted : e.emitted = s.workspace.emitter.emitted)
    (hcurrent : e.position = (matched ++ more).getLast?.map Lexeme.position)
    (hforward : ∀ p, s.workspace.emitter.position = some p → ∃ q, e.position = some q ∧ p ≤ q)
    (hahead : ∀ q, e.position = some q → q ≤ s'.lookahead.position) :
    Attributed (matched ++ more)
      (history ++ (s.added s').map fun x => (x, (matched ++ more).getLast?)) s' := by
  obtain ⟨hposition, new, hnew, hall⟩ := hadds
  have hadded : s.added s' = new := by
    rw [Session.added, hnew, hemitted]
    simp
  have hpast : ∀ x ∈ history, ∀ p, x.1.position = some p → ∃ q, e.position = some q ∧ p ≤ q := by
    intro x hx p hp
    obtain ⟨q, hq, hle⟩ := h.past x hx p hp
    obtain ⟨r, hr, hqr⟩ := hforward q hq
    exact ⟨r, hr, Position.le_trans hle hqr⟩
  rw [hadded]
  constructor
  case emitted => simp [h.emitted, hnew, hemitted, Function.comp_def]
  case current => exact hposition.trans hcurrent
  case recent =>
    intro x hx
    rcases List.mem_append.mp hx with hx | hx
    · exact h.recent x hx
    · obtain ⟨y, hy, rfl⟩ := List.mem_map.mp hx
      exact (hall y hy).trans hcurrent
  case tokens =>
    intro x hx l hl
    rcases List.mem_append.mp hx with hx | hx
    · exact List.mem_append_left _ (h.tokens x hx l hl)
    · obtain ⟨y, hy, rfl⟩ := List.mem_map.mp hx
      exact List.mem_of_getLast? hl
  case ordered =>
    rw [List.filterMap_append, List.pairwise_append]
    refine ⟨h.ordered, ?_, ?_⟩
    · -- All the new lines have one position.
      refine List.pairwise_of_forall_mem_list ?_
      intro p hp q hq
      obtain ⟨x, hx, hxp⟩ := List.mem_filterMap.mp hp
      obtain ⟨y, hy, hyq⟩ := List.mem_filterMap.mp hq
      obtain ⟨x', hx', rfl⟩ := List.mem_map.mp hx
      obtain ⟨y', hy', rfl⟩ := List.mem_map.mp hy
      have hsame : some p = some q := by rw [← hxp, ← hyq, hall x' hx', hall y' hy']
      cases hsame
      exact Position.le_refl _
    · intro p hp q hq
      obtain ⟨x, hx, hxp⟩ := List.mem_filterMap.mp hp
      obtain ⟨y, hy, hyq⟩ := List.mem_filterMap.mp hq
      obtain ⟨y', hy', rfl⟩ := List.mem_map.mp hy
      obtain ⟨r, hr, hle⟩ := hpast x hx p hxp
      have hsame : some r = some q := by rw [← hr, ← hyq, hall y' hy']
      cases hsame
      exact hle
  case past =>
    intro x hx p hp
    rw [hposition]
    rcases List.mem_append.mp hx with hx | hx
    · exact hpast x hx p hp
    · obtain ⟨y, hy, rfl⟩ := List.mem_map.mp hx
      exact ⟨p, by rw [← hp, hall y hy], Position.le_refl _⟩
  case ahead =>
    intro q hq
    exact hahead q (hposition ▸ hq)

theorem attributed (h : Pushed input matched history s) : Attributed matched history s := by
  induction h with
  | start hs =>
    have hemitter : _ = ({} : Emitter) := Compiling.emitter_of_start hs
    constructor <;> simp [hemitter]
  | @move matched history s s' hpushed hc hm ih =>
    obtain ⟨read, hreached, -⟩ := hpushed.exists_reached
    have hle := hreached.lookahead_le_of_move hc hm
    have hahead : ∀ q, s.workspace.emitter.position = some q → q ≤ s'.lookahead.position :=
      fun q hq => Position.le_trans (ih.ahead q hq) hle
    rcases Compiling.adds_of_move hc hm with ⟨hmatching, hadds⟩ | ⟨hmatching, hadds⟩
    · rw [hmatching]
      refine ih.extend hadds rfl ?_ ?_ hahead
      · rw [List.append_nil]
        exact ih.current
      · intro p hp
        exact ⟨p, hp, Position.le_refl p⟩
    · rw [hmatching]
      refine ih.extend hadds rfl ?_ ?_ ?_
      · simp [Emitter.moveTo]
      · intro p hp
        exact ⟨_, rfl, ih.ahead p hp⟩
      · intro q hq
        cases hq
        exact hle

end Pushed

/-! ## The prologue -/

def unattributed : List Emission :=
  Compiling.prologueLines.map fun (segment, line) => ⟨segment, line, none⟩

/-- Whether no action can be reached before a token is matched. -/
def quiet : List GrammarSymbol → Bool
  | [] | .terminal _ :: _ => true
  | .nonterminal n :: rest => n ∈ [.program, .statement, .separatedList] && quiet rest
  | .action _ :: _ => false

theorem quiet_append {xs ys : List GrammarSymbol} (hx : quiet xs = true) (hy : quiet ys = true) :
    quiet (xs ++ ys) = true := by
  induction xs with
  | nil => exact hy
  | cons x xs ih =>
    cases x with
    | terminal t => rfl
    | nonterminal n =>
      simp only [quiet, Bool.and_eq_true] at hx
      simp only [List.cons_append, quiet, Bool.and_eq_true]
      exact ⟨hx.1, ih hx.2⟩
    | action a => cases hx

theorem quiet_rhs : ∀ r ∈ languageRules, r.lhs ∈ [.program, .statement, .separatedList] →
    quiet r.rhs = true := by
  decide

/-- How far a compilation has come: to the prologue, behind it but to no token yet, or to the lines
that come from tokens. -/
inductive Session.Stage (s : Session) : Prop
  | initial : s.control = Compiling.initialControl → s.workspace.emitter = {} → Stage s
  | opened : quiet s.control = true → s.workspace.emitter.position = none →
    s.workspace.emitter.emitted.toList = unattributed → Stage s
  | body (rest : List Emission) : s.workspace.emitter.position.isSome →
    s.workspace.emitter.emitted.toList = unattributed ++ rest →
    (∀ e ∈ rest, e.position.isSome) → Stage s

theorem emitter_of_prologue (h : Compiling.perform .prologue s = .ok () s') :
    s'.workspace.emitter.position = s.workspace.emitter.position ∧
      s'.workspace.emitter.emitted.toList = s.workspace.emitter.emitted.toList ++
        Compiling.prologueLines.map fun (segment, line) =>
          ⟨segment, line, s.workspace.emitter.position⟩ := by
  cases h
  exact ⟨rfl, by simp [Emitter.emit, Compiling.prologueLines]⟩

namespace Session.Stage

theorem of_adds {e : Emitter} {rest : List Emission} (hadds : e.Adds s'.workspace.emitter)
    (hp : e.position.isSome) (he : e.emitted.toList = unattributed ++ rest)
    (hrest : ∀ x ∈ rest, x.position.isSome) : s'.Stage := by
  obtain ⟨hposition, new, hnew, hall⟩ := hadds
  refine .body (rest ++ new) (hposition ▸ hp) ?_ ?_
  · rw [hnew, he, List.append_assoc]
  · intro x hx
    rcases List.mem_append.mp hx with hx | hx
    · exact hrest x hx
    · rw [hall x hx]
      exact hp

theorem of_prologue (hc : s.control = Compiling.initialControl)
    (he : s.workspace.emitter = {}) (hm : Compiling.move s = .ok () s') : s'.Stage := by
  rw [Compiling.move_eq hc] at hm
  obtain ⟨_, s₁, ⟨⟩, hprologue⟩ := Compiling.exists_of_bind_ok hm
  obtain ⟨hposition, hemitted⟩ := emitter_of_prologue hprologue
  have hrest := ((Compiling.acts_perform .prologue).changes hprologue).keeps.1
  refine .opened ?_ ?_ ?_
  · rw [hrest]
    rfl
  · rw [hposition]
    exact congrArg Emitter.position he
  · refine hemitted.trans ?_
    simp [Session.record, he, unattributed]

/-- No rule that can be reached before the first token begins with an action. -/
theorem of_expansion {n : Nonterminal} {rest : List GrammarSymbol}
    (hx : s.control = .nonterminal n :: rest) (hquiet : quiet s.control = true)
    (hp : s.workspace.emitter.position = none)
    (he : s.workspace.emitter.emitted.toList = unattributed)
    (hm : Compiling.move s = .ok () s') : s'.Stage := by
  have hpushes := Compiling.pushes_of_move (by simp [hx]) hm
  rw [Compiling.move_eq hx] at hm
  have hworkspace := Compiling.workspace_of_expand hm
  rw [hx] at hquiet
  simp only [quiet, Bool.and_eq_true, decide_eq_true_eq] at hquiet
  cases hpushes with
  | nonterminal hx' hr hrest hlexer hlookahead =>
    obtain ⟨hlhs, rfl⟩ : _ = n ∧ _ = rest := by simpa [hx] using hx'.symm
    refine .opened ?_ ?_ ?_
    · rw [hrest]
      refine quiet_append (quiet_rhs _ (Compiling.mem_of_rule? hr).1 ?_) hquiet.2
      rw [hlhs]
      exact hquiet.1
    · rw [hworkspace]
      exact hp
    · rw [hworkspace]
      exact he
  | terminal hx' | finish hx' | action hx' =>
    rw [hx] at hx'
    cases hx'

theorem of_move (h : s.Stage) (hc : s.control ≠ []) (hm : Compiling.move s = .ok () s') :
    s'.Stage := by
  have hadds := Compiling.adds_of_move hc hm
  cases h with
  | initial hcontrol hemitter => exact of_prologue hcontrol hemitter hm
  | opened hquiet hposition hemitted =>
    rcases hadds with ⟨hmatching, -⟩ | ⟨-, hadds⟩
    · obtain ⟨x, rest, hx⟩ := List.exists_cons_of_ne_nil hc
      rw [Session.matching, hx] at hmatching
      cases x with
      | terminal t => cases hmatching
      | nonterminal n => exact of_expansion hx hquiet hposition hemitted hm
      | action a =>
        rw [hx] at hquiet
        cases hquiet
    · have hprologue : (s.workspace.emitter.moveTo s.lookahead.position).emitted.toList =
          unattributed ++ [] := by
        rw [List.append_nil]
        exact hemitted
      exact of_adds hadds rfl hprologue (by simp)
  | body rest hposition hemitted hrest =>
    rcases hadds with ⟨-, hadds⟩ | ⟨-, hadds⟩
    · exact of_adds hadds hposition hemitted hrest
    · exact of_adds hadds rfl hemitted hrest

end Session.Stage

theorem Reached.stage (h : Reached input matched s) : s.Stage := by
  induction h with
  | start hs => exact .initial (Compiling.start_ok hs).2 (Compiling.emitter_of_start hs)
  | move _ hc hm ih => exact ih.of_move hc hm

theorem Reached.exists_emitted_eq (h : Reached input matched s) (hc : s.control = []) :
    ∃ rest, s.workspace.emitter.emitted.toList = unattributed ++ rest ∧
      ∀ e ∈ rest, e.position.isSome := by
  cases h.stage with
  | initial hcontrol => simp [hc, Compiling.initialControl] at hcontrol
  | opened hquiet hposition hemitted => exact ⟨[], by simpa using hemitted, by simp⟩
  | body rest hposition hemitted hrest => exact ⟨rest, hemitted, hrest⟩

/-! ## Source maps -/

theorem isSome_position_iff {opening rest : List Emission}
    (ho : ∀ e ∈ opening, e.position = none) (hr : ∀ e ∈ rest, e.position.isSome) (i : Nat) :
    (((opening ++ rest)[i]?).bind Emission.position).isSome ↔
      opening.length ≤ i ∧ i < opening.length + rest.length := by
  by_cases hi : i < opening.length
  · have hnone : opening[i].position = none := ho _ (List.getElem_mem hi)
    simp [List.getElem?_append_left hi, hi, hnone]
  · rw [List.getElem?_append_right (by omega)]
    by_cases hj : i - opening.length < rest.length
    · have hsome : rest[i - opening.length].position.isSome := hr _ (List.getElem_mem hj)
      simp only [List.getElem?_eq_getElem hj, Option.bind_some, hsome, true_iff]
      omega
    · rw [List.getElem?_eq_none (by omega)]
      simp only [Option.bind_none, Option.isSome_none, Bool.false_eq_true, false_iff]
      omega

namespace SourceMap

/-- Every line has an entry but those of the prologue. -/
theorem isSome_position?_iff {rest : List Emission} (hr : ∀ e ∈ rest, e.position.isSome)
    (n : Nat) :
    let m := Target.ofEmissions (SourceMap Assembly) (unattributed ++ rest)
    (m.position? n).isSome ↔ 5 < n ∧ n ≤ m.compiled.data.size ∨
      m.compiled.data.size + 4 < n ∧ n ≤ m.compiled.data.size + m.compiled.text.size := by
  intro m
  have hdata : m.compiled.data.size = 5 + (rest.filter fun e => e.segment = .data).length := by
    have hsize := Assembly.size_taking (unattributed ++ rest) .data
    rw [← Target.compiled_taking, List.filter_append, List.length_append] at hsize
    exact hsize
  have htext : m.compiled.text.size = 4 + (rest.filter fun e => e.segment = .text).length := by
    have hsize := Assembly.size_taking (unattributed ++ rest) .text
    rw [← Target.compiled_taking, List.filter_append, List.length_append] at hsize
    exact hsize
  cases n with
  | zero => simp [m, position?_zero]
  | succ i =>
    have hnone : ∀ e ∈ unattributed, e.position = none := by decide
    have hopening : ∀ segment : Segment, ∀ e ∈ unattributed.filter fun e => e.segment = segment,
        e.position = none :=
      fun segment e he => hnone e (List.mem_of_mem_filter he)
    have hrest : ∀ segment : Segment, ∀ e ∈ rest.filter fun e => e.segment = segment,
        e.position.isSome :=
      fun segment e he => hr e (List.mem_of_mem_filter he)
    have hfive : (unattributed.filter fun e => e.segment = .data).length = 5 := by decide
    have hfour : (unattributed.filter fun e => e.segment = .text).length = 4 := by decide
    rw [position?_ofEmissions, numbered, List.filter_append, List.filter_append,
      List.getElem?_append, List.length_append]
    split_ifs with hi
    · rw [isSome_position_iff (hopening .data) (hrest .data)]
      omega
    · rw [isSome_position_iff (hopening .text) (hrest .text)]
      omega

structure Describes (m : SourceMap Assembly) (input : Input)
    (history : List (Emission × Option Lexeme)) : Prop where
  /-- The history is what any target is given. -/
  pushes : compile Recording input = .ok ⟨(history.map Prod.fst).toArray, true⟩
  /-- It begins with the prologue, which no token stands behind. -/
  opening : (unattributed.map fun e => (e, none)) <+: history
  lines : m.compiled.data.toList ++ m.compiled.text.toList =
    (numbered (history.map Prod.fst)).map Emission.line
  entries : ∀ i, m.position? (i + 1) =
    ((numbered (history.map Prod.fst))[i]?).bind Emission.position
  covered : ∀ n, (m.position? n).isSome ↔ 5 < n ∧ n ≤ m.compiled.data.size ∨
    m.compiled.data.size + 4 < n ∧ n ≤ m.compiled.data.size + m.compiled.text.size
  recent : ∀ x ∈ history, x.1.position = x.2.map Lexeme.position
  ordered : (history.filterMap fun x => x.1.position).Pairwise (· ≤ ·)
  tokens : ∀ x ∈ history, ∀ l, x.2 = some l → .ok l ∈ Lexer.lexemes input

end SourceMap

theorem Pushed.describes (h : Pushed input matched history s) (hc : s.control = [])
    (hcompile : compile Recording input =
      .ok (Target.ofEmissions Recording s.workspace.emitter.emitted.toList)) :
    (Target.ofEmissions (SourceMap Assembly) s.workspace.emitter.emitted.toList).Describes input
      history := by
  obtain ⟨read, hreached, -⟩ := h.exists_reached
  obtain ⟨rest, hemitted, hrest⟩ := hreached.exists_emitted_eq hc
  have hattributed := h.attributed
  constructor
  case pushes => rw [hcompile, Target.ofEmissions_recording, hattributed.emitted]
  case opening =>
    have hhistory := hattributed.emitted.trans hemitted
    obtain ⟨opened, later, rfl, hopened, -⟩ := List.map_eq_append_iff.mp hhistory
    refine ⟨later, congrArg (· ++ later) ?_⟩
    rw [← hopened, List.map_map]
    refine (List.map_congr_left fun x hx => ?_).trans (List.map_id opened)
    -- A line without a position has no token.
    have hnone : ∀ e ∈ unattributed, e.position = none := by decide
    have hposition := hnone x.1 (hopened ▸ List.mem_map_of_mem hx)
    rw [hattributed.recent x (List.mem_append_left _ hx), Option.map_eq_none_iff] at hposition
    exact Prod.ext rfl hposition.symm
  case lines => rw [Target.compiled_ofEmissions, Assembly.toList_ofEmissions, hattributed.emitted]
  case entries =>
    intro i
    rw [SourceMap.position?_ofEmissions, hattributed.emitted]
  case covered =>
    rw [hemitted]
    exact SourceMap.isSome_position?_iff hrest
  case recent => exact hattributed.recent
  case ordered => exact hattributed.ordered
  case tokens =>
    intro x hx l hl
    exact h.mem_lexemes (hattributed.tokens x hx l hl)

/-- A source map changes neither the errors nor the program. It has an entry for each line but those
of the prologue, and the entry is the position of the token that had been matched most recently when
the line was pushed. The positions of lines pushed one after the other never go back, and they are
those of tokens. -/
theorem sourceMap_of_compile (input : Input) :
    (∀ d, compile (SourceMap Assembly) input = .error d ↔ compile Assembly input = .error d) ∧
    ∀ m, compile (SourceMap Assembly) input = .ok m →
      compile Assembly input = .ok m.compiled ∧
      ∃ matched history s, Pushed input matched history s ∧ s.control = [] ∧
        m.Describes input history := by
  have heq := fun (τ : Type) [Target τ] => compile_eq τ input
  cases hp : Compiling.program (.ofInput input) with
  | error d s =>
    simp only [hp] at heq
    rw [heq, heq]
    simp
  | ok _ s =>
    simp only [hp] at heq
    obtain ⟨read, s', hreached, hc, hworkspace⟩ := Reached.exists_of_outcome_ok hp
    obtain ⟨matched, history, hpushed⟩ := hreached.exists_pushed
    rw [heq (SourceMap Assembly), heq Assembly]
    refine ⟨by simp, ?_⟩
    intro m hm
    cases hm
    refine ⟨?_, matched, history, s', hpushed, hc, ?_⟩
    · rw [Target.compiled_ofEmissions]
    · have hcompile := heq Recording
      rw [hworkspace] at hcompile ⊢
      exact hpushed.describes hc hcompile

end AnyDistance

def greeting : String :=
  "variable x;\nprint \"hi\";\nx := 1"

theorem sourceMap_of_greeting :
    (∃ d, compile Assembly (.ofText declaredTwice) = .error d ∧
      compile (SourceMap Assembly) (.ofText declaredTwice) = .error d) ∧
    ∃ m matched history s, compile (SourceMap Assembly) (.ofText greeting) = .ok m ∧
      compile Assembly (.ofText greeting) = .ok m.compiled ∧
      Pushed (.ofText greeting) matched history s ∧ s.control = [] ∧
      m.Describes (.ofText greeting) history ∧
      -- The definition of the string stands before the text but comes from the second line.
      m.position? 6 = some ⟨2, 7⟩ ∧ m.position? 11 = some ⟨1, 10⟩ := by
  constructor
  · have herror : compile Assembly (.ofText declaredTwice) =
        .error (.located (.redeclaration "x" ⟨1, 10⟩) ⟨1, 22⟩) := by decide +kernel
    exact ⟨_, herror, ((sourceMap_of_compile _).1 _).mpr herror⟩
  · have hfound : ((compile (SourceMap Assembly) (.ofText greeting)).toOption.any fun m =>
        m.position? 6 = some ⟨2, 7⟩ && m.position? 11 = some ⟨1, 10⟩) = true := by decide +kernel
    cases hc : compile (SourceMap Assembly) (.ofText greeting) with
    | error d =>
      rw [hc] at hfound
      cases hfound
    | ok m =>
      rw [hc] at hfound
      obtain ⟨hcompiled, matched, history, s, hpushed, hcontrol, hdescribes⟩ :=
        (sourceMap_of_compile _).2 m hc
      have hentries : m.position? 6 = some ⟨2, 7⟩ ∧ m.position? 11 = some ⟨1, 10⟩ := by
        simpa [Except.toOption] using hfound
      exact ⟨m, matched, history, s, rfl, hcompiled, hpushed, hcontrol, hdescribes, hentries⟩

end OnePass
