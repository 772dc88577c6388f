import Mathlib.Data.Option.Basic
import OnePass.Proofs.Recycling

/-! # Programs that differ in names and layout

Two programs are compared token by token. As long as their tokens differ in positions and in names
only, two compilations are in states that differ in nothing else: places, registers and lines are
the same, and a position in one state belongs to the token that stands beside the token of the
other.
-/
namespace OnePass

variable {distance : String → String → Nat} [NameDistance distance]

/-- Tokens of two programs side by side. Names may differ, but two of them are the same in one
program if and only if the two beside them are. -/
structure Pairing where
  pairs : List (Lexeme × Lexeme)
  kind_eq : ∀ {x x'}, (x, x') ∈ pairs → x.kind = x'.kind
  text_eq : ∀ {x x'}, (x, x') ∈ pairs → x.kind ≠ .identifier → x.text = x'.text
  name_iff : ∀ {x x' y y'}, (x, x') ∈ pairs → (y, y') ∈ pairs → x.kind = .identifier →
    y.kind = .identifier → (x.text = y.text ↔ x'.text = y'.text)

def Pairing.Aligned (P : Pairing) (p p' : Position) : Prop :=
  ∃ x x', (x, x') ∈ P.pairs ∧ x.position = p ∧ x'.position = p'

def Cause.SameVariant (c c' : Cause) : Prop :=
  c.ctorIdx = c'.ctorIdx

inductive Diagnostic.Twin (P : Pairing) : Diagnostic → Diagnostic → Prop
  | located {c c' p p'} : c.SameVariant c' → P.Aligned p p' → Twin P (.located c p) (.located c' p')
  | internal (reason : String) : Twin P (.internal reason) (.internal reason)

/-! ## Symbols -/

structure Symbol.Twin (P : Pairing) (s s' : Symbol) : Prop where
  lexeme : Option.Rel (fun x x' => (x, x') ∈ P.pairs) s.lexeme s'.lexeme
  slot : s.slot? = s'.slot?
  register : s.register = s'.register

def Pairing.Naming (P : Pairing) (a a' : String × SymbolId) : Prop :=
  a.2 = a'.2 ∧ ∃ x x', (x, x') ∈ P.pairs ∧ x.kind = .identifier ∧ x.text = a.1 ∧ x'.text = a'.1

structure SymbolTable.Twin (P : Pairing) (table table' : SymbolTable) : Prop where
  size : table.symbols.size = table'.symbols.size
  symbol : ∀ id, (table.symbol id).Twin P (table'.symbol id)
  names : List.Forall₂ P.Naming table.names table'.names
  free : table.free = table'.free
  declared : table.declared = table'.declared

variable {P : Pairing}

theorem Symbol.twin_empty : Symbol.Twin P {} {} :=
  ⟨.none, rfl, rfl⟩

theorem Symbol.twin_of_lexeme {l l' : Lexeme} (hl : (l, l') ∈ P.pairs) :
    Symbol.Twin P { lexeme := some l } { lexeme := some l' } :=
  ⟨.some hl, rfl, rfl⟩

namespace SymbolTable

theorem twin_empty : SymbolTable.Twin P {} {} :=
  ⟨rfl, fun _ => Symbol.twin_empty, .nil, rfl, rfl⟩

namespace Twin

variable {table table' : SymbolTable} {l l' : Lexeme}

theorem contains_iff (h : table.Twin P table') {id : SymbolId} :
    table.Contains id ↔ table'.Contains id := by
  unfold Contains
  rw [h.size]

theorem update (h : table.Twin P table') (id : SymbolId) {change change' : Symbol → Symbol}
    (hc : (change (table.symbol id)).Twin P (change' (table'.symbol id))) :
    (table.update id change).Twin P (table'.update id change') := by
  constructor
  case size => simpa [SymbolTable.update] using h.size
  case symbol =>
    intro j
    by_cases hid : table.Contains id
    · rw [symbol_update hid, symbol_update (h.contains_iff.mp hid)]
      by_cases hj : j = id
      · rw [if_pos hj, if_pos hj]
        exact hc
      · rw [if_neg hj, if_neg hj]
        exact h.symbol j
    · have hid' : ¬ table'.Contains id := fun hc => hid (h.contains_iff.mpr hc)
      rw [update_of_not_contains hid, update_of_not_contains hid']
      exact h.symbol j
  case names => exact h.names
  case free => exact h.free
  case declared => exact h.declared

theorem add (h : table.Twin P table') {s s' : Symbol} (hs : s.Twin P s') :
    (table.add s).1 = (table'.add s').1 ∧ (table.add s).2.Twin P (table'.add s').2 := by
  unfold SymbolTable.add
  rw [← h.free]
  cases table.free with
  | cons id rest =>
    have hupdate : (table.update id fun _ => s).Twin P (table'.update id fun _ => s') :=
      h.update id hs
    exact ⟨rfl, { hupdate with free := rfl }⟩
  | nil =>
    refine ⟨congrArg SymbolId.mk h.size, ?_⟩
    constructor
    case size => simpa using h.size
    case symbol =>
      intro j
      simp only [SymbolTable.symbol, Array.getElem?_push, ← h.size]
      split_ifs
      · exact hs
      · exact h.symbol j
    case names => exact h.names
    case free => rfl
    case declared => exact h.declared

theorem lookup (h : table.Twin P table') (hl : (l, l') ∈ P.pairs) (hk : l.kind = .identifier) :
    table.lookup l.text = table'.lookup l'.text := by
  unfold SymbolTable.lookup
  have hnames := h.names
  generalize table.names = names, table'.names = names' at hnames
  induction hnames with
  | nil => rfl
  | @cons a a' names names' ha _ ih =>
    obtain ⟨hid, x, x', hx, hkx, htext, htext'⟩ := ha
    have hiff := P.name_iff hl hx hk hkx
    rw [htext, htext'] at hiff
    rw [List.lookup_cons, List.lookup_cons]
    by_cases hname : l.text = a.1
    · simp [hname, hiff.mp hname, hid]
    · have hname' : l'.text ≠ a'.1 := fun he => hname (hiff.mpr he)
      rw [beq_false_of_ne hname, beq_false_of_ne hname']
      exact ih

theorem reference (h : table.Twin P table') (hl : (l, l') ∈ P.pairs)
    (hk : l.kind = .identifier) : (table.reference l).1 = (table'.reference l').1 ∧
      (table.reference l).2.Twin P (table'.reference l').2 := by
  unfold SymbolTable.reference
  rw [← h.lookup hl hk]
  cases table.lookup l.text with
  | some id => exact ⟨rfl, h⟩
  | none =>
    obtain ⟨hid, hadd⟩ := h.add (Symbol.twin_of_lexeme hl)
    have hnaming : P.Naming (l.text, (table.add { lexeme := some l }).1)
        (l'.text, (table'.add { lexeme := some l' }).1) := ⟨hid, l, l', hl, hk, rfl, rfl⟩
    exact ⟨hid, { hadd with names := .cons hnaming hadd.names }⟩

theorem literal (h : table.Twin P table') (hl : (l, l') ∈ P.pairs) :
    (table.literal l).1 = (table'.literal l').1 ∧
      (table.literal l).2.Twin P (table'.literal l').2 :=
  h.add (Symbol.twin_of_lexeme hl)

theorem anonymous (h : table.Twin P table') : table.anonymous.1 = table'.anonymous.1 ∧
    table.anonymous.2.Twin P table'.anonymous.2 :=
  h.add Symbol.twin_empty

theorem note (h : table.Twin P table') (hl : (l, l') ∈ P.pairs) :
    (table.note l).Twin P (table'.note l') := by
  unfold SymbolTable.note
  rw [← P.kind_eq hl]
  split_ifs with hk
  · exact (h.reference hl hk).2
  · exact h

theorem setRegister (h : table.Twin P table') (id : SymbolId) (r : Option Register) :
    (table.setRegister id r).Twin P (table'.setRegister id r) := by
  have hs := h.symbol id
  exact h.update id ⟨hs.lexeme, hs.slot, rfl⟩

theorem discard (h : table.Twin P table') (id : SymbolId) :
    (table.discard id).Twin P (table'.discard id) := by
  unfold SymbolTable.discard
  have hany : ((table.symbol id).lexeme.any fun l => l.kind = .identifier) =
      ((table'.symbol id).lexeme.any fun l => l.kind = .identifier) := by
    have hlexeme := (h.symbol id).lexeme
    generalize (table.symbol id).lexeme = x, (table'.symbol id).lexeme = x' at hlexeme
    cases hlexeme with
    | none => rfl
    | some hl => simp [P.kind_eq hl]
  rw [hany]
  split_ifs
  · exact h
  · have hupdate : (table.update id fun _ => {}).Twin P (table'.update id fun _ => {}) :=
      h.update id Symbol.twin_empty
    exact { hupdate with free := congrArg (id :: ·) h.free }

theorem declare (h : table.Twin P table') (id : SymbolId) (p p' : Position) :
    (∃ q q', table.declare id p = .error q ∧ table'.declare id p' = .error q') ∨
      ∃ slot next next', table.declare id p = .ok (slot, next) ∧
        table'.declare id p' = .ok (slot, next') ∧ next.Twin P next' := by
  unfold SymbolTable.declare
  have hs := h.symbol id
  have hslot := hs.slot
  unfold Symbol.slot? at hslot
  cases hd : (table.symbol id).declaration with
  | some earlier =>
    rw [hd] at hslot
    obtain ⟨earlier', hd', -⟩ := Option.map_eq_some_iff.mp hslot.symm
    rw [hd']
    exact .inl ⟨_, _, rfl, rfl⟩
  | none =>
    rw [hd] at hslot
    rw [Option.map_eq_none_iff.mp hslot.symm]
    rw [← h.declared]
    refine .inr ⟨_, _, _, rfl, rfl, ?_⟩
    let declared (p : Position) (s : Symbol) : Symbol :=
      { s with declaration := some ⟨table.declared + 1, p⟩ }
    have hupdate : (table.update id (declared p)).Twin P (table'.update id (declared p')) :=
      h.update id ⟨hs.lexeme, rfl, hs.register⟩
    exact { hupdate with declared := rfl }

end Twin

end SymbolTable

/-! ## Lines and registers -/

def Emission.content (e : Emission) : Segment × Line :=
  (e.segment, e.line)

structure Emitter.Twin (P : Pairing) (e e' : Emitter) : Prop where
  emitted : e.emitted.map Emission.content = e'.emitted.map Emission.content
  position : Option.Rel P.Aligned e.position e'.position
  labels : e.labels = e'.labels
  labelCount : e.labelCount = e'.labelCount
  strings : e.strings = e'.strings

namespace Emitter.Twin

variable {e e' : Emitter}

theorem emit (h : e.Twin P e') (segment : Segment) (line : Line) :
    (e.emit segment line).Twin P (e'.emit segment line) :=
  { h with emitted := by simp [Emitter.emit, h.emitted, Emission.content] }

theorem intern (h : e.Twin P e') (literal : String) :
    (e.intern literal).1 = (e'.intern literal).1 ∧
      (e.intern literal).2.Twin P (e'.intern literal).2 := by
  unfold Emitter.intern
  rw [← h.strings]
  cases e.strings.label? literal with
  | some label => exact ⟨rfl, h⟩
  | none =>
    have hpool : Emitter.Twin P { e with strings := (e.strings.intern literal).2 }
        { e' with strings := (e.strings.intern literal).2 } := { h with strings := rfl }
    exact ⟨rfl, hpool.emit _ _⟩

end Emitter.Twin

structure Workspace.Twin (P : Pairing) (w w' : Workspace) : Prop where
  symbols : w.symbols.Twin P w'.symbols
  registers : w.registers = w'.registers
  emitter : w.emitter.Twin P w'.emitter

namespace Workspace.Twin

open Workspace (Load Acquisition)

variable {w w' : Workspace} {p p' : Position}

theorem loadOf (h : w.Twin P w') (hp : P.Aligned p p') (id : SymbolId) :
    (∃ load, w.loadOf id p = .ok load ∧ w'.loadOf id p' = .ok load) ∨
      ∃ d d', w.loadOf id p = .error d ∧ w'.loadOf id p' = .error d' ∧ d.Twin P d' := by
  unfold Workspace.loadOf
  obtain ⟨hlexeme, hslot, -⟩ := h.symbols.symbol id
  dsimp only
  rw [← hslot]
  generalize (w.symbols.symbol id).lexeme = x, (w'.symbols.symbol id).lexeme = x' at hlexeme
  cases hlexeme with
  | none => exact .inl ⟨_, rfl, rfl⟩
  | @some l l' hl =>
    dsimp only
    rw [← P.kind_eq hl]
    split
    · next hk =>
      have htext := P.text_eq hl (by simp [hk])
      exact .inl ⟨_, rfl, by rw [htext]⟩
    · next hk =>
      have htext := P.text_eq hl (by simp [hk])
      exact .inl ⟨_, rfl, by rw [htext]⟩
    · cases (w.symbols.symbol id).slot? with
      | some slot => exact .inl ⟨_, rfl, rfl⟩
      | none => exact .inr ⟨_, _, rfl, rfl, Diagnostic.Twin.located rfl hp⟩

theorem choose (h : w.Twin P w') (hp : P.Aligned p p') (id : SymbolId) :
    (∃ choice, w.choose id p = .ok choice ∧ w'.choose id p' = .ok choice) ∨
      ∃ d d', w.choose id p = .error d ∧ w'.choose id p' = .error d' ∧ d.Twin P d' := by
  unfold Workspace.choose
  rw [← (h.symbols.symbol id).register, ← h.registers]
  cases (w.symbols.symbol id).register with
  | some r => exact .inl ⟨_, rfl, rfl⟩
  | none =>
    cases w.registers.firstFree? with
    | none => exact .inr ⟨_, _, rfl, rfl, Diagnostic.Twin.located rfl hp⟩
    | some r =>
      rcases h.loadOf hp id with ⟨load, hload, hload'⟩ | ⟨d, d', hload, hload', hd⟩
      · exact .inl ⟨.fresh r load, by simp [hload, Except.map], by simp [hload', Except.map]⟩
      · exact .inr ⟨d, d', by simp [hload, Except.map], by simp [hload', Except.map], hd⟩

theorem instruction (h : w.Twin P w') (i : Instruction) :
    (w.instruction i).Twin P (w'.instruction i) :=
  { h with emitter := h.emitter.emit _ _ }

theorem load (h : w.Twin P w') (r : Register) (load : Load) :
    (w.load r load).Twin P (w'.load r load) := by
  cases load with
  | computed => exact h
  | number digits => exact h.instruction _
  | constant literal =>
    obtain ⟨hlabel, hintern⟩ := h.emitter.intern literal
    have hinterned : Workspace.Twin P { w with emitter := (w.emitter.intern literal).2 }
        { w' with emitter := (w'.emitter.intern literal).2 } := { h with emitter := hintern }
    simp only [Workspace.load, ← hlabel]
    exact hinterned.instruction _
  | slot number => exact h.instruction _

theorem commit (h : w.Twin P w') (id : SymbolId) (choice : Acquisition) :
    (w.commit id choice).Twin P (w'.commit id choice) := by
  cases choice with
  | held r => exact h
  | fresh r load =>
    have hload := h.load r load
    exact
      { symbols := hload.symbols.setRegister id _
        registers := congrArg (·.bind r id) hload.registers
        emitter := hload.emitter }

theorem consume (h : w.Twin P w') (id : SymbolId) : (w.consume id).Twin P (w'.consume id) where
  symbols := (h.symbols.setRegister id none).discard id
  registers := congrArg (·.release id) h.registers
  emitter := h.emitter

theorem releaseAll (h : w.Twin P w') : w.releaseAll.Twin P w'.releaseAll where
  symbols := by
    have hfold : ∀ (ids : List SymbolId) {table table' : SymbolTable}, table.Twin P table' →
        (ids.foldl (fun table id => table.setRegister id none) table).Twin P
          (ids.foldl (fun table id => table.setRegister id none) table') := by
      intro ids
      induction ids with
      | nil => exact id
      | cons id ids ih => exact fun ht => ih (ht.setRegister id none)
    rw [Workspace.releaseAll, Workspace.releaseAll, ← h.registers]
    exact hfold _ h.symbols
  registers := rfl
  emitter := h.emitter

end Workspace.Twin

end OnePass
