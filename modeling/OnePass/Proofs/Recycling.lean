import Mathlib.Data.List.Dedup
import OnePass.Proofs.RegisterUse

/-! # Symbols and their places

The names of the symbol table are those of the identifiers read so far, and each of them stands for
the lexeme it was first read as. Actions keep this: they free and fill only places that belong to no
name. Together with the census of the arena it counts the symbols in use, and shows that no place is
used for two values at once.
-/
namespace OnePass

section AnyDistance

variable {distance : String → String → Nat} [NameDistance distance]

namespace SymbolTable

variable {table table' : SymbolTable} {id : SymbolId}

/-! ## What actions leave as it is -/

def Steady (table : SymbolTable) : Prop :=
  ∀ id ∈ table.free, (table.symbol id).lexeme = none

/-- The names are the same, and so are the lexemes of the identifiers. No lexeme is new. -/
structure Evolves (table table' : SymbolTable) : Prop where
  names : table'.names = table.names
  steady : table.Steady → table'.Steady
  lexeme : table.Steady → ∀ id l, (table.symbol id).lexeme = some l → l.kind = .identifier →
    (table'.symbol id).lexeme = some l
  origin : ∀ id l, (table'.symbol id).lexeme = some l → (table.symbol id).lexeme = some l

theorem Evolves.refl (table : SymbolTable) : table.Evolves table :=
  ⟨rfl, id, fun _ _ _ h _ => h, fun _ _ h => h⟩

theorem Evolves.trans {table'' : SymbolTable} (h : table.Evolves table')
    (h' : table'.Evolves table'') : table.Evolves table'' where
  names := h'.names.trans h.names
  steady ht := h'.steady (h.steady ht)
  lexeme ht id l hl hk := h'.lexeme (h.steady ht) id l (h.lexeme ht id l hl hk) hk
  origin id l hl := h.origin id l (h'.origin id l hl)

theorem evolves_of_lexeme_eq (hn : table'.names = table.names) (hf : table'.free = table.free)
    (hl : ∀ j, (table'.symbol j).lexeme = (table.symbol j).lexeme) : table.Evolves table' where
  names := hn
  steady ht j hj := by
    rw [hl]
    exact ht j (hf ▸ hj)
  lexeme _ j l hj _ := (hl j).trans hj
  origin j _ hj := (hl j).symm.trans hj

theorem update_of_not_contains (h : ¬ table.Contains id) (change : Symbol → Symbol) :
    table.update id change = table := by
  have hsize : table.symbols.size ≤ id.index := Nat.not_lt.mp h
  have hmodify : table.symbols.modify id.index change = table.symbols := by
    apply Array.ext_getElem?
    intro i
    rw [Array.getElem?_modify]
    split
    · next he =>
      rw [← he, Array.getElem?_eq_none hsize]
      rfl
    · rfl
  rw [update, hmodify]

theorem evolves_update {change : Symbol → Symbol} (h : ∀ s, (change s).lexeme = s.lexeme) :
    table.Evolves (table.update id change) := by
  refine evolves_of_lexeme_eq rfl rfl ?_
  intro j
  by_cases hc : table.Contains id
  · exact symbol_update_same Symbol.lexeme hc (h _) j
  · rw [update_of_not_contains hc]

theorem evolves_setRegister (r : Option Register) : table.Evolves (table.setRegister id r) :=
  evolves_update fun _ => rfl

theorem lexeme_erase (j : SymbolId) : ((table.update id fun _ => {}).symbol j).lexeme =
    if j = id then none else (table.symbol j).lexeme := by
  by_cases hc : table.Contains id
  · rw [symbol_update hc]
    split <;> rfl
  · rw [update_of_not_contains hc]
    split
    · next he => rw [he, symbol_of_not_contains hc]
    · rfl

theorem lexeme_of_erase {j : SymbolId} {l : Lexeme}
    (h : ((table.update id fun _ => {}).symbol j).lexeme = some l) :
    (table.symbol j).lexeme = some l := by
  rw [lexeme_erase] at h
  split at h
  · cases h
  · exact h

theorem evolves_anonymous : table.Evolves table.anonymous.2 := by
  unfold anonymous add
  split
  · next id rest hfree =>
    -- The place is taken from the free ones, so it had no lexeme before either.
    have hsame : table.Steady → ∀ j,
        ((table.update id fun _ => {}).symbol j).lexeme = (table.symbol j).lexeme := by
      intro ht j
      rw [lexeme_erase]
      split
      · next he => rw [he, ht id (hfree ▸ List.mem_cons_self)]
      · rfl
    refine ⟨rfl, fun ht j hj => ?_, fun ht j l hl _ => ?_, fun j l hl => ?_⟩
    · exact (hsame ht j).trans (ht j (hfree ▸ .tail _ hj))
    · exact (hsame ht j).trans hl
    · exact lexeme_of_erase hl
  · next hfree =>
    refine evolves_of_lexeme_eq rfl rfl ?_
    intro j
    simp only [SymbolTable.symbol, Array.getElem?_push]
    split
    · next he =>
      rw [he, Array.getElem?_eq_none (Nat.le_refl _)]
      rfl
    · rfl

theorem evolves_discard : table.Evolves (table.discard id) := by
  unfold discard
  split
  · exact .refl table
  · next hkind =>
    refine ⟨rfl, fun ht j hj => ?_, fun _ j l hl hk => ?_, fun j l hl => lexeme_of_erase hl⟩
    · refine (lexeme_erase j).trans ?_
      split
      · rfl
      · next hne => exact ht j ((List.mem_cons.mp hj).resolve_left hne)
    · refine (lexeme_erase j).trans ?_
      rw [if_neg, hl]
      rintro rfl
      simp [hl, hk] at hkind

theorem evolves_declare {site : Position} {slot : Nat}
    (h : table.declare id site = .ok (slot, table')) : table.Evolves table' := by
  unfold declare at h
  split at h
  · cases h
  · cases h
    have hupdate : table.Evolves (table.update id fun s =>
      { s with declaration := some ⟨table.declared + 1, site⟩ }) := evolves_update fun _ => rfl
    exact hupdate.trans (evolves_of_lexeme_eq rfl rfl fun _ => rfl)

end SymbolTable

open SymbolTable (Evolves)

theorem Workspace.evolves_commit (w : Workspace) (id : SymbolId) (choice : Workspace.Acquisition) :
    w.symbols.Evolves (w.commit id choice).symbols := by
  cases choice with
  | held r => exact .refl _
  | fresh r load =>
    have hload : (w.load r load).symbols = w.symbols := by cases load <;> rfl
    rw [Workspace.commit, Workspace.bind, hload]
    exact SymbolTable.evolves_setRegister _

theorem Workspace.evolves_releaseAll (w : Workspace) :
    w.symbols.Evolves w.releaseAll.symbols :=
  List.foldlRecOn _ _ (.refl _) fun _ h _ _ => h.trans (SymbolTable.evolves_setRegister _)

theorem Compiling.Change.evolves {s s' : Session} (h : Compiling.Change s s') :
    s.workspace.symbols.Evolves s'.workspace.symbols := by
  cases h with
  | record e => exact .refl _
  | restack operands operators => exact .refl _
  | emit segment line hfixed => exact .refl _
  | openLabel => exact .refl _
  | closeLabel => exact .refl _
  | result => exact SymbolTable.evolves_anonymous
  | commit hchoose => exact s.workspace.evolves_commit _ _
  | consume id => exact (SymbolTable.evolves_setRegister none).trans SymbolTable.evolves_discard
  | declare hd => exact SymbolTable.evolves_declare hd
  | clear => exact s.workspace.evolves_releaseAll

theorem Compiling.Changes.evolves {s s' : Session} (h : Compiling.Changes s s') :
    s.workspace.symbols.Evolves s'.workspace.symbols := by
  induction h with
  | refl => exact .refl _
  | tail _ hc ih => exact ih.trans hc.evolves

/-! ## What the names stand for -/

def identifiers (read : List Lexeme) : List Lexeme :=
  read.filter fun l => l.kind = .identifier

theorem identifiers_append_of_identifier {read : List Lexeme} {l : Lexeme}
    (hk : l.kind = .identifier) : identifiers (read ++ [l]) = identifiers read ++ [l] := by
  simp [identifiers, List.filter_append, hk]

theorem identifiers_append_of_ne {read : List Lexeme} {l : Lexeme} (hk : l.kind ≠ .identifier) :
    identifiers (read ++ [l]) = identifiers read := by
  simp [identifiers, List.filter_append, hk]

namespace SymbolTable

variable {table table' : SymbolTable} {id : SymbolId} {read : List Lexeme} {l : Lexeme}

/-- The names are those of the identifiers read so far, and each stands for the lexeme it was first
read as. -/
structure Knows (table : SymbolTable) (read : List Lexeme) : Prop where
  distinct : (table.names.map Prod.fst).Nodup
  names : ∀ x, x ∈ table.names.map Prod.fst ↔ x ∈ (identifiers read).map Lexeme.text
  first : ∀ x id, table.lookup x = some id →
    (table.symbol id).lexeme = (identifiers read).find? fun l => l.text = x

theorem exists_lookup_iff {x : String} :
    (∃ id, table.lookup x = some id) ↔ x ∈ table.names.map Prod.fst := by
  constructor
  · rintro ⟨id, hx⟩
    exact List.mem_map.mpr ⟨_, mem_of_lookup hx, rfl⟩
  · intro hm
    by_contra hnone
    have hlookup : table.lookup x = none := by
      cases hx : table.lookup x with
      | none => rfl
      | some id => exact absurd ⟨id, hx⟩ hnone
    obtain ⟨p, hp, rfl⟩ := List.mem_map.mp hm
    simpa using List.lookup_eq_none_iff.mp hlookup p hp

theorem knows_empty : Knows {} [] where
  distinct := List.nodup_nil
  names := by simp [identifiers]
  first := by simp [lookup]

def note (table : SymbolTable) (l : Lexeme) : SymbolTable :=
  if l.kind = .identifier then (table.reference l).2 else table

namespace Knows

theorem exists_identifier (h : table.Knows read) {x : String} (hx : table.lookup x = some id) :
    ∃ l, (table.symbol id).lexeme = some l ∧ l.kind = .identifier := by
  have hm := (h.names x).mp (exists_lookup_iff.mp ⟨id, hx⟩)
  obtain ⟨l, hl, hlx⟩ := List.mem_map.mp hm
  have hsome : ((identifiers read).find? fun l => l.text = x).isSome := by
    rw [List.find?_isSome]
    exact ⟨l, hl, by simpa using hlx⟩
  obtain ⟨m, hfind⟩ := Option.isSome_iff_exists.mp hsome
  refine ⟨m, (h.first x id hx).trans hfind, ?_⟩
  have hmem := List.mem_filter.mp (List.mem_of_find?_eq_some hfind)
  simpa using hmem.2

theorem of_eq (h : table.Knows read) (hn : table'.names = table.names)
    (hl : ∀ x id, table.lookup x = some id →
      (table'.symbol id).lexeme = (table.symbol id).lexeme) : table'.Knows read where
  distinct := hn ▸ h.distinct
  names := hn ▸ h.names
  first x id hx := by
    rw [lookup, hn] at hx
    exact (hl x id hx).trans (h.first x id hx)

theorem evolves (h : table.Knows read) (he : table.Evolves table') (hs : table.Steady) :
    table'.Knows read := by
  refine h.of_eq he.names fun x id hx => ?_
  obtain ⟨l, hl, hk⟩ := h.exists_identifier hx
  rw [hl]
  exact he.lexeme hs id l hl hk

theorem added {s : Symbol} (h : table.Knows read) (ht : table.Tidy)
    (ha : table.Added s id table') : table'.Knows read := by
  refine h.of_eq ha.names fun x j hx => ?_
  obtain ⟨l, hl, -⟩ := h.exists_identifier hx
  have hne : j ≠ id := by
    rintro rfl
    simp [ha.empty ht] at hl
  rw [ha.symbol, if_neg hne]

theorem reference_of_mem (h : table.Knows read) (hm : l ∈ read) (hk : l.kind = .identifier) :
    (table.reference l).2 = table := by
  have hx : l.text ∈ (identifiers read).map Lexeme.text :=
    List.mem_map_of_mem (List.mem_filter.mpr ⟨hm, by simpa using hk⟩)
  obtain ⟨id, hid⟩ := exists_lookup_iff.mpr ((h.names _).mpr hx)
  simp [reference, hid]

theorem again (h : table.Knows read) (hk : l.kind = .identifier)
    (hl : table.lookup l.text = some id) : table.Knows (read ++ [l]) := by
  have hm := (h.names l.text).mp (exists_lookup_iff.mp ⟨id, hl⟩)
  refine ⟨h.distinct, fun x => ?_, fun x j hx => ?_⟩
  · rw [h.names, identifiers_append_of_identifier hk, List.map_append, List.mem_append]
    constructor
    · exact .inl
    · rintro (hx | hx)
      · exact hx
      · rw [List.mem_singleton.mp hx]
        exact hm
  · obtain ⟨m, hsymbol, -⟩ := h.exists_identifier hx
    have hfirst := h.first x j hx
    rw [hsymbol] at hfirst
    rw [hsymbol, identifiers_append_of_identifier hk, List.find?_append, ← hfirst]
    rfl

theorem naming {table' : SymbolTable} (h : table.Knows read) (ht : table.Tidy)
    (hk : l.kind = .identifier) (hl : table.lookup l.text = none)
    (ha : table.Added { lexeme := some l } id table') :
    Knows { table' with names := (l.text, id) :: table'.names } (read ++ [l]) := by
  have hnew : l.text ∉ table.names.map Prod.fst := by
    intro hm
    obtain ⟨j, hj⟩ := exists_lookup_iff.mpr hm
    rw [hl] at hj
    cases hj
  have hadded := h.added ht ha
  refine ⟨?_, fun x => ?_, fun x j hx => ?_⟩
  · rw [List.map_cons, List.nodup_cons, ha.names]
    exact ⟨hnew, h.distinct⟩
  · rw [List.map_cons, List.mem_cons, hadded.names, identifiers_append_of_identifier hk,
      List.map_append, List.mem_append, or_comm]
    simp
  · have hnone : ((identifiers read).find? fun m => m.text = l.text) = none := by
      rw [List.find?_eq_none]
      intro m hm htext
      refine hnew ((h.names _).mpr (List.mem_map.mpr ⟨m, hm, ?_⟩))
      simpa using htext
    rw [Coherent.lookup_cons] at hx
    rw [identifiers_append_of_identifier hk, List.find?_append]
    by_cases he : x = l.text
    · rw [if_pos he] at hx
      cases hx
      subst he
      refine (congrArg Symbol.lexeme (ha.symbol _)).trans ?_
      rw [if_pos rfl, hnone]
      simp
    · rw [if_neg he] at hx
      refine (hadded.first x j hx).trans ?_
      have hother : ([l].find? fun m => m.text = x) = none := by simpa using Ne.symm he
      rw [hother, Option.or_none]

theorem noted (h : table.Knows read) (ht : table.Tidy) (l : Lexeme) :
    (table.note l).Knows (read ++ [l]) := by
  unfold note
  split
  · next hk =>
    unfold reference
    split
    · next id hid => exact h.again hk hid
    · next hnone => exact h.naming ht hk hnone (added_add ht _)
  · next hk =>
    have hsame : identifiers (read ++ [l]) = identifiers read := identifiers_append_of_ne hk
    refine ⟨h.distinct, ?_, ?_⟩
    · rw [hsame]
      exact h.names
    · rw [hsame]
      exact h.first

end Knows

end SymbolTable

/-! ## Along a compilation -/

namespace Compiling

variable {s s' : Session}

theorem symbols_of_readLexeme {l : Lexeme} (h : readLexeme s = .ok l s') :
    s'.workspace.symbols = s.workspace.symbols.note l := by
  unfold readLexeme at h
  split at h
  · next lexeme lexer hn =>
    cases h
    unfold Session.noteLexeme SymbolTable.note
    split <;> rfl
  · cases h

theorem symbols_of_advance (h : advance s = .ok () s') :
    s'.workspace.symbols = if s.lookahead.kind = .endOfInput then s.workspace.symbols
      else s.workspace.symbols.note s'.lookahead := by
  rw [advance, bind_ok (get_ok s)] at h
  by_cases hk : s.lookahead.kind = .endOfInput
  · simp only [hk, ne_eq, not_true_eq_false, if_false] at h
    cases h
    rw [if_pos hk]
  · simp only [hk, ne_eq, not_false_eq_true, if_true] at h
    obtain ⟨l, s₁, hread, h⟩ := exists_of_bind_ok h
    cases h
    rw [if_neg hk]
    have hnote := symbols_of_readLexeme hread
    exact hnote

def Shifts (table : SymbolTable) (l : Lexeme) (table' : SymbolTable) : Prop :=
  table' = table ∨ l.kind = .identifier ∧ table' = (table.reference l).2 ∨
    (l.kind = .number ∨ l.kind = .stringConst) ∧ table' = (table.literal l).2

theorem symbols_of_matchTerminal {t : Terminal} (h : matchTerminal t s = .ok () s') :
    s.lookahead.kind = t ∧ ∃ table, Shifts s.workspace.symbols s.lookahead table ∧
      s'.workspace.symbols = if t = .endOfInput then table else table.note s'.lookahead := by
  obtain ⟨hk, _, s₂, rfl, hshift, hadvance⟩ := matchTerminal_ok h
  obtain ⟨operands, operators, emitter, symbols, rfl, hsymbols⟩ := shift_ok hshift
  have hnote := symbols_of_advance hadvance
  refine ⟨hk, symbols, hsymbols, ?_⟩
  rw [hnote, ← hk]

/-- A move reads no token and keeps what the names stand for, or it matches a token and reads the
next one. -/
theorem symbols_of_move (hc : s.control ≠ []) (h : move s = .ok () s') :
    s.taken = [] ∧ s'.lookahead = s.lookahead ∧
        s.workspace.symbols.Evolves s'.workspace.symbols ∨
      s.taken = [s.lookahead] ∧ ∃ table, Shifts s.workspace.symbols s.lookahead table ∧
        s'.workspace.symbols = table.note s'.lookahead := by
  obtain ⟨x, rest, hx⟩ := List.exists_cons_of_ne_nil hc
  have htaken := Compiling.taken_of_pushes (pushes_of_move hc h)
  rw [move_eq hx] at h
  cases x with
  | terminal t =>
    obtain ⟨hk, table, hshifts, hsymbols⟩ := symbols_of_matchTerminal h
    replace hk : s.lookahead.kind = t := hk
    rcases htaken with ⟨htaken, hlookahead, -⟩ | ⟨htaken, hend, -⟩
    · -- The end of the input stays where it is, and it stands for no value.
      have ht : t = .endOfInput := by
        by_contra ht
        simp [Session.taken, hx, ht] at htaken
      rw [if_pos ht] at hsymbols
      have hsame : table = s.workspace.symbols := by
        rcases hshifts with hsame | ⟨hk', -⟩ | ⟨hk' | hk', -⟩
        · exact hsame
        all_goals
          replace hk' : s.lookahead.kind = _ := hk'
          simp [hk, ht] at hk'
      rw [hsymbols, hsame]
      exact .inl ⟨htaken, hlookahead, .refl _⟩
    · rw [if_neg (hk ▸ hend)] at hsymbols
      exact .inr ⟨htaken, table, hshifts, hsymbols⟩
  | nonterminal n =>
    rcases htaken with ⟨htaken, hlookahead, -⟩ | ⟨htaken, -⟩
    · rw [workspace_of_expand h]
      exact .inl ⟨htaken, hlookahead, .refl _⟩
    · simp [Session.taken, hx] at htaken
  | action a =>
    have hacts := (acts_log (.actionTaken a)).bind fun _ => acts_perform a
    have hevolves := (hacts.changes h).evolves
    rcases htaken with ⟨htaken, hlookahead, -⟩ | ⟨htaken, -⟩
    · exact .inl ⟨htaken, hlookahead, hevolves⟩
    · simp [Session.taken, hx] at htaken

end Compiling

open SymbolTable (Knows)

variable {input : Input} {matched : List Lexeme} {s : Session} {v : Snapshot}

theorem knows_of_shifts {table table' : SymbolTable} {read : List Lexeme} {l : Lexeme}
    (h : table.Knows read) (ht : table.Tidy) (hm : l ∈ read)
    (hs : Compiling.Shifts table l table') : table'.Knows read ∧ table'.Tidy := by
  rcases hs with rfl | ⟨hk, rfl⟩ | ⟨-, rfl⟩
  · exact ⟨h, ht⟩
  · rw [h.reference_of_mem hm hk]
    exact ⟨h, ht⟩
  · have hadded := SymbolTable.added_add ht { lexeme := some l }
    exact ⟨h.added ht hadded, hadded.tidy ht⟩

theorem Represents.tidy (h : Represents s v) : s.workspace.symbols.Tidy := by
  obtain ⟨live, bank, hw, -⟩ := h
  exact hw.coherent.tidy

/-- The names are always those of the tokens matched and of the next one. -/
theorem Reached.knows (h : Reached input matched s) :
    s.workspace.symbols.Knows (matched ++ [s.lookahead]) := by
  induction h with
  | @start s hs =>
    obtain ⟨l, s₁, hread, hrest⟩ := Compiling.exists_of_bind_ok hs
    cases hrest
    have hsymbols : s₁.workspace.symbols = SymbolTable.note {} l :=
      Compiling.symbols_of_readLexeme hread
    have hnoted := SymbolTable.knows_empty.noted Coherent.empty.tidy l
    rw [← hsymbols] at hnoted
    exact hnoted
  | @move matched s s' hreached hc hm ih =>
    obtain ⟨v, hr, -⟩ := hreached.exists_safe
    rcases Compiling.symbols_of_move hc hm with
      ⟨htaken, hlookahead, hevolves⟩ | ⟨htaken, table, hshifts, hsymbols⟩
    · rw [htaken, hlookahead, List.append_nil]
      apply ih.evolves hevolves
      intro id hid
      rw [hr.tidy.empty id hid]
    · obtain ⟨hknows, htidy⟩ := knows_of_shifts ih hr.tidy (by simp) hshifts
      rw [htaken, hsymbols]
      exact hknows.noted htidy s'.lookahead

/-! ## Places in use -/

/-- The literals and intermediate results on the operand stack, by their symbols. -/
def Session.unnamed (s : Session) : List SymbolId :=
  (s.operands.map Operand.symbol).filter fun id =>
    !(s.workspace.symbols.symbol id).lexeme.any fun l => l.kind = .identifier

def distinctNames (read : List Lexeme) : List String :=
  ((identifiers read).map Lexeme.text).dedup

theorem Coherent.isVar_eq {table : SymbolTable} {bank : RegisterBank SymbolId}
    {declared : List String} {live : List Holding} (h : Coherent table bank declared live)
    {hold : Holding} (hm : hold ∈ live) :
    ((table.symbol hold.1).lexeme.any fun l => l.kind = .identifier) = hold.2.isVar := by
  have hkind := h.kind_eq hm
  have hany : ((table.symbol hold.1).lexeme.any fun l => l.kind = .identifier) =
      hold.2.kind?.any (· = .identifier) := by
    rw [← hkind, Option.any_map]
  rw [hany]
  cases hold.2 <;> rfl

theorem Working.unnamed_eq {live : List Holding} {bank : RegisterBank SymbolId}
    (h : Working s v live [] bank) : s.unnamed = Coherent.unnamed live := by
  rw [Session.unnamed, h.symbols, List.filter_map, Coherent.unnamed]
  congr 1
  apply List.filter_congr
  intro hold hm
  rw [Function.comp_apply, h.coherent.isVar_eq hm]

theorem length_names {table : SymbolTable} {read : List Lexeme} (h : table.Knows read) :
    table.names.length = (distinctNames read).length := by
  have hperm : (table.names.map Prod.fst).Perm (distinctNames read) := by
    refine (List.perm_ext_iff_of_nodup h.distinct (List.nodup_dedup _)).mpr fun x => ?_
    rw [List.mem_dedup]
    exact h.names x
  simpa using hperm.length_eq

/-- The places to use again belong to no value: they are empty and are neither named, nor on the
operand stack, nor in a register. -/
structure Session.Recycles (s : Session) : Prop where
  nodup : s.workspace.symbols.free.Nodup
  empty : ∀ id ∈ s.workspace.symbols.free, s.workspace.symbols.symbols[id.index]? = some {}
  unnamed : ∀ id ∈ s.workspace.symbols.free, ∀ x, s.workspace.symbols.lookup x ≠ some id
  unused : ∀ id ∈ s.workspace.symbols.free, ∀ o ∈ s.operands, o.symbol ≠ id
  unbound : ∀ id ∈ s.workspace.symbols.free, ∀ r, s.workspace.registers.holder r ≠ some id

theorem Represents.recycles (h : Represents s v) : s.Recycles := by
  obtain ⟨live, bank, hw, hs⟩ := h
  have hcoherent := hw.coherent
  have hfree : ∀ hold ∈ live, hold.1 ∉ s.workspace.symbols.free := hcoherent.taken
  refine ⟨hcoherent.tidy.nodup, fun id hid => ?_, fun id hid x hx => ?_, fun id hid o ho he => ?_,
    fun id hid r hr => ?_⟩
  · have hcontains : id.index < s.workspace.symbols.symbols.size := hcoherent.tidy.contains id hid
    have hempty := hcoherent.tidy.empty id hid
    rw [SymbolTable.symbol, Array.getElem?_eq_getElem hcontains] at hempty
    rw [Array.getElem?_eq_getElem hcontains]
    exact congrArg some hempty
  · exact hcoherent.var_taken hx hid
  · have hm : o.symbol ∈ live.map Prod.fst := hw.symbols ▸ List.mem_map_of_mem ho
    obtain ⟨hold, hlive, hold_eq⟩ := List.mem_map.mp hm
    exact hfree hold hlive ((hold_eq.trans he).symm ▸ hid)
  · rw [hw.registers, hs.holder] at hr
    exact hfree _ (mem_held (List.mem_of_getElem? hr)) hid

theorem Reached.size_eq (h : Reached input matched s) :
    s.workspace.symbols.size =
      (distinctNames (matched ++ [s.lookahead])).length + s.unnamed.length := by
  obtain ⟨v, ⟨live, bank, hw, -⟩, -⟩ := h.exists_safe
  have hknows := h.knows
  rw [← length_names hknows, hw.unnamed_eq]
  exact hw.coherent.size_eq hw.accounts hknows.distinct

/-- The end of the input is matched before the control stack is empty. -/
theorem Reached.endOfInput (h : Reached input matched s) :
    .terminal .endOfInput ∈ s.control ∨ s.lookahead.kind = .endOfInput := by
  induction h with
  | start hs =>
    rw [(Compiling.start_ok hs).2]
    exact .inl (by simp [Compiling.initialControl])
  | move _ hc hm ih =>
    cases Compiling.pushes_of_move hc hm with
    | terminal hx hk hrest ht hn =>
      have hmem := ih.resolve_right (hk ▸ ht)
      rw [hx] at hmem
      rcases List.mem_cons.mp hmem with he | hmem
      · cases he
        exact absurd rfl ht
      · exact .inl (hrest ▸ hmem)
    | finish hx hk hrest hlexer hlookahead => exact .inr (hlookahead ▸ hk)
    | nonterminal hx hr hrest hlexer hlookahead =>
      rw [hx] at ih
      rw [hrest, hlookahead]
      refine ih.imp_left fun hmem => List.mem_append_right _ ?_
      exact (List.mem_cons.mp hmem).resolve_left (by simp)
    | action hx hrest hlexer hlookahead =>
      rw [hx] at ih
      rw [hrest, hlookahead]
      refine ih.imp_left fun hmem => ?_
      exact (List.mem_cons.mp hmem).resolve_left (by simp)

/-- When the control stack is empty, everything has been read and nothing waits. -/
theorem Reached.finished (h : Reached input matched s) (hc : s.control = []) :
    Lexer.lexemes input = (matched ++ [s.lookahead]).map .ok ∧ s.unnamed = [] := by
  obtain ⟨v, ⟨live, bank, hw, -⟩, hsafe⟩ := h.exists_safe
  constructor
  · have hend : s.lookahead.kind = .endOfInput := h.endOfInput.resolve_left (by simp [hc])
    obtain ⟨tail, hlexemes, htail⟩ := h.exists_lexemes_eq
    rw [Ahead, if_pos hend] at htail
    rw [hlexemes, htail, List.append_nil]
  · have hdrained := hsafe.demands
    rw [← hw.control, hc] at hdrained
    have hlive : live = [] := List.map_eq_nil_iff.mp (hw.values.symm.trans hdrained.1)
    rw [hw.unnamed_eq, hlive]
    rfl

/-- The name that an identifier read so far has in the table stands for its first occurrence. -/
theorem SymbolTable.Knows.exists_first {table : SymbolTable} {read : List Lexeme}
    (h : table.Knows read) {l : Lexeme} (hm : l ∈ read) (hk : l.kind = .identifier) :
    ∃ id first, table.lookup l.text = some id ∧ (table.symbol id).lexeme = some first ∧
      (read.find? fun m => m.kind = .identifier ∧ m.text = l.text) = some first := by
  have hx : l.text ∈ (identifiers read).map Lexeme.text :=
    List.mem_map_of_mem (List.mem_filter.mpr ⟨hm, by simpa using hk⟩)
  obtain ⟨id, hid⟩ := SymbolTable.exists_lookup_iff.mpr ((h.names _).mpr hx)
  obtain ⟨first, hlexeme, -⟩ := h.exists_identifier hid
  refine ⟨id, first, hid, hlexeme, ?_⟩
  have hfirst := h.first _ id hid
  rw [hlexeme, identifiers, List.find?_filter] at hfirst
  simpa using hfirst.symm

/-- Recycling never merges two values. Between two moves the places to use again belong to no value;
names are never shared and stand for the first occurrence of an identifier; every literal and every
intermediate result has a place of its own; and the symbols in use are those of the names read so
far and of these values. At the end only the names are left. -/
theorem recycling_of_reached (input : Input) :
    (∀ matched s, Reached input matched s →
      (matched ++ [s.lookahead]).map .ok <+: Lexer.lexemes input ∧
      s.Recycles ∧
      (∀ x y id, s.workspace.symbols.lookup x = some id → s.workspace.symbols.lookup y = some id →
        x = y) ∧
      (∀ l ∈ matched ++ [s.lookahead], l.kind = .identifier → ∃ id first,
        s.workspace.symbols.lookup l.text = some id ∧
        (s.workspace.symbols.symbol id).lexeme = some first ∧
        ((matched ++ [s.lookahead]).find? fun m => m.kind = .identifier ∧ m.text = l.text) =
          some first) ∧
      s.unnamed.Nodup ∧
      s.workspace.symbols.size =
        (distinctNames (matched ++ [s.lookahead])).length + s.unnamed.length) ∧
    ∀ s, outcome {} input = .ok () s → ∃ read, Lexer.lexemes input = read.map .ok ∧
      s.workspace.symbols.size = (distinctNames read).length := by
  constructor
  · intro matched s h
    obtain ⟨v, hr, -⟩ := h.exists_safe
    obtain ⟨tail, hlexemes, -⟩ := h.exists_lexemes_eq
    have hrecycles := hr.recycles
    obtain ⟨live, bank, hw, -⟩ := hr
    refine ⟨⟨tail, hlexemes.symm⟩, hrecycles, ?_, ?_, ?_, h.size_eq⟩
    · intro x y id hx hy
      exact hw.coherent.name_eq hx hy
    · intro l hm hk
      exact h.knows.exists_first hm hk
    · rw [hw.unnamed_eq]
      exact hw.coherent.nodup_unnamed
  · intro s hs
    obtain ⟨matched, s', hreached, hc, hworkspace⟩ := Reached.exists_of_outcome_ok hs
    obtain ⟨hlexemes, hunnamed⟩ := hreached.finished hc
    refine ⟨_, hlexemes, ?_⟩
    rw [hworkspace, hreached.size_eq, hunnamed]
    rfl

end AnyDistance

theorem recycling_of_productOfSums :
    (∃ matched s, Reached (.ofText productOfSums) matched s ∧
      s.workspace.symbols.free ≠ [] ∧ s.unnamed ≠ [] ∧ s.Recycles ∧
      s.workspace.symbols.size =
        (distinctNames (matched ++ [s.lookahead])).length + s.unnamed.length) ∧
    ∃ s read, outcome {} (.ofText countdown) = .ok () s ∧
      Lexer.lexemes (.ofText countdown) = read.map .ok ∧
      s.workspace.symbols.size = (distinctNames read).length := by
  constructor
  · obtain ⟨matched, s, hreached, hp⟩ : ∃ matched s, Reached (.ofText productOfSums) matched s ∧
        decide (s.workspace.symbols.free ≠ [] ∧ s.unnamed ≠ []) = true :=
      exists_reached_of_stateAfter (n := 80) (by decide +kernel)
    obtain ⟨hfree, hunnamed⟩ := of_decide_eq_true hp
    obtain ⟨-, hrecycles, -, -, -, hsize⟩ := (recycling_of_reached _).1 matched s hreached
    exact ⟨matched, s, hreached, hfree, hunnamed, hrecycles, hsize⟩
  · cases ho : outcome {} (.ofText countdown) with
    | ok _ s =>
      obtain ⟨read, hlexemes, hsize⟩ := (recycling_of_reached _).2 s ho
      exact ⟨s, read, rfl, hlexemes, hsize⟩
    | error d s =>
      obtain ⟨a, ha⟩ := exists_compile_countdown
      rw [compile, compileAfter, outcomeInto_of_error ho] at ha
      cases ha

end OnePass
