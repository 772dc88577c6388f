import Mathlib.Tactic.Common
import OnePass.Proofs.Translation
import OnePass.Workspace

/-! # Coherence of symbols and registers

What the symbol table and the register bank have in common while values wait to be used. Each
waiting value has a symbol; only variables share one. The registers taken are a run from the lowest
one on, and the symbols know which of them they have.
-/
namespace OnePass

/-! ## Runs of registers -/

theorem Register.ext_index {q r : Register} (h : q.index.val = r.index.val) : q = r := by
  cases q
  cases r
  congr
  exact Fin.ext h

theorem Register.mem_all (r : Register) : r ∈ Register.all :=
  List.mem_map.mpr ⟨r.index, List.mem_finRange _, rfl⟩

namespace RegisterBank

variable {α : Type} {bank : RegisterBank α}

theorem holder_bind (bank : RegisterBank α) (r q : Register) (a : α) :
    (bank.bind r a).holder q = if q = r then some a else bank.holder q := by
  simp only [holder, bind, Fin.getElem_fin, Vector.getElem_set]
  by_cases h : q = r
  · simp [h]
  · have : r.index.val ≠ q.index.val := fun he => h (Register.ext_index he.symm)
    simp [h, this]

theorem holder_release [DecidableEq α] (bank : RegisterBank α) (r : Register) (a : α) :
    (bank.release a).holder r = if bank.holder r = some a then none else bank.holder r := by
  simp only [holder, release, Fin.getElem_fin, Vector.getElem_map]
  congr

@[simp] theorem holder_empty (r : Register) : ({} : RegisterBank α).holder r = none := by
  simp [holder]

/-- The values stand in the lowest registers, in their order, and the others are empty. -/
structure Stacked (bank : RegisterBank α) (values : List α) : Prop where
  holder : ∀ r, bank.holder r = values[r.index.val]?
  fits : values.length ≤ registerCount

variable {values : List α}

theorem stacked_empty : Stacked ({} : RegisterBank α) [] :=
  ⟨by simp, by simp⟩

theorem Stacked.eq_empty (h : Stacked bank []) : bank = {} := by
  obtain ⟨holders⟩ := bank
  congr
  ext i hi : 1
  have := h.holder ⟨⟨i, hi⟩⟩
  simpa [RegisterBank.holder] using this

theorem find?_above : ∀ n ≤ registerCount,
    (Register.all.find? fun r => decide (n ≤ r.index.val)) = Register.above? n := by
  decide

theorem Stacked.firstFree? (h : Stacked bank values) :
    bank.firstFree? = Register.above? values.length := by
  rw [← find?_above _ h.fits, RegisterBank.firstFree?]
  congr 1
  funext r
  rw [h.holder, Bool.eq_iff_iff]
  simp

theorem Stacked.bind (h : Stacked bank values) {r : Register}
    (hr : Register.above? values.length = some r) (a : α) :
    Stacked (bank.bind r a) (values ++ [a]) := by
  have hindex := Register.index_above hr
  refine ⟨fun q => ?_, ?_⟩
  · rw [holder_bind, h.holder]
    by_cases hq : q = r
    · simp [hq, hindex]
    · have : q.index.val ≠ values.length := fun he => hq (Register.ext_index (he.trans hindex.symm))
      grind
  · have := r.index.isLt
    simp only [List.length_append, List.length_cons, List.length_nil]
    omega

theorem Stacked.exists_above {a : α} {top : List α} (h : Stacked bank (values ++ a :: top)) :
    ∃ r, Register.above? values.length = some r ∧ bank.holder r = some a := by
  have hlt : values.length < registerCount := by
    have := h.fits
    simp only [List.length_append, List.length_cons] at this
    omega
  refine ⟨⟨⟨values.length, hlt⟩⟩, by simp [Register.above?, hlt], ?_⟩
  rw [h.holder]
  simp

theorem holder_release_all [DecidableEq α] (released : List α) (bank : RegisterBank α)
    (r : Register) : (released.foldl release bank).holder r =
      if ∃ a ∈ released, bank.holder r = some a then none else bank.holder r := by
  induction released generalizing bank with
  | nil => simp
  | cons a released ih =>
    rw [List.foldl_cons, ih, holder_release]
    by_cases h : bank.holder r = some a <;> simp [h]

theorem Stacked.release_all [DecidableEq α] {top : List α}
    (h : Stacked bank (values ++ top)) (released : List α) (hv : ∀ a ∈ released, a ∉ values)
    (ht : ∀ a ∈ top, a ∈ released) : Stacked (released.foldl release bank) values := by
  refine ⟨fun r => ?_, ?_⟩
  · rw [holder_release_all, h.holder]
    by_cases hr : r.index.val < values.length
    · rw [List.getElem?_append_left hr, if_neg]
      rintro ⟨a, ha, he⟩
      exact hv a ha (List.mem_of_getElem? he)
    · rw [List.getElem?_append_right (Nat.le_of_not_lt hr),
        List.getElem?_eq_none (Nat.le_of_not_lt hr)]
      split
      · rfl
      · next hnone =>
        cases he : top[r.index.val - values.length]? with
        | none => rfl
        | some a => exact absurd ⟨a, ht a (List.mem_of_getElem? he), he⟩ hnone
  · exact Nat.le_trans (by simp) h.fits

end RegisterBank

/-! ## Places of the arena -/

namespace SymbolTable

variable {table : SymbolTable} {id : SymbolId}

def Contains (table : SymbolTable) (id : SymbolId) : Prop :=
  id.index < table.symbols.size

theorem symbol_of_not_contains (h : ¬ table.Contains id) : table.symbol id = {} := by
  rw [Contains, Nat.not_lt] at h
  simp [symbol, Array.getElem?_eq_none h]

theorem symbol_update (h : table.Contains id) (change : Symbol → Symbol) (j : SymbolId) :
    (table.update id change).symbol j =
      if j = id then change (table.symbol id) else table.symbol j := by
  have hi : id.index < table.symbols.size := h
  simp only [symbol, update, Array.getElem?_modify]
  by_cases hj : j = id
  · simp [hj, hi]
  · have : id.index ≠ j.index := fun he => hj (by cases j; cases id; congr; exact he.symm)
    simp [hj, this]

theorem symbol_update_same {β : Type} (f : Symbol → β) (h : table.Contains id)
    {change : Symbol → Symbol} (hf : f (change (table.symbol id)) = f (table.symbol id))
    (j : SymbolId) : f ((table.update id change).symbol j) = f (table.symbol j) := by
  rw [symbol_update h]
  by_cases hj : j = id
  · rw [if_pos hj, hf, hj]
  · rw [if_neg hj]

theorem contains_update (change : Symbol → Symbol) (j : SymbolId) :
    (table.update id change).Contains j ↔ table.Contains j := by
  simp [Contains, update]

/-- The places to use again are empty, and none of them is listed twice. -/
structure Tidy (table : SymbolTable) : Prop where
  contains : ∀ id ∈ table.free, table.Contains id
  empty : ∀ id ∈ table.free, table.symbol id = {}
  nodup : table.free.Nodup

theorem Tidy.update (h : table.Tidy) (hc : table.Contains id) {change : Symbol → Symbol}
    (hf : id ∉ table.free ∨ change {} = {}) : (table.update id change).Tidy where
  contains j hj := (contains_update _ j).mpr (h.contains j hj)
  empty j hj := by
    rw [symbol_update hc]
    by_cases he : j = id
    · subst he
      rw [if_pos rfl, h.empty j hj]
      exact hf.resolve_left fun hn => hn hj
    · rw [if_neg he]
      exact h.empty j hj
  nodup := h.nodup

theorem Tidy.discard (h : table.Tidy) (hc : table.Contains id) (hf : id ∉ table.free) :
    Tidy { table.update id fun _ => {} with free := id :: table.free } where
  contains j hj := (contains_update _ j).mpr
    ((List.mem_cons.mp hj).elim (fun he => he ▸ hc) (h.contains j))
  empty j hj := by
    refine (symbol_update hc _ j).trans ?_
    by_cases he : j = id
    · rw [if_pos he]
    · rw [if_neg he]
      exact h.empty j ((List.mem_cons.mp hj).resolve_left he)
  nodup := List.nodup_cons.mpr ⟨hf, h.nodup⟩

structure Added (table : SymbolTable) (s : Symbol) (id : SymbolId) (table' : SymbolTable) :
    Prop where
  symbol : ∀ j, table'.symbol j = if j = id then s else table.symbol j
  contains : ∀ j, table'.Contains j ↔ j = id ∨ table.Contains j
  vacant : id ∈ table.free ∨ ¬ table.Contains id
  names : table'.names = table.names
  declared : table'.declared = table.declared
  free : table'.free <:+ table.free
  kept : ∀ j ∈ table.free, j = id ∨ j ∈ table'.free
  taken : id ∉ table'.free

theorem added_add (h : table.Tidy) (s : Symbol) :
    Added table s (table.add s).1 (table.add s).2 := by
  unfold add
  split
  · rename_i id rest hfree
    have hc : table.Contains id := h.contains id (by simp [hfree])
    have hnodup := h.nodup
    rw [hfree, List.nodup_cons] at hnodup
    exact
      { symbol := symbol_update hc _
        contains := fun j => ⟨fun hj => .inr ((contains_update _ j).mp hj),
          fun hj => (contains_update _ j).mpr (hj.elim (fun he => he ▸ hc) fun hj => hj)⟩
        vacant := .inl (by simp [hfree])
        names := rfl
        declared := rfl
        free := by simp [hfree]
        kept := by simp [hfree]
        taken := hnodup.1 }
  · rename_i hfree
    exact
      { symbol := fun j => by
          simp only [SymbolTable.symbol, Array.getElem?_push]
          by_cases hj : j.index = table.symbols.size
          · have : j = ⟨table.symbols.size⟩ := by cases j; congr
            simp [this]
          · have : j ≠ ⟨table.symbols.size⟩ := fun he => hj (by rw [he])
            simp [hj, this]
        contains := fun j => by
          have : j = ⟨table.symbols.size⟩ ↔ j.index = table.symbols.size := by
            cases j
            simp
          simp only [Contains, Array.size_push, this]
          omega
        vacant := .inr (by simp [Contains])
        names := rfl
        declared := rfl
        free := List.suffix_refl _
        kept := fun _ hj => .inr hj
        taken := by simp [hfree] }

theorem Added.empty {table' : SymbolTable} {s : Symbol} (h : Added table s id table')
    (ht : table.Tidy) : table.symbol id = {} := by
  rcases h.vacant with hid | hid
  · exact ht.empty id hid
  · exact symbol_of_not_contains hid

theorem Added.tidy {table' : SymbolTable} {s : Symbol} (h : Added table s id table')
    (ht : table.Tidy) : table'.Tidy where
  contains j hj := (h.contains j).mpr (.inr (ht.contains j (h.free.subset hj)))
  empty j hj := by
    rw [h.symbol, if_neg fun he : j = id => h.taken (he ▸ hj)]
    exact ht.empty j (h.free.subset hj)
  nodup := h.free.sublist.nodup ht.nodup

end SymbolTable

/-! ## Waiting values -/

abbrev Holding := SymbolId × Value

def SymbolTable.Denotes (table : SymbolTable) (id : SymbolId) : Value → Prop
  | .var x => table.lookup x = some id
  | .number digits => ∃ p, (table.symbol id).lexeme = some ⟨digits, .number, p⟩
  | .text literal => ∃ p, (table.symbol id).lexeme = some ⟨literal, .stringConst, p⟩
  | .temporary => (table.symbol id).lexeme = none

theorem SymbolTable.Denotes.of_eq {table table' : SymbolTable} {id : SymbolId} {value : Value}
    (h : table.Denotes id value)
    (hnames : ∀ x, table.lookup x = some id → table'.lookup x = some id)
    (hlexeme : (table'.symbol id).lexeme = (table.symbol id).lexeme) : table'.Denotes id value := by
  cases value with
  | var x => exact hnames x h
  | number _ | text _ | temporary =>
    rw [SymbolTable.Denotes, hlexeme]
    exact h

/-- The symbols and registers are those of a program that has declared the names and in which the
values wait. -/
structure Coherent (table : SymbolTable) (bank : RegisterBank SymbolId) (declared : List String)
    (live : List Holding) : Prop where
  tidy : table.Tidy
  count : table.declared = declared.length
  known : ∀ x ∈ declared, ∃ id, table.lookup x = some id
  named : ∀ x id, table.lookup x = some id →
    (∃ p, (table.symbol id).lexeme = some ⟨x, .identifier, p⟩) ∧
      (table.symbol id).slot? = slot? declared x
  contains : ∀ h ∈ live, table.Contains h.1
  denotes : ∀ h ∈ live, table.Denotes h.1 h.2
  taken : ∀ h ∈ live, h.1 ∉ table.free
  /-- Only variables share a symbol. -/
  distinct : live.Pairwise fun h h' => h.1 = h'.1 → ∃ x, h.2 = .var x ∧ h'.2 = .var x
  bound : ∀ id r, (table.symbol id).register = some r ↔ bank.holder r = some id

namespace Coherent

variable {table : SymbolTable} {bank : RegisterBank SymbolId} {declared : List String}
  {live : List Holding} {id : SymbolId} {value : Value}

theorem empty : Coherent {} {} [] [] where
  tidy := ⟨by simp, by simp, by simp⟩
  count := rfl
  known := by simp
  named := by simp [SymbolTable.lookup]
  contains := by simp
  denotes := by simp
  taken := by simp
  distinct := by simp
  bound := by simp [SymbolTable.symbol]

theorem var_contains (h : Coherent table bank declared live) {x : String}
    (hx : table.lookup x = some id) : table.Contains id := by
  obtain ⟨⟨p, hp⟩, -⟩ := h.named x id hx
  by_contra hc
  simp [SymbolTable.symbol_of_not_contains hc] at hp

theorem var_taken (h : Coherent table bank declared live) {x : String}
    (hx : table.lookup x = some id) : id ∉ table.free := by
  intro hf
  obtain ⟨⟨p, hp⟩, -⟩ := h.named x id hx
  simp [h.tidy.empty id hf] at hp

theorem of_cons {hold : Holding} (h : Coherent table bank declared (hold :: live)) :
    Coherent table bank declared live where
  tidy := h.tidy
  count := h.count
  known := h.known
  named := h.named
  contains x hx := h.contains x (.tail _ hx)
  denotes x hx := h.denotes x (.tail _ hx)
  taken x hx := h.taken x (.tail _ hx)
  distinct := (List.pairwise_cons.mp h.distinct).2
  bound := h.bound

theorem name_eq (h : Coherent table bank declared live) {x y : String}
    (hx : table.lookup x = some id) (hy : table.lookup y = some id) : x = y := by
  obtain ⟨⟨p, hp⟩, -⟩ := h.named x id hx
  obtain ⟨⟨q, hq⟩, -⟩ := h.named y id hy
  rw [hp] at hq
  cases hq
  rfl

/-- Two values have the same symbol only if they are the same variable. -/
theorem eq_of_shared (h : Coherent table bank declared live) {x : String}
    (hx : table.lookup x = some id) {hold : Holding} (hm : hold ∈ live) (he : hold.1 = id) :
    hold.2 = .var x := by
  obtain ⟨⟨p, hp⟩, -⟩ := h.named x id hx
  have hd := h.denotes hold hm
  rw [he] at hd
  cases hv : hold.2 with
  | var y =>
    rw [hv] at hd
    rw [h.name_eq hx hd]
  | number digits => simp [hv, SymbolTable.Denotes, hp] at hd
  | text literal => simp [hv, SymbolTable.Denotes, hp] at hd
  | temporary => simp [hv, SymbolTable.Denotes, hp] at hd

theorem cons_var (h : Coherent table bank declared live) {x : String}
    (hx : table.lookup x = some id) : Coherent table bank declared ((id, .var x) :: live) where
  tidy := h.tidy
  count := h.count
  known := h.known
  named := h.named
  contains := by simpa [h.var_contains hx] using h.contains
  denotes := by simpa [SymbolTable.Denotes, hx] using h.denotes
  taken := by simpa [h.var_taken hx] using h.taken
  distinct := List.pairwise_cons.mpr ⟨fun _ hm he => ⟨x, rfl, h.eq_of_shared hx hm he.symm⟩,
    h.distinct⟩
  bound := h.bound

theorem perm {live' : List Holding} (h : Coherent table bank declared live)
    (hp : live.Perm live') : Coherent table bank declared live' where
  tidy := h.tidy
  count := h.count
  known := h.known
  named := h.named
  contains x hx := h.contains x (hp.mem_iff.mpr hx)
  denotes x hx := h.denotes x (hp.mem_iff.mpr hx)
  taken x hx := h.taken x (hp.mem_iff.mpr hx)
  distinct := by
    refine (hp.pairwise_iff fun hxy he => ?_).mp h.distinct
    obtain ⟨x, hx, hy⟩ := hxy he.symm
    exact ⟨x, hy, hx⟩
  bound := h.bound

/-! ### New symbols -/

theorem holding_ne {s : Symbol} {table' : SymbolTable} (h : Coherent table bank declared live)
    (ha : table.Added s id table') {hold : Holding} (hm : hold ∈ live) : hold.1 ≠ id := by
  intro he
  rcases ha.vacant with hf | hc
  · exact h.taken hold hm (he ▸ hf)
  · exact hc (he ▸ h.contains hold hm)

theorem var_ne {s : Symbol} {table' : SymbolTable} (h : Coherent table bank declared live)
    (ha : table.Added s id table') {x : String} {j : SymbolId} (hx : table.lookup x = some j) :
    j ≠ id := by
  intro he
  obtain ⟨⟨p, hp⟩, -⟩ := h.named x j hx
  simp [he, ha.empty h.tidy] at hp

theorem added {s : Symbol} {table' : SymbolTable} (h : Coherent table bank declared live)
    (ha : table.Added s id table') (hs : s.register = none) :
    Coherent table' bank declared live := by
  have hlookup : ∀ x, table'.lookup x = table.lookup x := by simp [SymbolTable.lookup, ha.names]
  have hsame : ∀ hold ∈ live, table'.symbol hold.1 = table.symbol hold.1 := fun hold hm => by
    rw [ha.symbol, if_neg (h.holding_ne ha hm)]
  exact
    { tidy := ha.tidy h.tidy
      count := ha.declared.trans h.count
      known := fun x hx => by
        obtain ⟨j, hj⟩ := h.known x hx
        exact ⟨j, (hlookup x).trans hj⟩
      named := fun x j hx => by
        rw [hlookup] at hx
        rw [ha.symbol, if_neg (h.var_ne ha hx)]
        exact h.named x j hx
      contains := fun hold hm => (ha.contains _).mpr (.inr (h.contains hold hm))
      denotes := fun hold hm => (h.denotes hold hm).of_eq (fun x hx => (hlookup x).trans hx)
        (by rw [hsame hold hm])
      taken := fun hold hm hf => h.taken hold hm (ha.free.subset hf)
      distinct := h.distinct
      bound := fun j r => by
        rw [← h.bound, ha.symbol]
        split
        · next he => simp [hs, he, ha.empty h.tidy]
        · rfl }

theorem cons_added {s : Symbol} {table' : SymbolTable} (h : Coherent table bank declared live)
    (ha : table.Added s id table') (hs : s.register = none) (hd : table'.Denotes id value) :
    Coherent table' bank declared ((id, value) :: live) :=
  { h.added ha hs with
    contains := List.forall_mem_cons.mpr
      ⟨(ha.contains id).mpr (.inl rfl), (h.added ha hs).contains⟩
    denotes := List.forall_mem_cons.mpr ⟨hd, (h.added ha hs).denotes⟩
    taken := List.forall_mem_cons.mpr ⟨ha.taken, (h.added ha hs).taken⟩
    distinct := List.pairwise_cons.mpr
      ⟨fun _ hm he => absurd he.symm (h.holding_ne ha hm), h.distinct⟩ }

theorem literal (h : Coherent table bank declared live) (lexeme : Lexeme)
    (hd : (table.literal lexeme).2.Denotes (table.literal lexeme).1 value) :
    Coherent (table.literal lexeme).2 bank declared (((table.literal lexeme).1, value) :: live) :=
  h.cons_added (SymbolTable.added_add h.tidy _) rfl hd

theorem symbol_literal (h : Coherent table bank declared live) (lexeme : Lexeme) :
    (table.literal lexeme).2.symbol (table.literal lexeme).1 = { lexeme := some lexeme } := by
  rw [SymbolTable.literal, (SymbolTable.added_add h.tidy _).symbol, if_pos rfl]

theorem anonymous (h : Coherent table bank declared live) :
    Coherent table.anonymous.2 bank declared ((table.anonymous.1, .temporary) :: live) :=
  h.cons_added (SymbolTable.added_add h.tidy _) rfl
    (by rw [SymbolTable.Denotes, SymbolTable.anonymous,
      (SymbolTable.added_add h.tidy _).symbol, if_pos rfl])

theorem slot?_of_unknown (h : Coherent table bank declared live) {x : String}
    (hx : table.lookup x = none) : slot? declared x = none := by
  have hnot : x ∉ declared := fun hm => by
    obtain ⟨j, hj⟩ := h.known x hm
    simp [hx] at hj
  simp [slot?, hnot]

theorem lookup_cons (table : SymbolTable) (x y : String) (id : SymbolId) :
    SymbolTable.lookup { table with names := (x, id) :: table.names } y =
      if y = x then some id else table.lookup y := by
  rw [SymbolTable.lookup, List.lookup_cons, SymbolTable.lookup]
  by_cases hy : y = x
  · simp [hy]
  · simp [hy, beq_eq_false_iff_ne.mpr hy]

theorem naming (h : Coherent table bank declared live) {x : String} {p : Position}
    (hx : table.lookup x = none) (hs : table.symbol id = { lexeme := some ⟨x, .identifier, p⟩ }) :
    Coherent { table with names := (x, id) :: table.names } bank declared live := by
  have hother : ∀ y j, table.lookup y = some j → y ≠ x := by
    rintro y j hy rfl
    simp [hy] at hx
  exact
    { tidy := ⟨h.tidy.contains, h.tidy.empty, h.tidy.nodup⟩
      count := h.count
      known := fun y hy => by
        obtain ⟨j, hj⟩ := h.known y hy
        exact ⟨j, by rw [lookup_cons, if_neg (hother y j hj), hj]⟩
      named := fun y j hy => by
        rw [lookup_cons] at hy
        split at hy
        · next he =>
          cases hy
          change (∃ p, (table.symbol id).lexeme = _) ∧ (table.symbol id).slot? = _
          rw [hs, he, h.slot?_of_unknown hx]
          exact ⟨⟨p, rfl⟩, rfl⟩
        · exact h.named y j hy
      contains := h.contains
      denotes := fun hold hm => (h.denotes hold hm).of_eq
        (fun y hy => by rw [lookup_cons, if_neg (hother y _ hy), hy]) rfl
      taken := h.taken
      distinct := h.distinct
      bound := h.bound }

/-- A name that is met stands for its symbol, which is added if it is the first time. -/
theorem reference (h : Coherent table bank declared live) {lexeme : Lexeme}
    (hk : lexeme.kind = .identifier) :
    Coherent (table.reference lexeme).2 bank declared live ∧
      (table.reference lexeme).2.lookup lexeme.text = some (table.reference lexeme).1 := by
  unfold SymbolTable.reference
  split
  · next j hj => exact ⟨h, hj⟩
  · next hnone =>
    have ha := SymbolTable.added_add h.tidy { lexeme := some lexeme }
    refine ⟨(h.added ha rfl).naming (p := lexeme.position) ?_ ?_, by simp [lookup_cons]⟩
    · rw [SymbolTable.lookup, ha.names]
      exact hnone
    · rw [ha.symbol, if_pos rfl, ← hk]

/-! ### Registers -/

theorem symbol_setRegister (hc : table.Contains id) (register : Option Register) (j : SymbolId) :
    (table.setRegister id register).symbol j =
      if j = id then { table.symbol id with register } else table.symbol j :=
  SymbolTable.symbol_update hc _ j

theorem setRegister (h : Coherent table bank declared live) (hc : table.Contains id)
    {register : Option Register} {bank' : RegisterBank SymbolId}
    (hf : id ∉ table.free ∨ register = none)
    (hb : ∀ j r, ((table.setRegister id register).symbol j).register = some r ↔
      bank'.holder r = some j) :
    Coherent (table.setRegister id register) bank' declared live := by
  have hlexeme : ∀ j, ((table.setRegister id register).symbol j).lexeme =
      (table.symbol j).lexeme := SymbolTable.symbol_update_same Symbol.lexeme hc rfl
  have hslot : ∀ j, ((table.setRegister id register).symbol j).slot? = (table.symbol j).slot? :=
    SymbolTable.symbol_update_same Symbol.slot? hc rfl
  exact
    { tidy := h.tidy.update hc (hf.imp_right fun hn => by rw [hn])
      count := h.count
      known := h.known
      named := fun x j hx => by
        rw [hlexeme, hslot]
        exact h.named x j hx
      contains := fun hold hm => (SymbolTable.contains_update _ _).mpr (h.contains hold hm)
      denotes := fun hold hm => (h.denotes hold hm).of_eq (fun _ hx => hx) (hlexeme hold.1)
      taken := h.taken
      distinct := h.distinct
      bound := hb }

theorem bind (h : Coherent table bank declared live) (hc : table.Contains id)
    (hf : id ∉ table.free) {r : Register} (hr : bank.holder r = none)
    (hid : (table.symbol id).register = none) :
    Coherent (table.setRegister id (some r)) (bank.bind r id) declared live := by
  refine h.setRegister hc (.inl hf) fun j q => ?_
  have hq := h.bound j q
  have hq' := h.bound id q
  rw [symbol_setRegister hc, RegisterBank.holder_bind]
  grind

theorem release (h : Coherent table bank declared live) (hc : table.Contains id) :
    Coherent (table.setRegister id none) (bank.release id) declared live := by
  refine h.setRegister hc (.inr rfl) fun j q => ?_
  have hq := h.bound j q
  rw [symbol_setRegister hc, RegisterBank.holder_release]
  grind

/-- Nothing else waits at a place that is not a variable's. -/
theorem fresh_of_cons (h : Coherent table bank declared ((id, value) :: live))
    (hvar : ∀ x j, table.lookup x = some j → j ≠ id) {hold : Holding} (hm : hold ∈ live) :
    hold.1 ≠ id := by
  intro he
  obtain ⟨x, -, hx⟩ := List.rel_of_pairwise_cons h.distinct hm he.symm
  have hd := h.denotes hold (.tail _ hm)
  rw [hx] at hd
  exact hvar x _ hd he

/-- A value that has been used frees its place, unless it is a variable. -/
theorem discard (h : Coherent table bank declared ((id, value) :: live))
    (hid : (table.symbol id).register = none) :
    Coherent (table.discard id) bank declared live := by
  have hc : table.Contains id := h.contains _ List.mem_cons_self
  unfold SymbolTable.discard
  split
  · exact h.of_cons
  · next hkind =>
    have hvar : ∀ x j, table.lookup x = some j → j ≠ id := by
      rintro x j hx rfl
      obtain ⟨⟨p, hp⟩, -⟩ := h.named x j hx
      simp [hp] at hkind
    have hsame : ∀ j, j ≠ id → (table.update id fun _ => {}).symbol j = table.symbol j :=
      fun j hj => (SymbolTable.symbol_update hc _ j).trans (if_neg hj)
    have hregister : ∀ j, ((table.update id fun _ => {}).symbol j).register =
        (table.symbol j).register := SymbolTable.symbol_update_same Symbol.register hc hid.symm
    exact
      { tidy := h.tidy.discard hc (h.taken _ List.mem_cons_self)
        count := h.count
        known := h.known
        named := fun x j hx => by
          have hnamed := h.named x j hx
          rw [← hsame j (hvar x j hx)] at hnamed
          exact hnamed
        contains := fun hold hm =>
          (SymbolTable.contains_update _ _).mpr (h.contains hold (.tail _ hm))
        denotes := fun hold hm => (h.denotes hold (.tail _ hm)).of_eq (fun _ hx => hx)
          (congrArg Symbol.lexeme (hsame hold.1 (h.fresh_of_cons hvar hm)))
        taken := fun hold hm hf => (List.mem_cons.mp hf).elim (h.fresh_of_cons hvar hm)
          (h.taken hold (.tail _ hm))
        distinct := (List.pairwise_cons.mp h.distinct).2
        bound := fun j r => by
          rw [← h.bound, ← hregister]
          rfl }

theorem consume (h : Coherent table bank declared ((id, value) :: live)) :
    Coherent ((table.setRegister id none).discard id) (bank.release id) declared live := by
  have hc : table.Contains id := h.contains _ List.mem_cons_self
  refine (h.release hc).discard ?_
  rw [symbol_setRegister hc, if_pos rfl]

/-! ### Declarations -/

theorem slot?_append_singleton {x : String} (hx : x ∉ declared) (y : String) :
    slot? (declared ++ [x]) y = if y = x then some (declared.length + 1) else slot? declared y := by
  induction declared with
  | nil => by_cases hy : y = x <;> simp [slot?, hy, Ne.symm]
  | cons z declared ih =>
    have ih := ih fun hm => hx (.tail _ hm)
    have hz : x ≠ z := fun he => hx (he ▸ List.mem_cons_self)
    simp only [slot?, List.cons_append, List.idxOf?_cons] at ih ⊢
    by_cases hy : z = y
    · have : y ≠ x := fun he => hz (he.symm.trans hy.symm)
      simp [hy, this]
    · have hzy : (z == y) = false := by simpa using hy
      simp only [hzy, Bool.false_eq_true, if_false]
      rw [ih]
      split <;> rfl

theorem slot?_eq_none {x : String} : slot? declared x = none ↔ x ∉ declared := by
  simp [slot?]

theorem declare_error (h : Coherent table bank declared live) {x : String} (site : Position)
    (hx : table.lookup x = some id) (hd : x ∈ declared) :
    ∃ earlier, table.declare id site = .error earlier := by
  have hslot := (h.named x id hx).2
  unfold SymbolTable.declare
  split
  · exact ⟨_, rfl⟩
  · next hnone =>
    rw [Symbol.slot?, hnone] at hslot
    exact absurd hd (slot?_eq_none.mp hslot.symm)

theorem slot?_declared (h : Coherent table bank declared live) {x : String} {site : Position}
    (hx : table.lookup x = some id) (hd : x ∉ declared) {y : String} {j : SymbolId}
    (hy : table.lookup y = some j) :
    ((table.update id fun s =>
      { s with declaration := some ⟨table.declared + 1, site⟩ }).symbol j).slot? =
        slot? (declared ++ [x]) y := by
  rw [slot?_append_singleton hd, SymbolTable.symbol_update (h.var_contains hx)]
  by_cases hyx : y = x
  · obtain rfl : id = j := Option.some.inj (hx.symm.trans (hyx ▸ hy))
    simp [Symbol.slot?, hyx, h.count]
  · have hj : j ≠ id := by
      rintro rfl
      exact hyx (h.name_eq hy hx)
    rw [if_neg hj, if_neg hyx]
    exact (h.named y j hy).2

theorem declare_ok (h : Coherent table bank declared live) {x : String} (site : Position)
    (hx : table.lookup x = some id) (hd : x ∉ declared) :
    ∃ slot table', table.declare id site = .ok (slot, table') ∧
      Coherent table' bank (declared ++ [x]) live := by
  have hslot := (h.named x id hx).2
  have hc := h.var_contains hx
  unfold SymbolTable.declare
  split
  · next earlier he =>
    rw [Symbol.slot?, he, slot?_eq_none.mpr hd] at hslot
    cases hslot
  · refine ⟨_, _, rfl, ?_⟩
    let change := fun s : Symbol => { s with declaration := some ⟨table.declared + 1, site⟩ }
    have htidy : (table.update id change).Tidy := h.tidy.update hc (.inl (h.var_taken hx))
    have hlexeme : ∀ j, ((table.update id change).symbol j).lexeme = (table.symbol j).lexeme :=
      SymbolTable.symbol_update_same Symbol.lexeme hc rfl
    have hregister : ∀ j, ((table.update id change).symbol j).register =
        (table.symbol j).register := SymbolTable.symbol_update_same Symbol.register hc rfl
    exact
      { tidy := ⟨htidy.contains, htidy.empty, htidy.nodup⟩
        count := by simp [h.count]
        known := fun y hy => by
          rcases List.mem_append.mp hy with hy | hy
          · exact h.known y hy
          · exact ⟨id, List.mem_singleton.mp hy ▸ hx⟩
        named := fun y j hy => by
          obtain ⟨hname, -⟩ := h.named y j hy
          simp only [← hlexeme j] at hname
          exact ⟨hname, h.slot?_declared hx hd hy⟩
        contains := fun hold hm => (SymbolTable.contains_update _ _).mpr (h.contains hold hm)
        denotes := fun hold hm => (h.denotes hold hm).of_eq (fun _ hy => hy) (hlexeme hold.1)
        taken := h.taken
        distinct := h.distinct
        bound := fun j r => by
          rw [← h.bound, ← hregister]
          rfl }

end Coherent

end OnePass
