import Mathlib.Data.List.Perm.Basic
import Mathlib.Data.List.Nodup
import OnePass.Proofs.Coherence

/-! # A census of the arena

No place of the arena is lost: each one is free, belongs to a name, or holds a value that waits to
be used. These are three disjoint kinds, so the symbols in use can be counted: there is one for each
name and one for each waiting value that is not a variable.
-/
namespace OnePass

def Value.kind? : Value → Option Terminal
  | var _ => some .identifier
  | number _ => some .number
  | text _ => some .stringConst
  | temporary => none

def Value.isVar : Value → Bool
  | var _ => true
  | _ => false

namespace SymbolTable

/-- Every place is free, belongs to a name, or holds a value that waits. -/
def Accounts (table : SymbolTable) (live : List Holding) : Prop :=
  ∀ id, table.Contains id →
    id ∈ table.free ∨ (∃ x, table.lookup x = some id) ∨ ∃ hold ∈ live, hold.1 = id

variable {table table' : SymbolTable} {bank : RegisterBank SymbolId} {declared : List String}
  {live live' : List Holding} {id : SymbolId} {value : Value}

theorem accounts_empty : Accounts {} [] := by
  intro id hc
  exact absurd hc (Nat.not_lt_zero _)

namespace Accounts

theorem perm (h : table.Accounts live) (hp : live.Perm live') : table.Accounts live' := by
  intro id hc
  rcases h id hc with hf | hx | ⟨hold, hm, he⟩
  · exact .inl hf
  · exact .inr (.inl hx)
  · exact .inr (.inr ⟨hold, hp.mem_iff.mp hm, he⟩)

theorem cons (h : table.Accounts live) (hold : Holding) : table.Accounts (hold :: live) := by
  intro id hc
  rcases h id hc with hf | hx | ⟨other, hm, he⟩
  · exact .inl hf
  · exact .inr (.inl hx)
  · exact .inr (.inr ⟨other, .tail _ hm, he⟩)

/-- A variable need not be counted among the values that wait. -/
theorem of_cons_named (h : table.Accounts ((id, value) :: live)) {x : String}
    (hx : table.lookup x = some id) : table.Accounts live := by
  intro j hc
  rcases h j hc with hf | hj | ⟨hold, hm, he⟩
  · exact .inl hf
  · exact .inr (.inl hj)
  · rcases List.mem_cons.mp hm with rfl | hm
    · exact .inr (.inl ⟨x, he ▸ hx⟩)
    · exact .inr (.inr ⟨hold, hm, he⟩)

theorem of_eq (h : table.Accounts live) (hc : ∀ j, table'.Contains j ↔ table.Contains j)
    (hn : table'.names = table.names) (hf : table'.free = table.free) : table'.Accounts live := by
  intro j hj
  simp only [lookup, hn, hf]
  exact h j ((hc j).mp hj)

theorem update (h : table.Accounts live) (change : Symbol → Symbol) :
    (table.update id change).Accounts live :=
  h.of_eq (contains_update change) rfl rfl

/-! ## New symbols -/

theorem added {s : Symbol} (h : table.Accounts live) (ha : table.Added s id table') :
    table'.Accounts ((id, value) :: live) := by
  intro j hj
  by_cases he : j = id
  · exact .inr (.inr ⟨(id, value), List.mem_cons_self, he.symm⟩)
  · have hlookup : ∀ x, table'.lookup x = table.lookup x := by simp [lookup, ha.names]
    simp only [hlookup]
    rcases h j (((ha.contains j).mp hj).resolve_left he) with hf | hx | ⟨hold, hm, hold_eq⟩
    · exact .inl ((ha.kept j hf).resolve_left he)
    · exact .inr (.inl hx)
    · exact .inr (.inr ⟨hold, .tail _ hm, hold_eq⟩)

theorem literal (h : table.Accounts live) (ht : table.Tidy) (lexeme : Lexeme) :
    (table.literal lexeme).2.Accounts (((table.literal lexeme).1, value) :: live) :=
  h.added (added_add ht _)

theorem anonymous (h : table.Accounts live) (ht : table.Tidy) :
    table.anonymous.2.Accounts ((table.anonymous.1, value) :: live) :=
  h.added (added_add ht _)

/-- A name that is met for the first time keeps its place by being registered. -/
theorem reference (h : table.Accounts live) (ht : table.Tidy) (lexeme : Lexeme) :
    (table.reference lexeme).2.Accounts live := by
  unfold SymbolTable.reference
  split
  · exact h
  · next hnone =>
    have ha := added_add ht { lexeme := some lexeme }
    have hadded : (table.add { lexeme := some lexeme }).2.Accounts
      (((table.add { lexeme := some lexeme }).1, .temporary) :: live) := h.added ha
    intro j hj
    rcases hadded j hj with hf | ⟨x, hx⟩ | ⟨hold, hm, he⟩
    · exact .inl hf
    · refine .inr (.inl ⟨x, ?_⟩)
      rw [Coherent.lookup_cons, if_neg, hx]
      rintro rfl
      rw [lookup, ha.names, ← lookup, hnone] at hx
      cases hx
    · rcases List.mem_cons.mp hm with rfl | hm
      · exact .inr (.inl ⟨lexeme.text, by rw [Coherent.lookup_cons, if_pos rfl, ← he]⟩)
      · exact .inr (.inr ⟨hold, hm, he⟩)

/-! ## Used values -/

/-- A value that has been used gives its place back, unless it is a variable. -/
theorem discard (h : table.Accounts ((id, value) :: live))
    (hc : Coherent table bank declared ((id, value) :: live)) :
    (table.discard id).Accounts live := by
  have hd := hc.denotes _ List.mem_cons_self
  unfold SymbolTable.discard
  split
  · next hkind =>
    cases value with
    | var x => exact h.of_cons_named hd
    | number digits =>
      obtain ⟨p, hp⟩ := hd
      simp [hp] at hkind
    | text literal =>
      obtain ⟨p, hp⟩ := hd
      simp [hp] at hkind
    | temporary =>
      have hnone : (table.symbol id).lexeme = none := hd
      simp [hnone] at hkind
  · intro j hj
    rcases h j ((contains_update _ j).mp hj) with hf | hx | ⟨hold, hm, he⟩
    · exact .inl (.tail _ hf)
    · exact .inr (.inl hx)
    · rcases List.mem_cons.mp hm with rfl | hm
      · exact .inl (he ▸ List.mem_cons_self)
      · exact .inr (.inr ⟨hold, hm, he⟩)

theorem consume (h : table.Accounts ((id, value) :: live))
    (hc : Coherent table bank declared ((id, value) :: live)) :
    ((table.setRegister id none).discard id).Accounts live :=
  (h.update _).discard (hc.release (hc.contains _ List.mem_cons_self))

theorem declare {site : Position} {slot : Nat} (h : table.Accounts live)
    (hd : table.declare id site = .ok (slot, table')) : table'.Accounts live := by
  unfold SymbolTable.declare at hd
  split at hd
  · cases hd
  · cases hd
    exact (h.update _).of_eq (fun _ => Iff.rfl) rfl rfl

end Accounts

/-! ## Counting -/

def places (table : SymbolTable) : List SymbolId :=
  (List.range table.symbols.size).map SymbolId.mk

theorem mem_places : id ∈ table.places ↔ table.Contains id := by
  cases id
  simp [places, Contains]

theorem nodup_places : table.places.Nodup :=
  List.nodup_range.map fun _ _ h => SymbolId.mk.inj h

theorem lookup_of_mem (hk : (table.names.map Prod.fst).Nodup) {x : String}
    (hm : (x, id) ∈ table.names) : table.lookup x = some id := by
  obtain ⟨before, after, hsplit⟩ := List.append_of_mem hm
  rw [hsplit, List.map_append, List.map_cons, List.nodup_append] at hk
  refine List.lookup_eq_some_iff.mpr ⟨before, after, hsplit, fun p hp => ?_⟩
  have hne : p.1 ≠ x := hk.2.2 p.1 (List.mem_map_of_mem hp) x List.mem_cons_self
  simpa using hne.symm

theorem mem_of_lookup {x : String} (h : table.lookup x = some id) : (x, id) ∈ table.names := by
  obtain ⟨before, after, hsplit, -⟩ := List.lookup_eq_some_iff.mp h
  simp [hsplit]

end SymbolTable

namespace Coherent

variable {table : SymbolTable} {bank : RegisterBank SymbolId} {declared : List String}
  {live : List Holding}

theorem kind_eq (h : Coherent table bank declared live) {hold : Holding} (hm : hold ∈ live) :
    (table.symbol hold.1).lexeme.map Lexeme.kind = hold.2.kind? := by
  obtain ⟨id, value⟩ := hold
  have hd := h.denotes _ hm
  cases value with
  | temporary =>
    have hnone : (table.symbol id).lexeme = none := hd
    rw [hnone]
    rfl
  | var x =>
    obtain ⟨⟨p, hp⟩, -⟩ := h.named x id hd
    rw [hp]
    rfl
  | number _ | text _ =>
    obtain ⟨p, hp⟩ := hd
    rw [hp]
    rfl

def unnamed (live : List Holding) : List SymbolId :=
  (live.filter fun hold => !hold.2.isVar).map Prod.fst

theorem nodup_named (h : Coherent table bank declared live)
    (hk : (table.names.map Prod.fst).Nodup) : (table.names.map Prod.snd).Nodup := by
  refine (hk.of_map _).map_on ?_
  rintro ⟨x, id⟩ hx ⟨y, j⟩ hy he
  obtain rfl : id = j := he
  rw [h.name_eq (SymbolTable.lookup_of_mem hk hx) (SymbolTable.lookup_of_mem hk hy)]

theorem nodup_unnamed (h : Coherent table bank declared live) : (unnamed live).Nodup := by
  rw [unnamed, List.Nodup, List.pairwise_map]
  refine (h.distinct.filter _).imp_of_mem ?_
  intro hold hold' hm _ hrel he
  obtain ⟨x, hx, -⟩ := hrel he
  have hvar := (List.mem_filter.mp hm).2
  simp [hx, Value.isVar] at hvar

/-- A place that holds a waiting literal or result belongs to no name. -/
theorem lookup_ne_of_unnamed (h : Coherent table bank declared live) {id : SymbolId}
    (hm : id ∈ unnamed live) (x : String) : table.lookup x ≠ some id := by
  intro hx
  obtain ⟨hold, hf, rfl⟩ := List.mem_map.mp hm
  obtain ⟨hlive, hvar⟩ := List.mem_filter.mp hf
  simp [h.eq_of_shared hx hlive rfl, Value.isVar] at hvar

/-- The free places, those of the names and those of the waiting literals and results are all
places, each once. -/
theorem perm_places (h : Coherent table bank declared live) (ha : table.Accounts live)
    (hk : (table.names.map Prod.fst).Nodup) :
    (table.free ++ (table.names.map Prod.snd ++ unnamed live)).Perm table.places := by
  have hnamed : ∀ id ∈ table.names.map Prod.snd, ∃ x, table.lookup x = some id := by
    intro id hm
    obtain ⟨⟨x, j⟩, hj, rfl⟩ := List.mem_map.mp hm
    exact ⟨x, SymbolTable.lookup_of_mem hk hj⟩
  have hunnamed : ∀ id ∈ unnamed live, ∃ hold ∈ live, hold.1 = id := by
    intro id hm
    obtain ⟨hold, hf, he⟩ := List.mem_map.mp hm
    exact ⟨hold, (List.mem_filter.mp hf).1, he⟩
  have hnodup : (table.free ++ (table.names.map Prod.snd ++ unnamed live)).Nodup := by
    refine List.nodup_append.mpr ⟨h.tidy.nodup, ?_, ?_⟩
    · refine List.nodup_append.mpr ⟨h.nodup_named hk, h.nodup_unnamed, ?_⟩
      rintro id hid j hj rfl
      obtain ⟨x, hx⟩ := hnamed id hid
      exact h.lookup_ne_of_unnamed hj x hx
    · rintro id hid j hj rfl
      rcases List.mem_append.mp hj with hj | hj
      · obtain ⟨x, hx⟩ := hnamed id hj
        exact h.var_taken hx hid
      · obtain ⟨hold, hm, rfl⟩ := hunnamed id hj
        exact h.taken hold hm hid
  refine (List.perm_ext_iff_of_nodup hnodup SymbolTable.nodup_places).mpr fun id => ?_
  rw [SymbolTable.mem_places, List.mem_append, List.mem_append]
  constructor
  · rintro (hid | hid | hid)
    · exact h.tidy.contains id hid
    · obtain ⟨x, hx⟩ := hnamed id hid
      exact h.var_contains hx
    · obtain ⟨hold, hm, rfl⟩ := hunnamed id hid
      exact h.contains hold hm
  · intro hc
    rcases ha id hc with hf | ⟨x, hx⟩ | ⟨hold, hm, rfl⟩
    · exact .inl hf
    · exact .inr (.inl (List.mem_map_of_mem (SymbolTable.mem_of_lookup hx)))
    · cases hv : hold.2 with
      | var x =>
        have hd := h.denotes hold hm
        rw [hv] at hd
        exact .inr (.inl (List.mem_map_of_mem (SymbolTable.mem_of_lookup hd)))
      | number _ | text _ | temporary =>
        refine .inr (.inr (List.mem_map_of_mem (List.mem_filter.mpr ⟨hm, ?_⟩)))
        simp [hv, Value.isVar]

/-- There is one symbol in use for each name and for each literal or result that waits. -/
theorem size_eq (h : Coherent table bank declared live) (ha : table.Accounts live)
    (hk : (table.names.map Prod.fst).Nodup) :
    table.size = table.names.length + (unnamed live).length := by
  have hlength := (h.perm_places ha hk).length_eq
  simp only [List.length_append, List.length_map, SymbolTable.places, List.length_range] at hlength
  rw [SymbolTable.size]
  omega

end Coherent

end OnePass
