import Mathlib.Order.Lattice.Nat
import OnePass.Symbols

/-! # Suggestions for misspelt names

By the Levenshtein distance, the least number of single edits that turn one text into another, a
misspelt name is answered with a declared name of least distance, if one of them is near enough to be
meant. The row by row computation yields this distance.
-/
namespace OnePass

namespace Text

variable {xs ys : List Char} {n : Nat}

/-! ## Edits -/

inductive Edit : List Char → List Char → Prop
  | insert (c : Char) (xs : List Char) : Edit xs (c :: xs)
  | delete (c : Char) (xs : List Char) : Edit (c :: xs) xs
  | substitute (c d : Char) (xs : List Char) : Edit (c :: xs) (d :: xs)
  | behind (c : Char) {xs ys : List Char} : Edit xs ys → Edit (c :: xs) (c :: ys)

inductive Edits : Nat → List Char → List Char → Prop
  | none (xs : List Char) : Edits 0 xs xs
  | some {n : Nat} {xs ys zs : List Char} : Edit xs ys → Edits n ys zs → Edits (n + 1) xs zs

/-- The Levenshtein distance of two texts: the least number of edits between them. -/
noncomputable def levenshtein (a b : String) : Nat :=
  sInf { n | Edits n a.toList b.toList }

/-- What is asked of a distance: it counts single edits. -/
def IsLevenshtein (distance : String → String → Nat) : Prop :=
  ∀ a b, distance a b = levenshtein a b

theorem Edits.behind (c : Char) (h : Edits n xs ys) : Edits n (c :: xs) (c :: ys) := by
  induction h with
  | none xs => exact .none _
  | some he _ ih => exact .some (.behind c he) ih

/-- The edits that delete a text and insert another. -/
theorem edits_nil_right (xs : List Char) : Edits xs.length xs [] := by
  induction xs with
  | nil => exact .none []
  | cons x xs ih => exact .some (.delete x xs) ih

theorem edits_nil_left (ys : List Char) : Edits ys.length [] ys := by
  induction ys with
  | nil => exact .none []
  | cons y ys ih => exact .some (.insert y []) (ih.behind y)

/-! ## The recurrence -/

def distance (xs ys : List Char) : Nat :=
  (distanceRow xs ys).headD 0

theorem distanceRow_cons (x : Char) (xs ys : List Char) :
    distanceRow (x :: xs) ys = distance (x :: xs) ys :: distanceRow xs ys := by
  induction ys with
  | nil => rfl
  | cons y ys ih =>
    have hrow : distanceRow (x :: xs) (y :: ys) =
        nextRow y (x :: xs) (distanceRow (x :: xs) ys) := rfl
    rw [distance, hrow, ih]
    rfl

theorem distance_nil_right (xs : List Char) : distance xs [] = xs.length := by
  induction xs with
  | nil => rfl
  | cons x xs ih =>
    have hrow : distance (x :: xs) [] = distance xs [] + 1 := rfl
    rw [hrow, ih, List.length_cons]

theorem distance_nil_left (ys : List Char) : distance [] ys = ys.length := by
  induction ys with
  | nil => rfl
  | cons y ys ih =>
    have hrow : distance [] (y :: ys) = distance [] ys + 1 := rfl
    rw [hrow, ih, List.length_cons]

theorem distance_cons_cons (x y : Char) (xs ys : List Char) :
    distance (x :: xs) (y :: ys) =
      min (distance xs (y :: ys) + 1)
        (min (distance (x :: xs) ys + 1) (distance xs ys + if x = y then 0 else 1)) := by
  have hrow : distanceRow (x :: xs) (y :: ys) =
      nextRow y (x :: xs) (distanceRow (x :: xs) ys) := rfl
  rw [distance, hrow, distanceRow_cons]
  rfl

theorem edits_distance (xs ys : List Char) : Edits (distance xs ys) xs ys := by
  induction xs generalizing ys with
  | nil =>
    rw [distance_nil_left]
    exact edits_nil_left ys
  | cons x xs ihx =>
    induction ys with
    | nil =>
      rw [distance_nil_right]
      exact edits_nil_right _
    | cons y ys ihy =>
      have hdelete : Edits (distance xs (y :: ys) + 1) (x :: xs) (y :: ys) :=
        .some (.delete x xs) (ihx _)
      have hinsert : Edits (distance (x :: xs) ys + 1) (x :: xs) (y :: ys) :=
        .some (.insert y _) (ihy.behind y)
      have hkeep : Edits (distance xs ys + if x = y then 0 else 1) (x :: xs) (y :: ys) := by
        split_ifs with hxy
        · exact hxy ▸ (ihx ys).behind x
        · exact .some (.substitute x y xs) ((ihx ys).behind y)
      rw [distance_cons_cons]
      rcases min_choice (distance xs (y :: ys) + 1) (min (distance (x :: xs) ys + 1)
        (distance xs ys + if x = y then 0 else 1)) with h | h
      · rwa [h]
      · rw [h]
        rcases min_choice (distance (x :: xs) ys + 1)
          (distance xs ys + if x = y then 0 else 1) with h | h <;> rwa [h]

/-! ## No fewer edits are enough -/

theorem distance_cons_le (x : Char) (xs zs : List Char) :
    distance (x :: xs) zs ≤ distance xs zs + 1 := by
  cases zs with
  | nil => simp [distance_nil_right]
  | cons z zs =>
    rw [distance_cons_cons]
    exact Nat.min_le_left _ _

theorem distance_le_cons (x : Char) (xs zs : List Char) :
    distance xs zs ≤ distance (x :: xs) zs + 1 := by
  induction zs generalizing xs with
  | nil =>
    simp only [distance_nil_right, List.length_cons]
    omega
  | cons z zs ih =>
    have hinsert : distance xs (z :: zs) ≤ distance xs zs + 1 := by
      cases xs with
      | nil => simp [distance_nil_left]
      | cons y xs =>
        rw [distance_cons_cons]
        omega
    have hbehind := ih xs
    rw [distance_cons_cons]
    omega

/-- A single edit changes the distance by one at most. -/
theorem Edit.distance_le (h : Edit xs ys) (zs : List Char) :
    distance xs zs ≤ distance ys zs + 1 := by
  induction h generalizing zs with
  | insert c xs => exact distance_le_cons c xs zs
  | delete c xs => exact distance_cons_le c xs zs
  | substitute c d xs =>
    induction zs with
    | nil => simp [distance_nil_right]
    | cons z zs ih =>
      rw [distance_cons_cons, distance_cons_cons]
      split_ifs <;> omega
  | @behind c xs ys _ ih =>
    induction zs with
    | nil =>
      have hnil := ih []
      simp only [distance_nil_right, List.length_cons] at hnil ⊢
      omega
    | cons z zs ihz =>
      have hhere := ih (z :: zs)
      have hbehind := ih zs
      rw [distance_cons_cons, distance_cons_cons]
      omega

theorem Edits.distance_le (h : Edits n xs ys) : distance xs ys ≤ n := by
  induction h with
  | none xs =>
    induction xs with
    | nil => exact Nat.le_refl 0
    | cons x xs ih =>
      rw [distance_cons_cons, if_pos rfl]
      omega
  | @some n xs ys zs he _ ih =>
    have hedit := he.distance_le zs
    omega

/-- What is computed row by row is the Levenshtein distance. -/
theorem isLevenshtein_editDistance : IsLevenshtein editDistance := by
  intro a b
  have hleast : IsLeast { n | Edits n a.toList b.toList } (distance a.toList b.toList) :=
    ⟨edits_distance _ _, fun n hn => hn.distance_le⟩
  exact hleast.csInf_eq.symm

end Text

/-! ## The name that is meant -/

open Text (levenshtein IsLevenshtein)

variable {distance : String → String → Nat} [NameDistance distance]

def Near (name candidate : String) : Prop :=
  levenshtein name candidate ≤ 2 ∧ levenshtein name candidate < name.length

/-- There is a suggestion if a declared name is near. It is such a name, no declared name is less
distant, and it is not the name itself. -/
structure Suggests (declared : List String) (name : String) (suggestion : Option String) :
    Prop where
  isSome_iff : suggestion.isSome = true ↔ ∃ c ∈ declared, Near name c
  suggested : ∀ c, suggestion = some c → c ∈ declared ∧ Near name c ∧ c ≠ name
  least : ∀ c, suggestion = some c → ∀ c' ∈ declared, levenshtein name c ≤ levenshtein name c'

namespace SymbolTable

theorem closest_eq_none {name : String} {candidates : List String} :
    closest name candidates = none ↔ candidates = [] := by
  cases candidates with
  | nil => simp [closest]
  | cons c rest =>
    rw [closest]
    split
    · simp
    · split_ifs <;> simp

theorem closest_eq_some (hdistance : IsLevenshtein distance) {name c : String}
    {candidates : List String} (h : closest name candidates = some c) :
    c ∈ candidates ∧ ∀ c' ∈ candidates, levenshtein name c ≤ levenshtein name c' := by
  induction candidates generalizing c with
  | nil => cases h
  | cons d rest ih =>
    rw [closest] at h
    simp only [hdistance name] at h
    split at h
    · next hnone =>
      cases h
      rw [closest_eq_none.mp hnone]
      simp
    · next best hbest =>
      obtain ⟨hmem, hleast⟩ := ih hbest
      split_ifs at h with hlt
      · cases h
        exact ⟨.tail _ hmem, List.forall_mem_cons.mpr ⟨Nat.le_of_lt hlt, hleast⟩⟩
      · cases h
        refine ⟨List.mem_cons_self, List.forall_mem_cons.mpr ⟨Nat.le_refl _, ?_⟩⟩
        intro c' hc'
        exact Nat.le_trans (Nat.le_of_not_lt hlt) (hleast c' hc')

theorem isNear_iff (hdistance : IsLevenshtein distance) {name candidate : String} :
    isNear name candidate = true ↔ Near name candidate := by
  simp [isNear, Near, hdistance name]

/-- The suggestion for a name that is not declared, whatever list the declared names are given
in. -/
theorem suggests_suggest (hdistance : IsLevenshtein distance)
    {table : SymbolTable} {declared : List String} {name : String}
    (hd : ∀ x, x ∈ table.declaredNames ↔ x ∈ declared) (hname : name ∉ declared) :
    Suggests declared name (table.suggest name) := by
  have hmem : ∀ c, c ∈ table.declaredNames.filter (isNear name) ↔ c ∈ declared ∧ Near name c := by
    intro c
    rw [List.mem_filter, hd, isNear_iff hdistance]
  refine ⟨?_, ?_, ?_⟩
  · rw [← Option.ne_none_iff_isSome, suggest, Ne, closest_eq_none]
    constructor
    · intro hne
      obtain ⟨c, hc⟩ := List.exists_mem_of_ne_nil _ hne
      exact ⟨c, (hmem c).mp hc⟩
    · rintro ⟨c, hc⟩
      exact List.ne_nil_of_mem ((hmem c).mpr hc)
  · intro c hc
    obtain ⟨hdeclared, hnear⟩ := (hmem c).mp (closest_eq_some hdistance hc).1
    exact ⟨hdeclared, hnear, fun he => hname (he ▸ hdeclared)⟩
  · intro c hc c' hc'
    obtain ⟨hcandidate, hleast⟩ := closest_eq_some hdistance hc
    obtain ⟨-, hnear⟩ := (hmem c).mp hcandidate
    by_cases hnear' : Near name c'
    · exact hleast c' ((hmem c').mpr ⟨hc', hnear'⟩)
    · -- A name that is not near is more distant than one that is.
      unfold Near at hnear hnear'
      omega

end SymbolTable

end OnePass
