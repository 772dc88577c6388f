import Mathlib.Data.List.Induction
import OnePass.Proofs.Compilation

/-! # Line numbers of a source map

The location of a line is known when it is pushed, its number only when all lines are there. A
source map adds nothing to what its target is made of, and under the number of a line it has the
position that the line was pushed with.
-/
namespace OnePass

/-- The pushed lines in the order of the output, in which the data comes first. -/
def numbered (pushed : List Emission) : List Emission :=
  pushed.filter (fun e => e.segment = .data) ++ pushed.filter (fun e => e.segment = .text)

namespace Target

variable {τ : Type} [Target τ]

theorem taking_append (pushed : List Emission) (e : Emission) :
    taking τ (pushed ++ [e]) = (Target.push (taking τ pushed) e).2 := by
  simp [taking, List.foldl_append]

theorem compiled_taking (pushed : List Emission) :
    (taking (SourceMap τ) pushed).compiled = taking τ pushed := by
  induction pushed using List.reverseRecOn with
  | nil => rfl
  | append_singleton pushed e ih =>
    rw [taking_append, taking_append, ← ih]
    rfl

/-- A source map does not change what is compiled. -/
theorem compiled_ofEmissions (pushed : List Emission) :
    (ofEmissions (SourceMap τ) pushed).compiled = ofEmissions τ pushed :=
  congrArg Target.finish (compiled_taking pushed)

theorem pushed_taking (pushed : List Emission) :
    taking Recording pushed = ⟨pushed.toArray, false⟩ := by
  induction pushed using List.reverseRecOn with
  | nil => rfl
  | append_singleton pushed e ih =>
    rw [taking_append, ih]
    simp [Target.push]

theorem ofEmissions_recording (pushed : List Emission) :
    ofEmissions Recording pushed = ⟨pushed.toArray, true⟩ := by
  have htaken := pushed_taking pushed
  exact congrArg Target.finish htaken

end Target

open Target (taking taking_append)

namespace Assembly

theorem toList_taking (pushed : List Emission) (segment : Segment) :
    ((taking Assembly pushed).segment segment).toList =
      (pushed.filter fun e => e.segment = segment).map Emission.line := by
  have hlines := toList_foldl pushed (Target.empty : Assembly) segment
  have hempty : (Target.empty : Assembly).segment segment = #[] := by cases segment <;> rfl
  simpa [hempty, taking] using hlines

theorem size_taking (pushed : List Emission) (segment : Segment) :
    ((taking Assembly pushed).segment segment).size =
      (pushed.filter fun e => e.segment = segment).length := by
  have hlength := congrArg List.length (toList_taking pushed segment)
  simpa using hlength

theorem toList_ofEmissions (pushed : List Emission) :
    (Target.ofEmissions Assembly pushed).data.toList ++
      (Target.ofEmissions Assembly pushed).text.toList = (numbered pushed).map Emission.line := by
  rw [numbered, List.map_append, ← toList_taking, ← toList_taking]
  rfl

end Assembly

namespace SourceMap

variable {pushed : List Emission}

theorem pending_push (e : Emission) : (taking (SourceMap Assembly) (pushed ++ [e])).pending =
    match e.position with
    | some p => (⟨e.segment, (pushed.filter fun x => x.segment = e.segment).length⟩, p) ::
      (taking (SourceMap Assembly) pushed).pending
    | none => (taking (SourceMap Assembly) pushed).pending := by
  have hsize := Assembly.size_taking pushed e.segment
  rw [← Target.compiled_taking] at hsize
  rw [taking_append, ← hsize]
  rfl

/-- The positions that wait for their line numbers are those that lines were pushed with. -/
theorem mem_pending_iff {location : Location} {p : Position} :
    (location, p) ∈ (taking (SourceMap Assembly) pushed).pending ↔
      ∃ e, (pushed.filter fun e => e.segment = location.segment)[location.index]? = some e ∧
        e.position = some p := by
  obtain ⟨segment, index⟩ := location
  induction pushed using List.reverseRecOn with
  | nil => simp [taking, Target.empty]
  | append_singleton pushed e ih =>
    have hnew : (⟨segment, index⟩, p) ∈ (taking (SourceMap Assembly) (pushed ++ [e])).pending ↔
        (segment = e.segment ∧ index = (pushed.filter fun x => x.segment = e.segment).length ∧
          e.position = some p) ∨
        (⟨segment, index⟩, p) ∈ (taking (SourceMap Assembly) pushed).pending := by
      rw [pending_push]
      cases e.position <;> simp [and_assoc, eq_comm]
    rw [hnew, ih]
    by_cases hsegment : e.segment = segment
    · subst hsegment
      simp only [List.filter_append, true_and]
      rw [List.getElem?_append, List.filter_cons_of_pos (by simp), List.filter_nil]
      by_cases hindex : index < (pushed.filter fun x => x.segment = e.segment).length
      · rw [if_pos hindex]
        constructor
        · rintro (⟨hlast, -⟩ | hold)
          · omega
          · exact hold
        · exact .inr
      · rw [if_neg hindex]
        have hnone : (pushed.filter fun x => x.segment = e.segment)[index]? = none :=
          List.getElem?_eq_none (by omega)
        simp only [hnone, reduceCtorEq, false_and, exists_false, or_false,
          List.getElem?_singleton]
        constructor
        · rintro ⟨hlast, hp⟩
          exact ⟨e, by simp [hlast], hp⟩
        · rintro ⟨e', he, hp⟩
          split_ifs at he with hlast
          cases he
          exact ⟨by omega, hp⟩
    · simp [List.filter_append, hsegment, Ne.symm hsegment]

/-! ## Numbers -/

theorem getElem?_foldr_insert (number : Location → Nat) (entries : List (Location × Position))
    (n : Nat) :
    (entries.foldr (fun x map => map.insert (number x.1) x.2)
      (∅ : Std.TreeMap Nat Position))[n]? =
      (entries.find? fun x => number x.1 = n).map Prod.snd := by
  induction entries with
  | nil => rfl
  | cons x entries ih =>
    rw [List.foldr_cons, Std.TreeMap.getElem?_insert, ih, List.find?_cons]
    by_cases hn : number x.1 = n
    · simp [hn]
    · simp [hn]

theorem numbered_lineNumber {location : Location} {e : Emission}
    (h : (pushed.filter fun e => e.segment = location.segment)[location.index]? = some e) :
    ∃ i, (taking Assembly pushed).lineNumber location = i + 1 ∧ (numbered pushed)[i]? = some e := by
  obtain ⟨segment, index⟩ := location
  have hlt := (List.getElem?_eq_some_iff.mp h).1
  cases segment with
  | data =>
    refine ⟨index, rfl, ?_⟩
    rw [numbered, List.getElem?_append_left hlt]
    exact h
  | text =>
    have hsize := Assembly.size_taking pushed .data
    refine ⟨(taking Assembly pushed).data.size + index, rfl, ?_⟩
    rw [numbered, List.getElem?_append_right]
    · have hindex : (taking Assembly pushed).data.size + index -
          (pushed.filter fun e => e.segment = .data).length = index := by
        simp only [Assembly.segment] at hsize
        omega
      rw [hindex]
      exact h
    · simp only [Assembly.segment] at hsize
      omega

theorem exists_location {i : Nat} {e : Emission} (h : (numbered pushed)[i]? = some e) :
    ∃ location : Location, (taking Assembly pushed).lineNumber location = i + 1 ∧
      (pushed.filter fun e => e.segment = location.segment)[location.index]? = some e := by
  have hsize := Assembly.size_taking pushed .data
  simp only [Assembly.segment] at hsize
  by_cases hi : i < (pushed.filter fun e => e.segment = .data).length
  · refine ⟨⟨.data, i⟩, rfl, ?_⟩
    rwa [numbered, List.getElem?_append_left hi] at h
  · refine ⟨⟨.text, i - (pushed.filter fun e => e.segment = .data).length⟩, ?_, ?_⟩
    · simp only [Assembly.lineNumber, hsize]
      omega
    · rwa [numbered, List.getElem?_append_right (by omega)] at h

/-- Under the number of a line stands the position that the line was pushed with. -/
theorem position?_ofEmissions (pushed : List Emission) (i : Nat) :
    (Target.ofEmissions (SourceMap Assembly) pushed).position? (i + 1) =
      ((numbered pushed)[i]?).bind Emission.position := by
  have hcompiled := Target.compiled_taking (τ := Assembly) pushed
  have hfind : (Target.ofEmissions (SourceMap Assembly) pushed).position? (i + 1) =
      ((taking (SourceMap Assembly) pushed).pending.find? fun x =>
        (taking Assembly pushed).lineNumber x.1 = i + 1).map Prod.snd := by
    rw [← hcompiled]
    exact getElem?_foldr_insert _ _ _
  rw [hfind]
  cases hfound : (taking (SourceMap Assembly) pushed).pending.find? fun x =>
      (taking Assembly pushed).lineNumber x.1 = i + 1 with
  | some x =>
    obtain ⟨location, p⟩ := x
    obtain ⟨e, he, hp⟩ := mem_pending_iff.mp (List.mem_of_find?_eq_some hfound)
    obtain ⟨j, hnumber, hj⟩ := numbered_lineNumber he
    have hline := List.find?_some hfound
    obtain rfl : j = i := by simp_all
    simp [hj, hp]
  | none =>
    -- A line with a position would have been found under its number.
    symm
    rw [Option.map_none, Option.bind_eq_none_iff]
    intro e he
    obtain ⟨location, hnumber, hlocated⟩ := exists_location he
    cases hp : e.position with
    | none => rfl
    | some p =>
      have hmem := mem_pending_iff.mpr ⟨e, hlocated, hp⟩
      have hnot := List.find?_eq_none.mp hfound _ hmem
      simp [hnumber] at hnot

theorem position?_zero (pushed : List Emission) :
    (Target.ofEmissions (SourceMap Assembly) pushed).position? 0 = none := by
  have hfind : (Target.ofEmissions (SourceMap Assembly) pushed).position? 0 =
      ((taking (SourceMap Assembly) pushed).pending.find? fun x =>
        (taking (SourceMap Assembly) pushed).compiled.lineNumber x.1 = 0).map Prod.snd :=
    getElem?_foldr_insert _ _ _
  rw [hfind, Option.map_eq_none_iff, List.find?_eq_none]
  rintro ⟨⟨segment, index⟩, p⟩ -
  cases segment <;> simp [Assembly.lineNumber]

end SourceMap

end OnePass
