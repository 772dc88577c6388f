import Mathlib.Data.List.Basic

/-! # Runs of deterministic systems

A system goes from state to state as long as there is a next one. A run records the states that it
leaves, so that facts about the way can be stated beside facts about its end.
-/
namespace OnePass

variable {α : Type} {next : α → Option α} {a b c : α} {as bs : List α}

/-- The system gets from one state to another by leaving exactly these states, in their order. -/
inductive Run (next : α → Option α) : α → List α → α → Prop where
  | here {a : α} : Run next a [] a
  | step {a b c : α} {as : List α} : next a = some b → Run next b as c → Run next a (a :: as) c

def Attains (next : α → Option α) (a b : α) : Prop :=
  ∃ as, Run next a as b

namespace Run

theorem single (h : next a = some b) : Run next a [a] b :=
  .step h .here

theorem append (h : Run next a as b) (h' : Run next b bs c) : Run next a (as ++ bs) c := by
  induction h with
  | here => exact h'
  | step hstep _ ih => exact .step hstep (ih h')

theorem ne_none_of_mem (h : Run next a as b) {x : α} (hx : x ∈ as) : next x ≠ none := by
  induction h with
  | here => cases hx
  | step hstep _ ih =>
    rcases List.mem_cons.mp hx with rfl | hx
    · simp [hstep]
    · exact ih hx

/-- Of two runs from one state, one goes on where the other ends. -/
theorem split (h : Run next a as b) (h' : Run next a bs c) :
    c ∈ as ∨ ∃ cs, bs = as ++ cs ∧ Run next b cs c := by
  induction h generalizing bs with
  | here => exact .inr ⟨bs, rfl, h'⟩
  | step hstep _ ih =>
    cases h' with
    | here => exact .inl (by simp)
    | step hstep' hrest =>
      obtain rfl := Option.some.inj (hstep.symm.trans hstep')
      rcases ih hrest with hmem | ⟨cs, rfl, hcs⟩
      · exact .inl (List.mem_cons_of_mem _ hmem)
      · exact .inr ⟨cs, rfl, hcs⟩

theorem exists_of_mem (h : Run next a as b) {x : α} (hx : x ∈ as) : Attains next a x := by
  induction h with
  | here => cases hx
  | step hstep _ ih =>
    rcases List.mem_cons.mp hx with rfl | hx
    · exact ⟨[], .here⟩
    · obtain ⟨bs, hbs⟩ := ih hx
      exact ⟨_, .step hstep hbs⟩

theorem eq_of_none (h : Run next a as b) (ha : next a = none) : b = a := by
  cases h with
  | here => rfl
  | step hstep _ => simp [ha] at hstep

end Run

def after (next : α → Option α) : Nat → α → α
  | 0, a => a
  | n + 1, a =>
    match next a with
    | some b => after next n b
    | none => a

namespace Attains

theorem refl (a : α) : Attains next a a :=
  ⟨[], .here⟩

theorem single (h : next a = some b) : Attains next a b :=
  ⟨_, .single h⟩

theorem trans (h : Attains next a b) (h' : Attains next b c) : Attains next a c := by
  obtain ⟨as, has⟩ := h
  obtain ⟨bs, hbs⟩ := h'
  exact ⟨as ++ bs, has.append hbs⟩

theorem after (next : α → Option α) (n : Nat) (a : α) : Attains next a (after next n a) := by
  induction n generalizing a with
  | zero => exact refl a
  | succ n ih =>
    unfold OnePass.after
    split
    · next hb => exact (single hb).trans (ih _)
    · exact refl a

/-- A system that stops after `n` steps gets to no other states than those on the way. -/
theorem exists_after {n : Nat} (h : Attains next a b) (hn : next (OnePass.after next n a) = none) :
    ∃ k ≤ n, b = OnePass.after next k a := by
  obtain ⟨as, has⟩ := h
  induction has generalizing n with
  | here => exact ⟨0, Nat.zero_le n, rfl⟩
  | step hstep _ ih =>
    cases n with
    | zero =>
      rw [OnePass.after, hstep] at hn
      cases hn
    | succ n =>
      simp only [OnePass.after, hstep] at hn
      obtain ⟨k, hk, hb⟩ := ih hn
      exact ⟨k + 1, Nat.succ_le_succ hk, by simp only [OnePass.after, hstep, hb]⟩

theorem eq_of_stops (h : Attains next a b) (h' : Attains next a c) (hb : next b = none)
    (hc : next c = none) : b = c := by
  obtain ⟨as, has⟩ := h
  obtain ⟨bs, hbs⟩ := h'
  rcases has.split hbs with hmem | ⟨cs, -, hcs⟩
  · exact absurd hc (has.ne_none_of_mem hmem)
  · exact (hcs.eq_of_none hb).symm

end Attains

end OnePass
