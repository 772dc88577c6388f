import Mathlib.Computability.ContextFreeGrammar
import OnePass.Grammar.Language

/-! # Derivations

The sentences of a grammar are those of the context-free grammar that is left when the actions are
erased. A sentence is yielded from the left: the first symbol is read as a terminal, replaced by a
rule, or skipped as an action. That is the order in which a predictive parser works.
-/

abbrev FormSymbol := Symbol OnePass.Terminal OnePass.Nonterminal

namespace OnePass

def GrammarSymbol.form? : GrammarSymbol → Option FormSymbol
  | terminal t => some (.terminal t)
  | nonterminal n => some (.nonterminal n)
  | action _ => none

def erase (symbols : List GrammarSymbol) : List FormSymbol :=
  symbols.filterMap GrammarSymbol.form?

@[simp] theorem erase_nil : erase [] = [] := rfl

@[simp] theorem erase_terminal (t : Terminal) (rest : List GrammarSymbol) :
    erase (.terminal t :: rest) = .terminal t :: erase rest := rfl

@[simp] theorem erase_nonterminal (n : Nonterminal) (rest : List GrammarSymbol) :
    erase (.nonterminal n :: rest) = .nonterminal n :: erase rest := rfl

@[simp] theorem erase_action (a : Action) (rest : List GrammarSymbol) :
    erase (.action a :: rest) = erase rest := rfl

@[simp] theorem erase_append (xs ys : List GrammarSymbol) :
    erase (xs ++ ys) = erase xs ++ erase ys :=
  List.filterMap_append

theorem erase_eq_append_cons {s : List GrammarSymbol} {p q : List FormSymbol} {n : Nonterminal}
    (h : erase s = p ++ .nonterminal n :: q) :
    ∃ before after, s = before ++ .nonterminal n :: after ∧ erase before = p ∧ erase after = q := by
  obtain ⟨before, rest, rfl, hp, hrest⟩ := List.filterMap_eq_append_iff.mp h
  obtain ⟨skipped, x, after, rfl, hskip, hx, hq⟩ := List.filterMap_eq_cons_iff.mp hrest
  have hn : x = .nonterminal n := by
    cases x <;> simp_all [GrammarSymbol.form?]
  have he : erase skipped = [] := List.filterMap_eq_nil_iff.mpr hskip
  refine ⟨before ++ skipped, after, by simp [hn], ?_, hq⟩
  rw [erase_append, he, List.append_nil]
  exact hp

namespace Grammar

abbrev contextFree (g : Grammar) : ContextFreeGrammar Terminal where
  NT := Nonterminal
  initial := g.start
  rules := (g.rules.map fun r => ⟨r.lhs, erase r.rhs⟩).toFinset

theorem mem_contextFree_rules {g : Grammar} {rule : ContextFreeRule Terminal Nonterminal} :
    rule ∈ g.contextFree.rules ↔ ∃ r ∈ g.rules, ⟨r.lhs, erase r.rhs⟩ = rule := by
  exact List.mem_toFinset.trans List.mem_map

/-- The symbols yield the terminals, by rules applied at the leftmost nonterminal. -/
inductive Yields (g : Grammar) : List GrammarSymbol → List Terminal → Prop
  | done : Yields g [] []
  | terminal {t rest w} : Yields g rest w → Yields g (.terminal t :: rest) (t :: w)
  | nonterminal {r rest w} : r ∈ g.rules → Yields g (r.rhs ++ rest) w →
    Yields g (.nonterminal r.lhs :: rest) w
  | action {a rest w} : Yields g rest w → Yields g (.action a :: rest) w

variable {g : Grammar}

theorem Yields.append {xs ys : List GrammarSymbol} {u v : List Terminal} (hx : g.Yields xs u)
    (hy : g.Yields ys v) : g.Yields (xs ++ ys) (u ++ v) := by
  induction hx with
  | done => exact hy
  | terminal _ ih => exact .terminal ih
  | nonterminal hr _ ih => exact .nonterminal hr (List.append_assoc .. ▸ ih)
  | action _ ih => exact .action ih

theorem Yields.split {xs ys : List GrammarSymbol} {w : List Terminal}
    (h : g.Yields (xs ++ ys) w) : ∃ u v, w = u ++ v ∧ g.Yields xs u ∧ g.Yields ys v := by
  generalize hs : xs ++ ys = s at h
  induction h generalizing xs with
  | done =>
    obtain ⟨rfl, rfl⟩ := List.append_eq_nil_iff.mp hs
    exact ⟨[], [], rfl, .done, .done⟩
  | @terminal t rest w h ih =>
    cases xs with
    | nil => exact ⟨[], t :: w, rfl, .done, by rw [← List.nil_append ys, hs]; exact .terminal h⟩
    | cons x xs =>
      obtain ⟨rfl, hrest⟩ := List.cons.inj hs
      obtain ⟨u, v, rfl, hu, hv⟩ := ih hrest
      exact ⟨t :: u, v, rfl, .terminal hu, hv⟩
  | @nonterminal r rest w hr h ih =>
    cases xs with
    | nil => exact ⟨[], w, rfl, .done, by rw [← List.nil_append ys, hs]; exact .nonterminal hr h⟩
    | cons x xs =>
      obtain ⟨rfl, rfl⟩ := List.cons.inj hs
      obtain ⟨u, v, rfl, hu, hv⟩ := ih (List.append_assoc r.rhs xs ys)
      exact ⟨u, v, rfl, .nonterminal hr hu, hv⟩
  | @action a rest w h ih =>
    cases xs with
    | nil => exact ⟨[], w, rfl, .done, by rw [← List.nil_append ys, hs]; exact .action h⟩
    | cons x xs =>
      obtain ⟨rfl, hrest⟩ := List.cons.inj hs
      obtain ⟨u, v, rfl, hu, hv⟩ := ih hrest
      exact ⟨u, v, rfl, .action hu, hv⟩

theorem Yields.derives {s : List GrammarSymbol} {w : List Terminal} (h : g.Yields s w) :
    g.contextFree.Derives (erase s) (w.map .terminal) := by
  induction h with
  | done => exact ContextFreeGrammar.Derives.refl _
  | @terminal t _ _ _ ih => exact ih.append_left [.terminal t]
  | @nonterminal r rest w hr _ ih =>
    have hp : g.contextFree.Produces (erase (.nonterminal r.lhs :: rest))
        (erase (r.rhs ++ rest)) := by
      rw [erase_append]
      exact ⟨_, mem_contextFree_rules.mpr ⟨r, hr, rfl⟩, ContextFreeRule.Rewrites.head _⟩
    exact hp.trans_derives ih
  | action _ ih => exact ih

theorem yields_of_erase_eq {s : List GrammarSymbol} {w : List Terminal}
    (h : erase s = w.map .terminal) : g.Yields s w := by
  induction s generalizing w with
  | nil =>
    obtain rfl := List.map_eq_nil_iff.mp h.symm
    exact .done
  | cons x rest ih =>
    cases x with
    | terminal t =>
      obtain ⟨u, w, rfl, hu, hw⟩ := List.map_eq_cons_iff.mp h.symm
      cases hu
      exact .terminal (ih hw.symm)
    | nonterminal n =>
      obtain ⟨u, w, rfl, hu, -⟩ := List.map_eq_cons_iff.mp h.symm
      cases hu
    | action a => exact .action (ih h)

theorem yields_of_derives {u : List FormSymbol} {w : List Terminal}
    (h : g.contextFree.Derives u (w.map .terminal)) :
    ∀ s, erase s = u → g.Yields s w := by
  induction h using Relation.ReflTransGen.head_induction_on with
  | refl => exact fun s hs => yields_of_erase_eq hs
  | head hp _ ih =>
    intro s hs
    obtain ⟨rule, hrule, hrw⟩ := hp
    obtain ⟨r, hr, rfl⟩ := mem_contextFree_rules.mp hrule
    obtain ⟨p, q, rfl, rfl⟩ := hrw.exists_parts
    rw [List.append_assoc] at hs
    obtain ⟨before, after, rfl, rfl, rfl⟩ := erase_eq_append_cons hs
    have hy : g.Yields (before ++ (r.rhs ++ after)) w := by
      apply ih
      rw [erase_append, erase_append]
      exact (List.append_assoc ..).symm
    obtain ⟨w₁, w₂, rfl, h₁, h₂⟩ := hy.split
    exact h₁.append (.nonterminal hr h₂)

/-- The sentences of the grammar are what its start yields. -/
theorem mem_language_iff_yields {w : List Terminal} :
    w ∈ g.contextFree.language ↔ g.Yields [.nonterminal g.start] w := by
  constructor
  · intro h
    exact yields_of_derives h _ rfl
  · intro h
    exact h.derives

end Grammar

end OnePass
