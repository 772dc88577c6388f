import Mathlib.Data.List.Basic
import OnePass.Proofs.Derivation

/-! # The sets of a grammar are exact

What a nonterminal may begin with and what may follow it is a matter of the sentential forms that
can be derived, reachable or not, finished or not. A step of a sweep adds only what some derivation
shows, and the sweep that ends a loop leaves sets that are closed under the rules. Closed sets lack
nothing: a rule applied backwards anywhere in a sequence keeps what the sets say of the sequence.
-/
namespace OnePass

namespace Grammar

variable {g : Grammar} {sets : Sets} {t : Terminal}

/-! ## What derivations say -/

def Vanishes (g : Grammar) (form : List FormSymbol) : Prop :=
  g.contextFree.Derives form []

def Begins (g : Grammar) (form : List FormSymbol) (t : Terminal) : Prop :=
  ∃ rest, g.contextFree.Derives form (.terminal t :: rest)

/-- Some nonterminal derives a form in which the terminal comes right behind `n`, or the start
derives one that ends in `n` and the terminal is the end of the input. -/
def Precedes (g : Grammar) (n : Nonterminal) (t : Terminal) : Prop :=
  (∃ m before after, g.contextFree.Derives [.nonterminal m]
    (before ++ .nonterminal n :: .terminal t :: after)) ∨
  t = .endOfInput ∧ ∃ before, g.contextFree.Derives [.nonterminal g.start]
    (before ++ [.nonterminal n])

/-- One rule is applied somewhere in a sequence, whose actions stay where they are. -/
inductive Applies (g : Grammar) : List GrammarSymbol → List GrammarSymbol → Prop
  | rule {r} (before after) : r ∈ g.rules →
    Applies g (before ++ .nonterminal r.lhs :: after) (before ++ (r.rhs ++ after))

abbrev Expands (g : Grammar) : List GrammarSymbol → List GrammarSymbol → Prop :=
  Relation.ReflTransGen g.Applies

/-- A derivation of forms can be followed on sequences with actions. -/
theorem exists_expands (symbols : List GrammarSymbol) {form : List FormSymbol}
    (h : g.contextFree.Derives (erase symbols) form) :
    ∃ expanded, g.Expands symbols expanded ∧ erase expanded = form := by
  induction h with
  | refl => exact ⟨symbols, .refl, rfl⟩
  | tail _ hp ih =>
    obtain ⟨expanded, hexpands, herase⟩ := ih
    obtain ⟨rule, hrule, hrewrites⟩ := hp
    obtain ⟨r, hr, rfl⟩ := mem_contextFree_rules.mp hrule
    obtain ⟨p, q, rfl, rfl⟩ := hrewrites.exists_parts
    rw [List.append_assoc] at herase
    obtain ⟨before, after, rfl, rfl, rfl⟩ := erase_eq_append_cons herase
    refine ⟨before ++ (r.rhs ++ after), hexpands.tail (.rule _ _ hr), ?_⟩
    simp

theorem produces_rule {r : Rule} (hr : r ∈ g.rules) :
    g.contextFree.Produces [.nonterminal r.lhs] (erase r.rhs) :=
  ⟨_, mem_contextFree_rules.mpr ⟨r, hr, rfl⟩, ContextFreeRule.Rewrites.input_output⟩

theorem Vanishes.append {p q : List FormSymbol} (hp : g.Vanishes p) (hq : g.Vanishes q) :
    g.Vanishes (p ++ q) :=
  (hp.append_right q).trans hq

theorem Begins.append {p : List FormSymbol} (h : g.Begins p t) (q : List FormSymbol) :
    g.Begins (p ++ q) t := by
  obtain ⟨rest, hd⟩ := h
  exact ⟨rest ++ q, hd.append_right q⟩

theorem Vanishes.begins {p q : List FormSymbol} (hp : g.Vanishes p) (hq : g.Begins q t) :
    g.Begins (p ++ q) t := by
  obtain ⟨rest, hd⟩ := hq
  exact ⟨rest, (hp.append_right q).trans hd⟩

/-! ## Closed sets -/

def remainders (n : Nonterminal) : List GrammarSymbol → List (List GrammarSymbol)
  | [] => []
  | symbol :: rest =>
    if symbol = .nonterminal n then rest :: remainders n rest else remainders n rest

structure Closed (g : Grammar) (sets : Sets) : Prop where
  nullable : ∀ r ∈ g.rules, sets.isNullable r.rhs = true → r.lhs ∈ sets.nullable
  first : ∀ r ∈ g.rules, ∀ t ∈ Terminal.all, sets.beginsWith t r.rhs = true →
    (r.lhs, t) ∈ sets.first
  follow : ∀ r ∈ g.rules, ∀ n ∈ Nonterminal.all, ∀ rest ∈ remainders n r.rhs, ∀ t ∈ Terminal.all,
    sets.beginsWith t rest = true ∨ sets.isNullable rest = true ∧ (r.lhs, t) ∈ sets.follow →
      (n, t) ∈ sets.follow
  start : (g.start, .endOfInput) ∈ sets.follow

theorem Sets.isNullable_append (xs ys : List GrammarSymbol) :
    sets.isNullable (xs ++ ys) = (sets.isNullable xs && sets.isNullable ys) := by
  induction xs with
  | nil => rfl
  | cons x xs ih =>
    cases x with
    | terminal u => rfl
    | nonterminal n => simp only [List.cons_append, Sets.isNullable, ih, Bool.and_assoc]
    | action a => simpa only [List.cons_append, Sets.isNullable] using ih

theorem Sets.beginsWith_append (xs ys : List GrammarSymbol) :
    sets.beginsWith t (xs ++ ys) =
      (sets.beginsWith t xs || (sets.isNullable xs && sets.beginsWith t ys)) := by
  induction xs with
  | nil => rfl
  | cons x xs ih =>
    cases x with
    | terminal u => simp [Sets.beginsWith, Sets.isNullable]
    | nonterminal n =>
      simp only [List.cons_append, Sets.beginsWith, Sets.isNullable, ih, Bool.and_or_distrib_left,
        Bool.and_assoc, Bool.or_assoc]
    | action a => simpa only [List.cons_append, Sets.beginsWith, Sets.isNullable] using ih

theorem Sets.isNullable_of_erase {symbols : List GrammarSymbol} (h : erase symbols = []) :
    sets.isNullable symbols = true := by
  induction symbols with
  | nil => rfl
  | cons x rest ih =>
    cases x with
    | terminal u => cases h
    | nonterminal n => cases h
    | action a => exact ih h

theorem Sets.beginsWith_of_erase {symbols : List GrammarSymbol} {form : List FormSymbol}
    (h : erase symbols = .terminal t :: form) : sets.beginsWith t symbols = true := by
  induction symbols with
  | nil => cases h
  | cons x rest ih =>
    cases x with
    | terminal u =>
      cases h
      simp [Sets.beginsWith]
    | nonterminal n => cases h
    | action a => exact ih h

theorem Closed.isNullable_of_applies (h : g.Closed sets) {xs ys : List GrammarSymbol}
    (ha : g.Applies xs ys) (hn : sets.isNullable ys = true) : sets.isNullable xs = true := by
  obtain @⟨r, before, after, hr⟩ := ha
  simp only [Sets.isNullable_append, Bool.and_eq_true] at hn ⊢
  obtain ⟨hbefore, hrhs, hafter⟩ := hn
  have hmem := h.nullable r hr hrhs
  exact ⟨hbefore, by simp [Sets.isNullable, hmem, hafter]⟩

theorem Closed.beginsWith_of_applies (h : g.Closed sets) {xs ys : List GrammarSymbol}
    (ha : g.Applies xs ys) (hb : sets.beginsWith t ys = true) : sets.beginsWith t xs = true := by
  obtain @⟨r, before, after, hr⟩ := ha
  simp only [Sets.beginsWith_append, Bool.or_eq_true, Bool.and_eq_true] at hb ⊢
  rcases hb with hbefore | ⟨hbefore, hrhs | ⟨hrhs, hafter⟩⟩
  · exact .inl hbefore
  · have hmem := h.first r hr t t.mem_all hrhs
    exact .inr ⟨hbefore, by simp [Sets.beginsWith, hmem]⟩
  · have hmem := h.nullable r hr hrhs
    exact .inr ⟨hbefore, by simp [Sets.beginsWith, hmem, hafter]⟩

theorem Closed.isNullable (h : g.Closed sets) {symbols : List GrammarSymbol}
    (hv : g.Vanishes (erase symbols)) : sets.isNullable symbols = true := by
  obtain ⟨expanded, hexpands, herase⟩ := exists_expands symbols hv
  have hempty : sets.isNullable expanded = true := Sets.isNullable_of_erase herase
  clear herase
  induction hexpands with
  | refl => exact hempty
  | tail _ ha ih => exact ih (h.isNullable_of_applies ha hempty)

theorem Closed.beginsWith (h : g.Closed sets) {symbols : List GrammarSymbol}
    (hb : g.Begins (erase symbols) t) : sets.beginsWith t symbols = true := by
  obtain ⟨rest, hd⟩ := hb
  obtain ⟨expanded, hexpands, herase⟩ := exists_expands symbols hd
  have hfront : sets.beginsWith t expanded = true := Sets.beginsWith_of_erase herase
  clear herase
  induction hexpands with
  | refl => exact hfront
  | tail _ ha ih => exact ih (h.beginsWith_of_applies ha hfront)

/-! ## What comes behind a nonterminal -/

/-- What may come behind a nonterminal of the sequence is among what may follow it. -/
def Proper (sets : Sets) (symbols : List GrammarSymbol) : Prop :=
  ∀ n, ∀ rest ∈ remainders n symbols, ∀ t, sets.beginsWith t rest = true → (n, t) ∈ sets.follow

theorem mem_remainders_iff {n : Nonterminal} {symbols rest : List GrammarSymbol} :
    rest ∈ remainders n symbols ↔ ∃ before, symbols = before ++ .nonterminal n :: rest := by
  induction symbols with
  | nil => simp [remainders]
  | cons x xs ih =>
    rw [remainders]
    split
    · next hx =>
      rw [List.mem_cons, ih]
      constructor
      · rintro (rfl | ⟨before, rfl⟩)
        · exact ⟨[], by rw [hx, List.nil_append]⟩
        · exact ⟨x :: before, rfl⟩
      · rintro ⟨before, hbefore⟩
        cases before with
        | nil => exact .inl (List.cons.inj hbefore).2.symm
        | cons y before => exact .inr ⟨before, (List.cons.inj hbefore).2⟩
    · next hx =>
      rw [ih]
      constructor
      · rintro ⟨before, rfl⟩
        exact ⟨x :: before, rfl⟩
      · rintro ⟨before, hbefore⟩
        cases before with
        | nil => exact absurd (List.cons.inj hbefore).1 hx
        | cons y before => exact ⟨before, (List.cons.inj hbefore).2⟩

theorem mem_remainders_append {n : Nonterminal} {xs ys rest : List GrammarSymbol} :
    rest ∈ remainders n (xs ++ ys) ↔
      (∃ before ∈ remainders n xs, rest = before ++ ys) ∨ rest ∈ remainders n ys := by
  induction xs with
  | nil => simp [remainders]
  | cons x xs ih =>
    simp only [List.cons_append, remainders]
    split
    · simp only [List.mem_cons, ih, exists_eq_or_imp, or_assoc]
    · exact ih

theorem remainders_subset_cons (n : Nonterminal) (x : GrammarSymbol) (xs : List GrammarSymbol) :
    remainders n xs ⊆ remainders n (x :: xs) := by
  rw [remainders]
  split
  · exact List.subset_cons_self _ _
  · exact List.Subset.refl _

theorem Proper.tail {x : GrammarSymbol} {rest : List GrammarSymbol}
    (h : Proper sets (x :: rest)) : Proper sets rest :=
  fun n q hq t ht => h n q (remainders_subset_cons n x rest hq) t ht

theorem Proper.of_append {before rest : List GrammarSymbol} (h : Proper sets (before ++ rest)) :
    Proper sets rest :=
  fun n q hq t ht => h n q (mem_remainders_append.mpr (.inr hq)) t ht

theorem Proper.follow {n : Nonterminal} {rest : List GrammarSymbol}
    (h : Proper sets (.nonterminal n :: rest)) (ht : sets.beginsWith t rest = true) :
    (n, t) ∈ sets.follow :=
  h n rest (by simp [remainders]) t ht

/-- A rule keeps sequences proper, wherever it is applied. -/
theorem Closed.proper_of_applies (h : g.Closed sets) {xs ys : List GrammarSymbol}
    (ha : g.Applies xs ys) (hp : Proper sets xs) : Proper sets ys := by
  obtain @⟨r, before, after, hr⟩ := ha
  intro n rest hrest t ht
  rcases mem_remainders_append.mp hrest with ⟨q, hq, rfl⟩ | hrest
  · -- The nonterminal stands before the rule.
    have hbegins : sets.beginsWith t (q ++ .nonterminal r.lhs :: after) = true :=
      h.beginsWith_of_applies (.rule _ _ hr) ht
    refine hp n _ (mem_remainders_append.mpr ?_) t hbegins
    exact .inl ⟨q, hq, rfl⟩
  · rcases mem_remainders_append.mp hrest with ⟨q, hq, rfl⟩ | hrest
    · -- The nonterminal comes from the rule; what is behind it may vanish.
      rw [Sets.beginsWith_append, Bool.or_eq_true, Bool.and_eq_true] at ht
      refine h.follow r hr n n.mem_all q hq t t.mem_all ?_
      exact ht.imp_right fun hafter => ⟨hafter.1, hp.of_append.follow hafter.2⟩
    · refine hp n rest (mem_remainders_append.mpr (.inr ?_)) t ht
      exact remainders_subset_cons n _ _ hrest

theorem Closed.proper (h : g.Closed sets) {r : Rule} (hr : r ∈ g.rules)
    {rest : List GrammarSymbol} (hp : Proper sets (.nonterminal r.lhs :: rest)) :
    Proper sets (r.rhs ++ rest) :=
  h.proper_of_applies (.rule [] rest hr) hp

theorem Closed.proper_of_expands (h : g.Closed sets) {xs ys : List GrammarSymbol}
    (he : g.Expands xs ys) (hp : Proper sets xs) : Proper sets ys := by
  induction he with
  | refl => exact hp
  | tail _ ha ih => exact h.proper_of_applies ha ih

theorem Closed.mem_follow (h : g.Closed sets) {n : Nonterminal} (hn : g.Precedes n t) :
    (n, t) ∈ sets.follow := by
  rcases hn with ⟨m, before, after, hd⟩ | ⟨rfl, before, hd⟩
  · have hproper : Proper sets [.nonterminal m] := by
      intro k rest hrest u hu
      obtain ⟨before, hbefore⟩ := mem_remainders_iff.mp hrest
      cases before with
      | nil =>
        obtain ⟨-, rfl⟩ := List.cons.inj hbefore
        cases hu
      | cons y before => simp at hbefore
    obtain ⟨expanded, hexpands, herase⟩ := exists_expands [.nonterminal m] hd
    obtain ⟨front, rest, rfl, -, hrest⟩ := erase_eq_append_cons herase
    have hlast := (h.proper_of_expands hexpands hproper).of_append
    exact hlast.follow (Sets.beginsWith_of_erase hrest)
  · -- The end of the input is put behind the start, so that it is what follows at the end.
    have hproper : Proper sets ([.nonterminal g.start] ++ [.terminal .endOfInput]) := by
      intro k rest hrest u hu
      obtain ⟨before, hbefore⟩ := mem_remainders_iff.mp hrest
      cases before with
      | nil =>
        obtain ⟨hk, rfl⟩ := List.cons.inj hbefore
        cases hk
        obtain rfl : .endOfInput = u := by simpa [Sets.beginsWith] using hu
        exact h.start
      | cons y before =>
        cases before with
        | nil => simp at hbefore
        | cons z before => simp at hbefore
    have hd' := hd.append_right [.terminal .endOfInput]
    obtain ⟨expanded, hexpands, herase⟩ := exists_expands
      ([.nonterminal g.start] ++ [.terminal .endOfInput]) hd'
    rw [List.append_assoc] at herase
    obtain ⟨front, rest, rfl, -, hrest⟩ := erase_eq_append_cons herase
    have hlast := (h.proper_of_expands hexpands hproper).of_append
    exact hlast.follow (Sets.beginsWith_of_erase hrest)

/-! ## Rules without their actions -/

theorem Sets.isNullable_filter (sets : Sets) (symbols : List GrammarSymbol) :
    sets.isNullable (symbols.filter fun x => !x.isAction) = sets.isNullable symbols := by
  induction symbols with
  | nil => rfl
  | cons x rest ih =>
    cases x with
    | terminal u => rfl
    | nonterminal n => exact congrArg (sets.nullable.contains n && ·) ih
    | action a => exact ih

theorem Sets.beginsWith_filter (sets : Sets) (t : Terminal) (symbols : List GrammarSymbol) :
    sets.beginsWith t (symbols.filter fun x => !x.isAction) = sets.beginsWith t symbols := by
  induction symbols with
  | nil => rfl
  | cons x rest ih =>
    cases x with
    | terminal u => rfl
    | nonterminal n =>
      exact congrArg (fun b => sets.first.contains (n, t) || (sets.nullable.contains n && b)) ih
    | action a => exact ih

theorem Sets.isNullable_derivation (sets : Sets) (r : Rule) :
    sets.isNullable r.derivation = sets.isNullable r.rhs :=
  sets.isNullable_filter r.rhs

theorem Sets.beginsWith_derivation (sets : Sets) (t : Terminal) (r : Rule) :
    sets.beginsWith t r.derivation = sets.beginsWith t r.rhs :=
  sets.beginsWith_filter t r.rhs

theorem erase_derivation (r : Rule) : erase r.derivation = erase r.rhs := by
  rw [Rule.derivation, erase, erase, List.filterMap_filter]
  congr 1
  funext x
  cases x <;> rfl

theorem mem_occurrences_iff {lhs : Nonterminal} {symbols : List GrammarSymbol} {o : Occurrence} :
    o ∈ occurrences lhs symbols ↔
      o.lhs = lhs ∧ ∃ before, symbols = before ++ .nonterminal o.nonterminal :: o.rest := by
  induction symbols with
  | nil => simp [occurrences]
  | cons x rest ih =>
    have hskip : (∃ before, rest = before ++ .nonterminal o.nonterminal :: o.rest) →
        ∃ before, x :: rest = before ++ .nonterminal o.nonterminal :: o.rest := by
      rintro ⟨before, rfl⟩
      exact ⟨x :: before, rfl⟩
    constructor
    · intro ho
      cases x with
      | terminal u => exact (ih.mp ho).imp_right hskip
      | action a => exact (ih.mp ho).imp_right hskip
      | nonterminal n =>
        rcases List.mem_cons.mp ho with rfl | ho
        · exact ⟨rfl, [], rfl⟩
        · exact (ih.mp ho).imp_right hskip
    · rintro ⟨rfl, before, hsymbols⟩
      cases before with
      | nil =>
        obtain ⟨rfl, rfl⟩ := List.cons.inj hsymbols
        exact .head _
      | cons y before =>
        obtain ⟨-, rfl⟩ := List.cons.inj hsymbols
        have ho := ih.mpr ⟨rfl, before, rfl⟩
        cases x with
        | terminal u => exact ho
        | action a => exact ho
        | nonterminal n => exact .tail _ ho

theorem mem_occurrences_derivation {r : Rule} {n : Nonterminal} {rest : List GrammarSymbol}
    (h : rest ∈ remainders n r.rhs) :
    ⟨r.lhs, n, rest.filter fun x => !x.isAction⟩ ∈ occurrences r.lhs r.derivation := by
  obtain ⟨before, hrhs⟩ := mem_remainders_iff.mp h
  refine mem_occurrences_iff.mpr ⟨rfl, before.filter fun x => !x.isAction, ?_⟩
  rw [Rule.derivation, hrhs, List.filter_append]
  rfl

/-! ## Sound sets -/

/-- Some derivation shows each member of the sets. -/
structure Sound (g : Grammar) (sets : Sets) : Prop where
  nullable : ∀ n ∈ sets.nullable, g.Vanishes [.nonterminal n]
  first : ∀ n t, (n, t) ∈ sets.first → g.Begins [.nonterminal n] t
  follow : ∀ n t, (n, t) ∈ sets.follow → g.Precedes n t

theorem Sound.vanishes (h : g.Sound sets) {symbols : List GrammarSymbol}
    (hs : sets.isNullable symbols = true) : g.Vanishes (erase symbols) := by
  induction symbols with
  | nil => exact ContextFreeGrammar.Derives.refl _
  | cons x rest ih =>
    cases x with
    | terminal u => cases hs
    | nonterminal n =>
      rw [Sets.isNullable, Bool.and_eq_true, List.contains_iff_mem] at hs
      exact (h.nullable n hs.1).append (ih hs.2)
    | action a => exact ih hs

theorem Sound.begins (h : g.Sound sets) {symbols : List GrammarSymbol}
    (hs : sets.beginsWith t symbols = true) : g.Begins (erase symbols) t := by
  induction symbols with
  | nil => cases hs
  | cons x rest ih =>
    cases x with
    | terminal u =>
      obtain rfl : u = t := by simpa [Sets.beginsWith] using hs
      exact ⟨erase rest, ContextFreeGrammar.Derives.refl _⟩
    | nonterminal n =>
      simp only [Sets.beginsWith, Bool.or_eq_true, Bool.and_eq_true, List.contains_iff_mem] at hs
      rcases hs with hfirst | ⟨hnull, hrest⟩
      · exact (h.first n t hfirst).append (erase rest)
      · exact (h.nullable n hnull).begins (ih hrest)
    | action a => exact ih hs

theorem Sound.firstStep (h : g.Sound sets) {r : Rule} (hr : r ∈ g.rules) :
    g.Sound (firstStep sets r).1 where
  nullable := by
    intro n hn
    rcases mem_extend.mp hn with hn | hn
    · exact h.nullable n hn
    · split_ifs at hn with hnull
      · obtain rfl := List.mem_singleton.mp hn
        rw [Sets.isNullable_derivation] at hnull
        exact (produces_rule hr).trans_derives (h.vanishes hnull)
      · cases hn
  first := by
    intro n t hn
    rcases mem_extend.mp hn with hn | hn
    · exact h.first n t hn
    · obtain ⟨u, hu, heq⟩ := List.mem_map.mp hn
      obtain ⟨rfl, rfl⟩ := Prod.mk.inj heq
      have hbegins := (List.mem_filter.mp hu).2
      rw [Sets.beginsWith_derivation] at hbegins
      obtain ⟨rest, hd⟩ := h.begins hbegins
      exact ⟨rest, (produces_rule hr).trans_derives hd⟩
  follow := h.follow

/-- A rule with `n` in it puts behind `n` what the rest of the rule begins with. -/
theorem precedes_of_begins {r : Rule} (hr : r ∈ g.rules) {n : Nonterminal}
    {before rest : List GrammarSymbol} (hsymbols : r.derivation = before ++ .nonterminal n :: rest)
    (hb : g.Begins (erase rest) t) : g.Precedes n t := by
  obtain ⟨after, hd⟩ := hb
  refine .inl ⟨r.lhs, erase before, after, (produces_rule hr).trans_derives ?_⟩
  have hrest := hd.append_left (erase before ++ [.nonterminal n])
  simpa [← erase_derivation, hsymbols] using hrest

/-- A rule with `n` at its end puts behind `n` what comes behind its left-hand side. -/
theorem Precedes.of_rule {r : Rule} (hr : r ∈ g.rules) {n : Nonterminal}
    {before rest : List GrammarSymbol} (hsymbols : r.derivation = before ++ .nonterminal n :: rest)
    (hv : g.Vanishes (erase rest)) (hp : g.Precedes r.lhs t) : g.Precedes n t := by
  have hrule : g.contextFree.Derives [.nonterminal r.lhs] (erase before ++ [.nonterminal n]) := by
    refine (produces_rule hr).trans_derives ?_
    have hrest := hv.append_left (erase before ++ [.nonterminal n])
    simpa [← erase_derivation, hsymbols] using hrest
  rcases hp with ⟨m, front, after, hd⟩ | ⟨rfl, front, hd⟩
  · refine .inl ⟨m, front ++ erase before, after, hd.trans ?_⟩
    have hinner := (hrule.append_right (.terminal t :: after)).append_left front
    simpa using hinner
  · refine .inr ⟨rfl, front ++ erase before, hd.trans ?_⟩
    have hinner := hrule.append_left front
    simpa using hinner

theorem Sound.followStep (h : g.Sound sets) {r : Rule} (hr : r ∈ g.rules) {o : Occurrence}
    (ho : o ∈ occurrences r.lhs r.derivation) : g.Sound (followStep sets o).1 where
  nullable := h.nullable
  first := h.first
  follow := by
    intro n t hn
    obtain ⟨hlhs, before, hsymbols⟩ := mem_occurrences_iff.mp ho
    rcases mem_extend.mp hn with hn | hn
    · exact h.follow n t hn
    · obtain ⟨u, hu, heq⟩ := List.mem_map.mp hn
      obtain ⟨rfl, rfl⟩ := Prod.mk.inj heq
      rcases List.mem_append.mp hu with hfirst | hfollow
      · exact precedes_of_begins hr hsymbols (h.begins (List.mem_filter.mp hfirst).2)
      · split_ifs at hfollow with hnull
        · have hmem := List.contains_iff_mem.mp (List.mem_filter.mp hfollow).2
          rw [hlhs] at hmem
          exact .of_rule hr hsymbols (h.vanishes hnull) (h.follow _ u hmem)
        · cases hfollow

theorem sound_initial (g : Grammar) : g.Sound { follow := [(g.start, .endOfInput)] } where
  nullable := by simp
  first := by simp
  follow := by
    intro n t hn
    obtain ⟨rfl, rfl⟩ := Prod.mk.inj (List.mem_singleton.mp hn)
    exact .inr ⟨rfl, [], ContextFreeGrammar.Derives.refl _⟩

/-! ## Sweeps -/

theorem sweep_keeps {α : Type} {step : Sets → α → Sets × Bool} {P : Sets → Prop}
    {items : List α} (hstep : ∀ s, P s → ∀ a ∈ items, P (step s a).1) {s : Sets} (hs : P s) :
    P (sweep step s items).1 := by
  induction items generalizing s with
  | nil => exact hs
  | cons a rest ih =>
    apply ih
    · intro s hs b hb
      exact hstep s hs b (.tail _ hb)
    · exact hstep s hs a (.head _)

/-- A sweep that reports nothing new has left the sets alone, and so has each of its steps. -/
theorem sweep_idle {α : Type} {step : Sets → α → Sets × Bool}
    (hstep : ∀ s a, (step s a).2 = false → (step s a).1 = s) {s : Sets} {items : List α}
    (h : (sweep step s items).2 = false) :
    (sweep step s items).1 = s ∧ ∀ a ∈ items, (step s a).2 = false := by
  induction items generalizing s with
  | nil => exact ⟨rfl, fun a ha => by cases ha⟩
  | cons a rest ih =>
    obtain ⟨hfirst, hothers⟩ := Bool.or_eq_false_iff.mp h
    have hsame := hstep s a hfirst
    obtain ⟨hrest, hall⟩ := ih hothers
    rw [hsame] at hrest hall
    constructor
    · rw [sweep, hsame]
      exact hrest
    · intro b hb
      rcases List.mem_cons.mp hb with rfl | hb
      · exact hfirst
      · exact hall b hb

theorem firstStep_idle {s : Sets} {r : Rule} (h : (firstStep s r).2 = false) :
    (s.isNullable r.derivation = true → r.lhs ∈ s.nullable) ∧
    (∀ t, s.beginsWith t r.derivation = true → (r.lhs, t) ∈ s.first) ∧ (firstStep s r).1 = s := by
  obtain ⟨hnullable, hfirst⟩ := Bool.or_eq_false_iff.mp h
  have hnulls := subset_of_length_extend_eq (bne_eq_false_iff_eq.mp hnullable)
  have hfirsts := subset_of_length_extend_eq (bne_eq_false_iff_eq.mp hfirst)
  refine ⟨?_, ?_, ?_⟩
  · intro hnull
    rw [if_pos hnull] at hnulls
    exact hnulls (List.mem_singleton_self _)
  · intro t ht
    have hmem : t ∈ s.firstOf r.derivation := List.mem_filter.mpr ⟨t.mem_all, ht⟩
    exact hfirsts (List.mem_map_of_mem hmem)
  · exact Sets.mk.injEq .. |>.mpr
      ⟨extend_eq_of_subset hnulls, extend_eq_of_subset hfirsts, rfl⟩

theorem followStep_idle {s : Sets} {o : Occurrence} (h : (followStep s o).2 = false) :
    (∀ t, s.beginsWith t o.rest = true ∨ s.isNullable o.rest = true ∧ (o.lhs, t) ∈ s.follow →
      (o.nonterminal, t) ∈ s.follow) ∧ (followStep s o).1 = s := by
  have hfollows := subset_of_length_extend_eq (bne_eq_false_iff_eq.mp h)
  constructor
  · intro t ht
    refine hfollows (List.mem_map_of_mem (List.mem_append.mpr ?_))
    rcases ht with hbegins | ⟨hnull, hlhs⟩
    · exact .inl (List.mem_filter.mpr ⟨t.mem_all, hbegins⟩)
    · rw [if_pos hnull]
      exact .inr (List.mem_filter.mpr ⟨t.mem_all, List.contains_iff_mem.mpr hlhs⟩)
  · exact Sets.mk.injEq .. |>.mpr ⟨rfl, rfl, extend_eq_of_subset hfollows⟩

/-- The sweeps of a loop that ends: each of them but the last one adds something. -/
inductive Sweeps (swept : Sets → Sets × Bool) : Sets → Sets → Prop
  | last {s s'} : swept s = (s', false) → Sweeps swept s s'
  | again {s s₁ s'} : swept s = (s₁, true) → Sweeps swept s₁ s' → Sweeps swept s s'

section Loops

variable {swept : Sets → Sets × Bool} {s s' : Sets}

theorem sweeps_settle (shrinks : ∀ s, Shrinks s (swept s)) (s : Sets) :
    Sweeps swept s (settle swept shrinks s) := by
  fun_induction settle swept shrinks s with
  | case1 s hnew ih => exact .again (Prod.ext rfl hnew) ih
  | case2 s hnew => exact .last (Prod.ext rfl (Bool.eq_false_iff.mpr hnew))

theorem Sweeps.keeps {P : Sets → Prop} (hswept : ∀ s, P s → P (swept s).1)
    (h : Sweeps swept s s') (hs : P s) : P s' := by
  induction h with
  | @last s s' hlast =>
    have hkept := hswept s hs
    rwa [hlast] at hkept
  | @again s s₁ s' hagain _ ih =>
    have hkept := hswept s hs
    rw [hagain] at hkept
    exact ih hkept

theorem Sweeps.settled (hidle : ∀ s, (swept s).2 = false → (swept s).1 = s)
    (h : Sweeps swept s s') : (swept s').2 = false := by
  induction h with
  | @last s s' hlast =>
    have hsame : s' = s := by
      have hsame := hidle s (by rw [hlast])
      rwa [hlast] at hsame
    rw [hsame, hlast]
  | again _ _ ih => exact ih

end Loops

theorem firstSweep_idle {s : Sets} (h : (g.firstSweep s).2 = false) :
    (g.firstSweep s).1 = s ∧ ∀ r ∈ g.rules, (firstStep s r).2 = false :=
  sweep_idle (fun _ _ hs => (firstStep_idle hs).2.2) h

theorem followSweep_idle {s : Sets} (h : (g.followSweep s).2 = false) :
    (g.followSweep s).1 = s ∧
    ∀ r ∈ g.rules, ∀ o ∈ occurrences r.lhs r.derivation, (followStep s o).2 = false := by
  obtain ⟨hsame, hall⟩ := sweep_idle (fun _ _ hs => (followStep_idle hs).2) h
  refine ⟨hsame, ?_⟩
  intro r hr o ho
  exact hall o (List.mem_flatMap.mpr ⟨r, hr, ho⟩)

/-- The loop for FOLLOW leaves alone what the loop for FIRST has come to. -/
theorem followSweep_keeps_firsts (g : Grammar) (s : Sets) :
    (g.followSweep s).1.nullable = s.nullable ∧ (g.followSweep s).1.first = s.first ∧
    s.follow ⊆ (g.followSweep s).1.follow := by
  refine sweep_keeps (P := fun s' => s'.nullable = s.nullable ∧ s'.first = s.first ∧
    s.follow ⊆ s'.follow) ?_ ⟨rfl, rfl, List.Subset.refl _⟩
  rintro s' ⟨hnullable, hfirst, hfollow⟩ o -
  exact ⟨hnullable, hfirst, fun _ hmem => mem_extend.mpr (.inl (hfollow hmem))⟩

theorem Sets.isNullable_congr {a b : Sets} (hn : a.nullable = b.nullable)
    (symbols : List GrammarSymbol) : a.isNullable symbols = b.isNullable symbols := by
  induction symbols with
  | nil => rfl
  | cons x rest ih =>
    cases x with
    | terminal u => rfl
    | nonterminal n => rw [Sets.isNullable, Sets.isNullable, hn, ih]
    | action a => exact ih

theorem Sets.beginsWith_congr {a b : Sets} (hn : a.nullable = b.nullable)
    (hf : a.first = b.first) (t : Terminal) (symbols : List GrammarSymbol) :
    a.beginsWith t symbols = b.beginsWith t symbols := by
  induction symbols with
  | nil => rfl
  | cons x rest ih =>
    cases x with
    | terminal u => rfl
    | nonterminal n => rw [Sets.beginsWith, Sets.beginsWith, hn, hf, ih]
    | action a => exact ih

/-! ## The sets of every grammar -/

/-- Both loops come to their end, the second one with the sets of the grammar. -/
theorem sweeps_sets (g : Grammar) :
    ∃ firsts, Sweeps g.firstSweep { follow := [(g.start, .endOfInput)] } firsts ∧
      Sweeps g.followSweep firsts g.sets :=
  ⟨_, sweeps_settle _ _, sweeps_settle _ _⟩

theorem sound_sets (g : Grammar) : g.Sound g.sets := by
  obtain ⟨firsts, hfirsts, hfollows⟩ := g.sweeps_sets
  apply hfollows.keeps
  · intro s hs
    apply sweep_keeps _ hs
    intro s hs o ho
    obtain ⟨r, hr, ho⟩ := List.mem_flatMap.mp ho
    exact hs.followStep hr ho
  · apply hfirsts.keeps _ g.sound_initial
    intro s hs
    exact sweep_keeps (fun s hs r hr => hs.firstStep hr) hs

/-- What the first loop has come to is still there at the end of the second one. -/
theorem firsts_of_sweeps {firsts s : Sets} (h : Sweeps g.followSweep firsts s) :
    s.nullable = firsts.nullable ∧ s.first = firsts.first ∧ firsts.follow ⊆ s.follow := by
  refine h.keeps (P := fun s => s.nullable = firsts.nullable ∧ s.first = firsts.first ∧
    firsts.follow ⊆ s.follow) ?_ ⟨rfl, rfl, List.Subset.refl _⟩
  rintro s ⟨hnullable, hfirst, hfollow⟩
  obtain ⟨hnullable', hfirst', hfollow'⟩ := g.followSweep_keeps_firsts s
  exact ⟨hnullable'.trans hnullable, hfirst'.trans hfirst, List.Subset.trans hfollow hfollow'⟩

theorem closed_sets (g : Grammar) : g.Closed g.sets := by
  obtain ⟨firsts, hfirsts, hfollows⟩ := g.sweeps_sets
  obtain ⟨hnullable, hfirst, hfollow⟩ := firsts_of_sweeps hfollows
  have hfirstIdle := (firstSweep_idle (hfirsts.settled fun _ h => (firstSweep_idle h).1)).2
  have hfollowIdle := (followSweep_idle (hfollows.settled fun _ h => (followSweep_idle h).1)).2
  constructor
  · intro r hr hnull
    rw [hnullable]
    apply (firstStep_idle (hfirstIdle r hr)).1
    rw [Sets.isNullable_derivation, ← Sets.isNullable_congr hnullable]
    exact hnull
  · intro r hr t _ hbegins
    rw [hfirst]
    apply (firstStep_idle (hfirstIdle r hr)).2.1 t
    rw [Sets.beginsWith_derivation, ← Sets.beginsWith_congr hnullable hfirst]
    exact hbegins
  · intro r hr n _ rest hrest t _ h
    apply (followStep_idle (hfollowIdle r hr _ (mem_occurrences_derivation hrest))).1 t
    rw [Sets.beginsWith_filter, Sets.isNullable_filter]
    exact h
  · have hstart : firsts.follow = [(g.start, .endOfInput)] := by
      apply hfirsts.keeps (P := fun s => s.follow = [(g.start, .endOfInput)]) _ rfl
      intro s hs
      exact sweep_keeps (P := fun s => s.follow = [(g.start, .endOfInput)]) (fun _ hs _ _ => hs) hs
    apply hfollow
    rw [hstart]
    exact .head _

theorem isNullable_sets_iff {symbols : List GrammarSymbol} :
    g.sets.isNullable symbols = true ↔ g.Vanishes (erase symbols) :=
  ⟨g.sound_sets.vanishes, g.closed_sets.isNullable⟩

theorem beginsWith_sets_iff {t : Terminal} {symbols : List GrammarSymbol} :
    g.sets.beginsWith t symbols = true ↔ g.Begins (erase symbols) t :=
  ⟨g.sound_sets.begins, g.closed_sets.beginsWith⟩

theorem mem_firstOf_sets_iff {t : Terminal} {symbols : List GrammarSymbol} :
    t ∈ g.sets.firstOf symbols ↔ g.Begins (erase symbols) t := by
  rw [Sets.firstOf, List.mem_filter, beginsWith_sets_iff]
  exact and_iff_right t.mem_all

theorem mem_followOf_sets_iff {n : Nonterminal} {t : Terminal} :
    t ∈ g.sets.followOf n ↔ g.Precedes n t := by
  rw [Sets.followOf, List.mem_filter, List.contains_iff_mem]
  constructor
  · rintro ⟨-, hmem⟩
    exact g.sound_sets.follow n t hmem
  · intro hp
    exact ⟨t.mem_all, g.closed_sets.mem_follow hp⟩

/-- The sets of every grammar are exact. Both loops end, each with a sweep that adds nothing, and the
sets they leave have just the members that the derivations of the grammar show. -/
theorem sets_exact (g : Grammar) :
    (∃ firsts, Sweeps g.firstSweep { follow := [(g.start, .endOfInput)] } firsts ∧
      Sweeps g.followSweep firsts g.sets) ∧
    (∀ n, n ∈ g.sets.nullable ↔ g.Vanishes [.nonterminal n]) ∧
    (∀ n t, (n, t) ∈ g.sets.first ↔ g.Begins [.nonterminal n] t) ∧
    (∀ symbols, g.sets.isNullable symbols = true ↔ g.Vanishes (erase symbols)) ∧
    (∀ symbols t, t ∈ g.sets.firstOf symbols ↔ g.Begins (erase symbols) t) ∧
    ∀ n t, t ∈ g.sets.followOf n ↔ g.Precedes n t := by
  refine ⟨g.sweeps_sets, ?_, ?_, fun _ => isNullable_sets_iff, fun _ _ => mem_firstOf_sets_iff,
    fun _ _ => mem_followOf_sets_iff⟩
  · intro n
    have hsingle : g.sets.isNullable [.nonterminal n] = true ↔ g.Vanishes [.nonterminal n] :=
      isNullable_sets_iff
    simpa [Sets.isNullable] using hsingle
  · intro n t
    have hsingle : g.sets.beginsWith t [.nonterminal n] = true ↔ g.Begins [.nonterminal n] t :=
      beginsWith_sets_iff
    simpa [Sets.beginsWith] using hsingle

end Grammar

end OnePass
