import Mathlib.Data.List.Pairwise
import OnePass.Grammar.Table
import OnePass.Proofs.Analysis

/-! # The table of a grammar is exact

Claims on cells are made rule by rule and, for one rule, terminal by terminal. So the claim that is
refused is the first whose cell was taken, and a table without a refusal has just the entries that
were claimed. What is claimed follows from what the grammar derives.
-/
namespace OnePass

def Terminal.rank (t : Terminal) : Nat :=
  Terminal.all.idxOf t

theorem Terminal.pairwise_rank : Terminal.all.Pairwise fun t u => t.rank < u.rank := by
  decide

namespace Grammar

variable {g : Grammar} {n : Nonterminal} {t : Terminal}

/-! ## Claims on cells -/

/-- The terminal selects the rule: the rule begins with it, or the rule vanishes before it and no
alternative begins with it. -/
def Selects (g : Grammar) (t : Terminal) (r : Rule) : Prop :=
  g.Begins (erase r.rhs) t ∨
    g.Vanishes (erase r.rhs) ∧ g.Precedes r.lhs t ∧
      ∀ other ∈ g.rules, other.lhs = r.lhs → ¬ g.Begins (erase other.rhs) t

/-- Two alternatives of a nonterminal, by their places in the grammar, begin with the terminal. -/
def FirstClash (g : Grammar) (i j : Nat) (t : Terminal) : Prop :=
  ∃ r s, g.rules[i]? = some r ∧ g.rules[j]? = some s ∧ i < j ∧ r.lhs = s.lhs ∧
    g.Begins (erase r.rhs) t ∧ g.Begins (erase s.rhs) t

/-- Two alternatives of a nonterminal vanish before the terminal, which the nonterminal does not
begin with. -/
def FollowClash (g : Grammar) (i j : Nat) (t : Terminal) : Prop :=
  ∃ r s, g.rules[i]? = some r ∧ g.rules[j]? = some s ∧ i < j ∧ r.lhs = s.lhs ∧
    g.Vanishes (erase r.rhs) ∧ g.Vanishes (erase s.rhs) ∧ g.Precedes s.lhs t ∧
      ¬ g.Begins [.nonterminal s.lhs] t

/-- The clash has the least second place, and for that place the least terminal. -/
def Earliest (clash : Nat → Nat → Terminal → Prop) (i j : Nat) (t : Terminal) : Prop :=
  clash i j t ∧ ∀ i' j' t', clash i' j' t' → j < j' ∨ j = j' ∧ t.rank ≤ t'.rank

theorem derives_nonterminal_iff {form : List FormSymbol} (hf : form ≠ [.nonterminal n]) :
    g.contextFree.Derives [.nonterminal n] form ↔
      ∃ r ∈ g.rules, r.lhs = n ∧ g.contextFree.Derives (erase r.rhs) form := by
  constructor
  · intro h
    rcases h.eq_or_head with heq | ⟨u, ⟨rule, hrule, hrewrites⟩, hu⟩
    · exact absurd heq.symm hf
    · obtain ⟨r, hr, rfl⟩ := mem_contextFree_rules.mp hrule
      obtain ⟨p, q, hpq, rfl⟩ := hrewrites.exists_parts
      cases p with
      | nil =>
        obtain ⟨hn, rfl⟩ : n = r.lhs ∧ q = [] := by simpa using hpq
        exact ⟨r, hr, hn.symm, by simpa using hu⟩
      | cons x p => simp at hpq
  · rintro ⟨r, hr, rfl, h⟩
    exact (produces_rule hr).trans_derives h

theorem vanishes_nonterminal_iff :
    g.Vanishes [.nonterminal n] ↔ ∃ r ∈ g.rules, r.lhs = n ∧ g.Vanishes (erase r.rhs) :=
  derives_nonterminal_iff (by simp)

theorem begins_nonterminal_iff :
    g.Begins [.nonterminal n] t ↔ ∃ r ∈ g.rules, r.lhs = n ∧ g.Begins (erase r.rhs) t := by
  constructor
  · rintro ⟨rest, h⟩
    obtain ⟨r, hr, hn, h⟩ := (derives_nonterminal_iff (by simp)).mp h
    exact ⟨r, hr, hn, rest, h⟩
  · rintro ⟨r, hr, hn, rest, h⟩
    exact ⟨rest, (derives_nonterminal_iff (by simp)).mpr ⟨r, hr, hn, h⟩⟩

end Grammar

namespace ParseTable

variable {g : Grammar} {n : Nonterminal} {t : Terminal} {table table' taken : ParseTable}
  {claims : List Entry} {c : Conflict} {e : Entry}

namespace Entry

def Shares (a b : Entry) : Prop :=
  a.nonterminal = b.nonterminal ∧ a.terminal = b.terminal

def Before (a b : Entry) : Prop :=
  a.index < b.index ∨ a.index = b.index ∧ a.terminal.rank < b.terminal.rank

theorem Shares.symm {a b : Entry} (h : a.Shares b) : b.Shares a :=
  ⟨h.1.symm, h.2.symm⟩

theorem Before.irrefl (a : Entry) : ¬ a.Before a := by
  rintro (h | ⟨-, h⟩) <;> omega

theorem Before.trans {a b c : Entry} (h : a.Before b) (h' : b.Before c) : a.Before c := by
  unfold Before at *
  omega

theorem fills_iff : e.fills n t = true ↔ e.nonterminal = n ∧ e.terminal = t := by
  simp [fills]

end Entry

/-! ## Placing claims -/

theorem entry?_eq_none_iff :
    table.entry? n t = none ↔ ∀ e ∈ table.entries, ¬ (e.nonterminal = n ∧ e.terminal = t) := by
  unfold entry?
  simp [Entry.fills_iff]

theorem mem_of_entry_eq (h : table.entry? n t = some e) :
    e ∈ table.entries ∧ e.nonterminal = n ∧ e.terminal = t := by
  unfold entry? at h
  have hfills := List.find?_some h
  exact ⟨List.mem_of_find?_eq_some h, Entry.fills_iff.mp hfills⟩

structure Apart (table : ParseTable) (claims : List Entry) : Prop where
  among : claims.Pairwise fun a b => ¬ a.Shares b
  table : ∀ a ∈ table.entries, ∀ b ∈ claims, ¬ a.Shares b

theorem Apart.cons (hfree : table.entry? e.nonterminal e.terminal = none)
    (h : Apart ⟨e :: table.entries⟩ claims) : Apart table (e :: claims) where
  among := List.pairwise_cons.mpr ⟨fun b hb => h.table e List.mem_cons_self b hb, h.among⟩
  table := by
    intro a ha b hb hshares
    rcases List.mem_cons.mp hb with rfl | hb
    · exact entry?_eq_none_iff.mp hfree a ha hshares
    · exact h.table a (.tail _ ha) b hb hshares

/-- If no claim is refused, all of them are in the table, each in a cell of its own. -/
theorem place_ok (h : place table claims = .ok table') :
    table'.entries = claims.reverse ++ table.entries ∧ Apart table claims := by
  induction claims generalizing table with
  | nil =>
    cases h
    exact ⟨rfl, .nil, fun _ _ b hb => absurd hb List.not_mem_nil⟩
  | cons e claims ih =>
    rw [place] at h
    cases hfree : table.entry? e.nonterminal e.terminal with
    | some earlier =>
      rw [hfree] at h
      cases h
    | none =>
      rw [hfree] at h
      obtain ⟨hentries, hapart⟩ := ih h
      exact ⟨by simp [hentries], hapart.cons hfree⟩

/-- A claim is refused because its cell was taken. Those before it were not refused. -/
theorem place_error (h : place table claims = .error c) :
    ∃ placed rest, claims = placed ++ c.second :: rest ∧ Apart table placed ∧
      (c.first ∈ placed ∨ c.first ∈ table.entries) ∧ c.first.Shares c.second := by
  induction claims generalizing table with
  | nil => cases h
  | cons e claims ih =>
    rw [place] at h
    cases hfree : table.entry? e.nonterminal e.terminal with
    | some earlier =>
      rw [hfree] at h
      cases h
      obtain ⟨hmem, hcell⟩ := mem_of_entry_eq hfree
      exact ⟨[], claims, rfl, ⟨.nil, fun _ _ b hb => absurd hb List.not_mem_nil⟩, .inr hmem, hcell⟩
    | none =>
      rw [hfree] at h
      obtain ⟨placed, rest, rfl, hapart, hfirst, hshares⟩ := ih h
      refine ⟨e :: placed, rest, rfl, hapart.cons hfree, ?_, hshares⟩
      rcases hfirst with hfirst | hfirst
      · exact .inl (.tail _ hfirst)
      · rcases List.mem_cons.mp hfirst with hfirst | hfirst
        · exact .inl (hfirst ▸ List.mem_cons_self)
        · exact .inr hfirst

theorem Apart.eq_of_shares (h : Apart table claims) {a b : Entry} (ha : a ∈ claims)
    (hb : b ∈ claims) (hs : a.Shares b) : a = b := by
  by_contra hne
  have hsymm : Std.Symm fun a b : Entry => ¬ a.Shares b := ⟨fun _ _ hab hba => hab hba.symm⟩
  exact h.among.forall ha hb hne hs

/-- Claims on free cells that are made in order are refused at the first that shares its cell with
an earlier one. -/
theorem earliest_of_place_error (h : place table claims = .error c)
    (hordered : claims.Pairwise Entry.Before)
    (hfree : ∀ a ∈ table.entries, ∀ b ∈ claims, ¬ a.Shares b) :
    c.first ∈ claims ∧ c.second ∈ claims ∧ c.first.Before c.second ∧ c.first.Shares c.second ∧
      ∀ a ∈ claims, ∀ b ∈ claims, a.Before b → a.Shares b → ¬ b.Before c.second := by
  obtain ⟨placed, rest, rfl, hapart, hfirst, hshares⟩ := place_error h
  have hsecond : c.second ∈ placed ++ c.second :: rest := by simp
  have hplaced : c.first ∈ placed := by
    refine hfirst.resolve_right ?_
    intro htable
    exact hfree _ htable _ hsecond hshares
  obtain ⟨-, hrest, hcross⟩ := List.pairwise_append.mp hordered
  have hearlier : ∀ a ∈ placed ++ c.second :: rest, a.Before c.second → a ∈ placed := by
    intro a ha hbefore
    rcases List.mem_append.mp ha with ha | ha
    · exact ha
    · rcases List.mem_cons.mp ha with rfl | ha
      · exact absurd hbefore (Entry.Before.irrefl _)
      · have hafter := (List.pairwise_cons.mp hrest).1 a ha
        exact absurd (hbefore.trans hafter) (Entry.Before.irrefl _)
  refine ⟨List.mem_append_left _ hplaced, hsecond, hcross _ hplaced _ List.mem_cons_self, hshares,
    ?_⟩
  intro a ha b hb hab hsab hbefore
  have hmem := hearlier b hb hbefore
  have hmem' := hearlier a ha (hab.trans hbefore)
  obtain rfl := hapart.eq_of_shares hmem' hmem hsab
  exact Entry.Before.irrefl _ hab

/-! ## What is claimed -/

theorem mem_firstClaims_iff : e ∈ firstClaims g g.sets ↔
    g.rules[e.index]? = some e.rule ∧ g.Begins (erase e.rule.rhs) e.terminal := by
  obtain ⟨t, i, r⟩ := e
  simp only [firstClaims, List.mem_flatMap, List.mem_map, Grammar.mem_firstOf_sets_iff, Prod.exists,
    List.mem_zipIdx_iff_getElem?, Entry.mk.injEq]
  constructor
  · rintro ⟨r', i', hr, t', ht, rfl, rfl, rfl⟩
    exact ⟨hr, ht⟩
  · rintro ⟨hr, ht⟩
    exact ⟨r, i, hr, t, ht, rfl, rfl, rfl⟩

theorem mem_followClaims_iff : e ∈ followClaims g g.sets taken ↔
    g.rules[e.index]? = some e.rule ∧ g.Vanishes (erase e.rule.rhs) ∧
      g.Precedes e.rule.lhs e.terminal ∧ taken.entry? e.rule.lhs e.terminal = none := by
  obtain ⟨t, i, r⟩ := e
  simp only [followClaims, List.mem_flatMap, List.mem_map, List.mem_filter,
    Grammar.mem_followOf_sets_iff, Grammar.isNullable_sets_iff, Prod.exists,
    List.mem_zipIdx_iff_getElem?, Entry.mk.injEq, Option.isNone_iff_eq_none]
  constructor
  · rintro ⟨r', i', ⟨hr, hv⟩, t', ⟨ht, hnone⟩, rfl, rfl, rfl⟩
    exact ⟨hr, hv, ht, hnone⟩
  · rintro ⟨hr, hv, ht, hnone⟩
    exact ⟨r, i, ⟨hr, hv⟩, t, ⟨ht, hnone⟩, rfl, rfl, rfl⟩

/-- Claims that list some of the rules, and for each of them some of the terminals, are ordered. -/
theorem pairwise_before {rules : List (Rule × Nat)} (hrules : rules.Sublist g.rules.zipIdx)
    {terminals : Rule × Nat → List Terminal}
    (hterminals : ∀ p, (terminals p).Sublist Terminal.all) :
    (rules.flatMap fun p => (terminals p).map fun t => (⟨t, p.2, p.1⟩ : Entry)).Pairwise
      Entry.Before := by
  rw [List.pairwise_flatMap]
  constructor
  · intro p hp
    rw [List.pairwise_map]
    exact (Terminal.pairwise_rank.sublist (hterminals p)).imp fun hlt => .inr ⟨rfl, hlt⟩
  · have hindices : rules.Pairwise fun p q => p.2 < q.2 := by
      refine List.Pairwise.sublist hrules ?_
      rw [← List.pairwise_map, List.zipIdx_map_snd]
      exact List.pairwise_lt_range'
    refine hindices.imp ?_
    intro p q hlt a ha b hb
    obtain ⟨-, -, rfl⟩ := List.mem_map.mp ha
    obtain ⟨-, -, rfl⟩ := List.mem_map.mp hb
    exact .inl hlt

theorem pairwise_firstClaims : (firstClaims g g.sets).Pairwise Entry.Before :=
  pairwise_before (List.Sublist.refl _) fun _ => List.filter_sublist

theorem pairwise_followClaims : (followClaims g g.sets taken).Pairwise Entry.Before :=
  pairwise_before List.filter_sublist fun _ => List.filter_sublist.trans List.filter_sublist

/-- Once the first claims are placed, the free cells are those that the nonterminal does not begin
with. -/
theorem entry?_firsts_eq_none_iff (h : place {} (firstClaims g g.sets) = .ok taken) :
    taken.entry? n t = none ↔ ¬ g.Begins [.nonterminal n] t := by
  rw [entry?_eq_none_iff, (place_ok h).1, Grammar.begins_nonterminal_iff]
  constructor
  · rintro hfree ⟨r, hr, rfl, hb⟩
    obtain ⟨i, hi⟩ := List.getElem?_of_mem hr
    refine hfree ⟨t, i, r⟩ ?_ ⟨rfl, rfl⟩
    simpa using mem_firstClaims_iff.mpr ⟨hi, hb⟩
  · rintro hnone e he ⟨rfl, rfl⟩
    obtain ⟨hr, hb⟩ := mem_firstClaims_iff.mp (by simpa using he)
    exact hnone ⟨e.rule, List.mem_of_getElem? hr, rfl, hb⟩

theorem apart_followClaims :
    ∀ a ∈ taken.entries, ∀ b ∈ followClaims g g.sets taken, ¬ a.Shares b := by
  intro a ha b hb hshares
  have hfree := (mem_followClaims_iff.mp hb).2.2.2
  exact entry?_eq_none_iff.mp hfree a ha hshares

/-! ## Conflicts -/

def HasFirstClash (g : Grammar) : Prop :=
  ∃ i j t, g.FirstClash i j t

def HasFollowClash (g : Grammar) : Prop :=
  ∃ i j t, g.FollowClash i j t

/-- What a conflict reports: two rules of the grammar with the cell that both claim. A clash of
first claims is reported before any clash of follow claims. -/
def Reports (g : Grammar) (c : Conflict) : Prop :=
  g.rules[c.first.index]? = some c.first.rule ∧ g.rules[c.second.index]? = some c.second.rule ∧
    c.first.terminal = c.terminal ∧
    (Grammar.Earliest g.FirstClash c.first.index c.second.index c.terminal ∨
      ¬ HasFirstClash g ∧
        Grammar.Earliest g.FollowClash c.first.index c.second.index c.terminal)

theorem not_hasFirstClash (h : place {} (firstClaims g g.sets) = .ok taken) :
    ¬ HasFirstClash g := by
  rintro ⟨i, j, t, r, s, hi, hj, hlt, hlhs, hr, hs⟩
  have hfirst : ⟨t, i, r⟩ ∈ firstClaims g g.sets := mem_firstClaims_iff.mpr ⟨hi, hr⟩
  have hsecond : ⟨t, j, s⟩ ∈ firstClaims g g.sets := mem_firstClaims_iff.mpr ⟨hj, hs⟩
  have heq := (place_ok h).2.eq_of_shares hfirst hsecond ⟨hlhs, rfl⟩
  have hindex : i = j := congrArg Entry.index heq
  omega

theorem not_hasFollowClash (hfirsts : place {} (firstClaims g g.sets) = .ok taken)
    (h : place taken (followClaims g g.sets taken) = .ok table) : ¬ HasFollowClash g := by
  rintro ⟨i, j, t, r, s, hi, hj, hlt, hlhs, hr, hs, hp, hb⟩
  have hfree := (entry?_firsts_eq_none_iff hfirsts).mpr hb
  have hfirst : ⟨t, i, r⟩ ∈ followClaims g g.sets taken :=
    mem_followClaims_iff.mpr ⟨hi, hr, hlhs ▸ hp, hlhs ▸ hfree⟩
  have hsecond : ⟨t, j, s⟩ ∈ followClaims g g.sets taken :=
    mem_followClaims_iff.mpr ⟨hj, hs, hp, hfree⟩
  have heq := (place_ok h).2.eq_of_shares hfirst hsecond ⟨hlhs, rfl⟩
  have hindex : i = j := congrArg Entry.index heq
  omega

/-- Claims that share a cell and come one before the other come from two rules. -/
theorem Entry.Before.index_lt {a b : Entry} (h : a.Before b) (hs : a.Shares b) :
    a.index < b.index := by
  rcases h with h | ⟨-, h⟩
  · exact h
  · rw [hs.2] at h
    omega

theorem Entry.not_before {a b : Entry} (h : ¬ b.Before a) :
    a.index < b.index ∨ a.index = b.index ∧ a.terminal.rank ≤ b.terminal.rank := by
  unfold Before at h
  omega

theorem reports_of_first_clash (h : place {} (firstClaims g g.sets) = .error c) :
    Reports g c := by
  obtain ⟨hfirst, hsecond, hbefore, hshares, hleast⟩ :=
    earliest_of_place_error h pairwise_firstClaims (by simp)
  obtain ⟨hi, hr⟩ := mem_firstClaims_iff.mp hfirst
  obtain ⟨hj, hs⟩ := mem_firstClaims_iff.mp hsecond
  have hterminal : c.first.terminal = c.terminal := hshares.2
  refine ⟨hi, hj, hterminal, .inl ⟨?_, ?_⟩⟩
  · exact ⟨_, _, hi, hj, hbefore.index_lt hshares, hshares.1, hterminal ▸ hr, hs⟩
  · rintro i j t ⟨r, s, hi', hj', hlt, hlhs, hr', hs'⟩
    have hnot := hleast ⟨t, i, r⟩ (mem_firstClaims_iff.mpr ⟨hi', hr'⟩) ⟨t, j, s⟩
      (mem_firstClaims_iff.mpr ⟨hj', hs'⟩) (.inl hlt) ⟨hlhs, rfl⟩
    exact Entry.not_before hnot

theorem reports_of_follow_clash (hfirsts : place {} (firstClaims g g.sets) = .ok taken)
    (h : place taken (followClaims g g.sets taken) = .error c) : Reports g c := by
  obtain ⟨hfirst, hsecond, hbefore, hshares, hleast⟩ :=
    earliest_of_place_error h pairwise_followClaims apart_followClaims
  obtain ⟨hi, hr, -, -⟩ := mem_followClaims_iff.mp hfirst
  obtain ⟨hj, hs, hp, hfree⟩ := mem_followClaims_iff.mp hsecond
  have hb := (entry?_firsts_eq_none_iff hfirsts).mp hfree
  refine ⟨hi, hj, hshares.2, .inr ⟨not_hasFirstClash hfirsts, ?_, ?_⟩⟩
  · exact ⟨_, _, hi, hj, hbefore.index_lt hshares, hshares.1, hr, hs, hp, hb⟩
  · rintro i j t ⟨r, s, hi', hj', hlt, hlhs, hr', hs', hp', hb'⟩
    have hfree' := (entry?_firsts_eq_none_iff hfirsts).mpr hb'
    have hnot := hleast ⟨t, i, r⟩ (mem_followClaims_iff.mpr ⟨hi', hr', hlhs ▸ hp', hlhs ▸ hfree'⟩)
      ⟨t, j, s⟩ (mem_followClaims_iff.mpr ⟨hj', hs', hp', hfree'⟩) (.inl hlt) ⟨hlhs, rfl⟩
    exact Entry.not_before hnot

theorem Reports.clash (h : Reports g c) : HasFirstClash g ∨ HasFollowClash g := by
  obtain ⟨-, -, -, ⟨hclash, -⟩ | ⟨-, hclash, -⟩⟩ := h
  · exact .inl ⟨_, _, _, hclash⟩
  · exact .inr ⟨_, _, _, hclash⟩

theorem build_cases (g : Grammar) :
    (∃ c, build g = .error c ∧ Reports g c) ∨
      ∃ taken table, place {} (firstClaims g g.sets) = .ok taken ∧
        place taken (followClaims g g.sets taken) = .ok table ∧ build g = .ok table := by
  cases hfirsts : place {} (firstClaims g g.sets) with
  | error c =>
    refine .inl ⟨c, ?_, reports_of_first_clash hfirsts⟩
    simp [build, hfirsts, bind, Except.bind]
  | ok taken =>
    have hbuild : build g = place taken (followClaims g g.sets taken) := by
      simp [build, hfirsts, bind, Except.bind]
    cases hfollows : place taken (followClaims g g.sets taken) with
    | error c => exact .inl ⟨c, hbuild.trans hfollows, reports_of_follow_clash hfirsts hfollows⟩
    | ok table => exact .inr ⟨taken, table, rfl, hfollows, hbuild.trans hfollows⟩

/-! ## Entries -/

/-- A finished table has an entry for every claim, and for nothing else. -/
theorem entry?_eq_some_iff (hfirsts : place {} (firstClaims g g.sets) = .ok taken)
    (h : place taken (followClaims g g.sets taken) = .ok table) :
    table.entry? n t = some e ↔
      (e ∈ firstClaims g g.sets ∨ e ∈ followClaims g g.sets taken) ∧
        e.nonterminal = n ∧ e.terminal = t := by
  obtain ⟨hfirst, hapart⟩ := place_ok hfirsts
  obtain ⟨hentries, hapart'⟩ := place_ok h
  have htaken : taken.entries = (firstClaims g g.sets).reverse := by simpa using hfirst
  have hmem : ∀ e, e ∈ table.entries ↔
      e ∈ firstClaims g g.sets ∨ e ∈ followClaims g g.sets taken := by
    intro e
    simp [hentries, htaken, or_comm]
  constructor
  · intro he
    obtain ⟨hin, hcell⟩ := mem_of_entry_eq he
    exact ⟨(hmem e).mp hin, hcell⟩
  · rintro ⟨hin, rfl, rfl⟩
    cases hfound : table.entry? e.nonterminal e.terminal with
    | none => exact absurd ⟨rfl, rfl⟩ (entry?_eq_none_iff.mp hfound e ((hmem e).mpr hin))
    | some e' =>
      -- Two entries in one cell are the same claim.
      obtain ⟨hin', hshares⟩ := mem_of_entry_eq hfound
      rcases hin with hin | hin <;> rcases (hmem e').mp hin' with hin' | hin'
      · rw [hapart.eq_of_shares hin' hin hshares]
      · exact absurd (Entry.Shares.symm hshares) (hapart'.table e (by simpa [htaken]) e' hin')
      · exact absurd hshares (hapart'.table e' (by simpa [htaken]) e hin)
      · rw [hapart'.eq_of_shares hin' hin hshares]

/-- What is claimed is what the terminal selects. -/
theorem claimed_iff (hfirsts : place {} (firstClaims g g.sets) = .ok taken) :
    e ∈ firstClaims g g.sets ∨ e ∈ followClaims g g.sets taken ↔
      g.rules[e.index]? = some e.rule ∧ g.Selects e.terminal e.rule := by
  rw [mem_firstClaims_iff, mem_followClaims_iff, entry?_firsts_eq_none_iff hfirsts,
    Grammar.begins_nonterminal_iff]
  simp only [Grammar.Selects, not_exists, not_and]
  constructor
  · rintro (⟨hi, hb⟩ | ⟨hi, hv, hp, hnone⟩)
    · exact ⟨hi, .inl hb⟩
    · exact ⟨hi, .inr ⟨hv, hp, hnone⟩⟩
  · rintro ⟨hi, hb | ⟨hv, hp, hnone⟩⟩
    · exact .inl ⟨hi, hb⟩
    · exact .inr ⟨hi, hv, hp, hnone⟩

theorem entry?_of_build (h : build g = .ok table) {i : Nat} {r : Rule} :
    table.entry? n t = some ⟨t, i, r⟩ ↔ g.rules[i]? = some r ∧ r.lhs = n ∧ g.Selects t r := by
  rcases build_cases g with ⟨c, he, -⟩ | ⟨taken, table', hfirsts, hfollows, hok⟩
  · rw [he] at h
    cases h
  · rw [hok] at h
    cases h
    rw [entry?_eq_some_iff hfirsts hfollows, claimed_iff hfirsts]
    simp only [Entry.nonterminal, and_true]
    exact ⟨fun ⟨⟨hi, hs⟩, hn⟩ => ⟨hi, hn, hs⟩, fun ⟨hi, hn, hs⟩ => ⟨⟨hi, hs⟩, hn⟩⟩

theorem rule?_of_build (h : build g = .ok table) {r : Rule} :
    table.rule? n t = some r ↔ r ∈ g.rules ∧ r.lhs = n ∧ g.Selects t r := by
  rw [rule?, Option.map_eq_some_iff]
  constructor
  · rintro ⟨⟨t', i, r'⟩, he, rfl⟩
    obtain rfl : t' = t := (mem_of_entry_eq he).2.2
    obtain ⟨hi, hn, hs⟩ := (entry?_of_build h).mp he
    exact ⟨List.mem_of_getElem? hi, hn, hs⟩
  · rintro ⟨hr, hn, hs⟩
    obtain ⟨i, hi⟩ := List.getElem?_of_mem hr
    exact ⟨⟨t, i, r⟩, (entry?_of_build h).mpr ⟨hi, hn, hs⟩, rfl⟩

/-- A nonterminal without an alternative for the terminal neither begins with it nor vanishes
before it. -/
theorem exists_selects_iff : (∃ r ∈ g.rules, r.lhs = n ∧ g.Selects t r) ↔
    g.Begins [.nonterminal n] t ∨ g.Vanishes [.nonterminal n] ∧ g.Precedes n t := by
  rw [Grammar.vanishes_nonterminal_iff]
  constructor
  · rintro ⟨r, hr, rfl, hb | ⟨hv, hp, -⟩⟩
    · exact .inl (Grammar.begins_nonterminal_iff.mpr ⟨r, hr, rfl, hb⟩)
    · exact .inr ⟨⟨r, hr, rfl, hv⟩, hp⟩
  · intro h
    by_cases hb : g.Begins [.nonterminal n] t
    · obtain ⟨r, hr, hn, hb⟩ := Grammar.begins_nonterminal_iff.mp hb
      exact ⟨r, hr, hn, .inl hb⟩
    · obtain ⟨⟨r, hr, rfl, hv⟩, hp⟩ := h.resolve_left hb
      refine ⟨r, hr, rfl, .inr ⟨hv, hp, ?_⟩⟩
      intro other hother hlhs hb'
      exact hb (Grammar.begins_nonterminal_iff.mpr ⟨other, hother, hlhs, hb'⟩)

theorem mem_expected_of_build (h : build g = .ok table) : t ∈ table.expected n ↔
    g.Begins [.nonterminal n] t ∨ g.Vanishes [.nonterminal n] ∧ g.Precedes n t := by
  rw [← exists_selects_iff, expected, List.mem_filter, ← Option.isSome_map (f := Entry.rule),
    Option.isSome_iff_exists]
  constructor
  · rintro ⟨-, r, hr⟩
    exact ⟨r, (rule?_of_build h).mp hr⟩
  · rintro ⟨r, hr⟩
    exact ⟨t.mem_all, r, (rule?_of_build h).mpr hr⟩

/-- Tables are built exactly. Building fails if and only if two alternatives of a nonterminal have
an equal claim on a terminal, and then the first such clash is reported. Otherwise a cell has the
rule that its terminal selects, and the expected terminals are all those that select a rule. -/
theorem build_exact (g : Grammar) :
    ((∃ c, build g = .error c) ↔ HasFirstClash g ∨ HasFollowClash g) ∧
    (∀ c, build g = .error c → Reports g c) ∧
    ∀ table, build g = .ok table →
      (∀ n t i r, table.entry? n t = some ⟨t, i, r⟩ ↔
        g.rules[i]? = some r ∧ r.lhs = n ∧ g.Selects t r) ∧
      (∀ n t r, table.rule? n t = some r ↔ r ∈ g.rules ∧ r.lhs = n ∧ g.Selects t r) ∧
      ∀ n, (table.expected n).Sublist Terminal.all ∧ (table.expected n).Nodup ∧
        ∀ t, t ∈ table.expected n ↔
          g.Begins [.nonterminal n] t ∨ g.Vanishes [.nonterminal n] ∧ g.Precedes n t := by
  refine ⟨⟨?_, ?_⟩, ?_, ?_⟩
  · rintro ⟨c, hc⟩
    rcases build_cases g with ⟨c', -, hreports⟩ | ⟨taken, table, -, -, hok⟩
    · exact hreports.clash
    · rw [hok] at hc
      cases hc
  · intro hclash
    rcases build_cases g with ⟨c, hc, -⟩ | ⟨taken, table, hfirsts, hfollows, -⟩
    · exact ⟨c, hc⟩
    · rcases hclash with hclash | hclash
      · exact absurd hclash (not_hasFirstClash hfirsts)
      · exact absurd hclash (not_hasFollowClash hfirsts hfollows)
  · intro c hc
    rcases build_cases g with ⟨c', hc', hreports⟩ | ⟨taken, table, -, -, hok⟩
    · rw [hc] at hc'
      cases hc'
      exact hreports
    · rw [hok] at hc
      cases hc
  · intro table htable
    refine ⟨fun n t i r => entry?_of_build htable, fun n t r => rule?_of_build htable, ?_⟩
    intro n
    have hsublist : (table.expected n).Sublist Terminal.all := List.filter_sublist
    have hnodup : Terminal.all.Nodup := by decide
    exact ⟨hsublist, hnodup.sublist hsublist, fun t => mem_expected_of_build htable⟩

def clashing : Grammar :=
  ⟨.statement, [⟨.statement, []⟩, ⟨.statement, [Terminal.printWord]⟩,
    ⟨.statement, [Action.callPrint, Terminal.printWord]⟩, ⟨.statement, []⟩]⟩

/-- Conditionals whose `else` may belong to an outer one. -/
def dangling : Grammar :=
  ⟨.statement,
    [⟨.statement, [Terminal.ifWord, Nonterminal.statement, Nonterminal.elseClause]⟩,
      ⟨.statement, []⟩,
      ⟨.elseClause, [Terminal.elseWord, Nonterminal.statement]⟩, ⟨.elseClause, []⟩]⟩

theorem build_exact_of_dangling :
    (∃ c, build clashing = .error c ∧ Reports clashing c ∧ c.first.index = 1 ∧
      c.second.index = 2) ∧
    ∃ table, build dangling = .ok table ∧
      (table.rule? .elseClause .elseWord =
        some ⟨.elseClause, [Terminal.elseWord, Nonterminal.statement]⟩ ∧
        dangling.Selects .elseWord ⟨.elseClause, [Terminal.elseWord, Nonterminal.statement]⟩) ∧
      .endOfInput ∈ table.expected .elseClause ∧
        (dangling.Begins [.nonterminal .elseClause] .endOfInput ∨
          dangling.Vanishes [.nonterminal .elseClause] ∧
            dangling.Precedes .elseClause .endOfInput) := by
  refine ⟨?_, ?_⟩
  · have herror : build clashing = .error
        ⟨⟨.printWord, 1, ⟨.statement, [Terminal.printWord]⟩⟩,
          ⟨.printWord, 2, ⟨.statement, [Action.callPrint, Terminal.printWord]⟩⟩⟩ := by
      decide +kernel
    exact ⟨_, herror, (build_exact clashing).2.1 _ herror, rfl, rfl⟩
  · have hok : build dangling = .ok
        ⟨[⟨.endOfInput, 3, ⟨.elseClause, []⟩⟩, ⟨.endOfInput, 1, ⟨.statement, []⟩⟩,
          ⟨.elseWord, 1, ⟨.statement, []⟩⟩,
          ⟨.elseWord, 2, ⟨.elseClause, [Terminal.elseWord, Nonterminal.statement]⟩⟩,
          ⟨.ifWord, 0, ⟨.statement,
            [Terminal.ifWord, Nonterminal.statement, Nonterminal.elseClause]⟩⟩]⟩ := by
      decide +kernel
    obtain ⟨-, hrules, hexpected⟩ := (build_exact dangling).2.2 _ hok
    have hrule := hrules .elseClause .elseWord
      ⟨.elseClause, [Terminal.elseWord, Nonterminal.statement]⟩
    have hend := (hexpected .elseClause).2.2 .endOfInput
    refine ⟨_, hok, ?_, ?_⟩
    · exact ⟨rfl, (hrule.mp rfl).2.2⟩
    · exact ⟨by decide, hend.mp (by decide)⟩

end ParseTable

end OnePass
