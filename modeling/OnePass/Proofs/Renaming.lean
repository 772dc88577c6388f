import OnePass.Proofs.Discipline
import OnePass.Proofs.Lockstep
import OnePass.Proofs.SyntaxErrors

/-! # Names and layout do not matter

Two programs whose tokens differ in nothing but positions and the names of variables compile to the
same assembly, or they fail for the same reason at the same token. Their compilations make the same
moves, although the budgets for these moves differ with the lengths of the texts.
-/
namespace OnePass

section AnyDistance

variable {distance : String → String → Nat} [NameDistance distance]

variable {P : Pairing} {input input' : Input}

/-! ## Reading -/

namespace Lexer

theorem next_of_drain {l : Lexer} {fuel : Nat} {x : Lexeme} {tokens : List Lexeme}
    (h : drain fuel l = (x :: tokens).map .ok) : ∃ m, next l = .ok x m ∧
      (x.kind = .endOfInput ∨ ∃ less, fuel = less + 1 ∧ drain less m = tokens.map .ok) := by
  cases fuel with
  | zero => cases h
  | succ less =>
    unfold drain at h
    split at h
    · next y m hn =>
      split_ifs at h with hend
      · obtain ⟨rfl, -⟩ : y = x ∧ _ := by simpa using h
        exact ⟨m, hn, .inl hend⟩
      · obtain ⟨rfl, hrest⟩ : y = x ∧ drain less m = tokens.map .ok := by simpa using h
        exact ⟨m, hn, .inr ⟨less, rfl, hrest⟩⟩
    · simp at h

theorem drain_ne_nil {l : Lexer} {fuel : Nat} (hfuel : 0 < fuel) : drain fuel l ≠ [] := by
  obtain ⟨less, rfl⟩ := Nat.exists_eq_succ_of_ne_zero (Nat.ne_of_gt hfuel)
  unfold drain
  split
  · split_ifs <;> simp
  · simp

theorem paired_of_drain {tokens tokens' : List Lexeme}
    (hp : List.Forall₂ (fun x x' => (x, x') ∈ P.pairs) tokens tokens') {l l' : Lexer}
    {fuel fuel' : Nat} (hl : l.mode = .start) (hl' : l'.mode = .start)
    (hfuel : l.upcoming.length < fuel) (hfuel' : l'.upcoming.length < fuel')
    (h : drain fuel l = tokens.map .ok) (h' : drain fuel' l' = tokens'.map .ok) :
    ∃ x m x' m', next l = .ok x m ∧ next l' = .ok x' m' ∧ Paired P x m x' m' := by
  induction hp generalizing l l' fuel fuel' with
  | nil => exact absurd h (drain_ne_nil (by omega))
  | @cons x x' tokens tokens' hx _ ih =>
    obtain ⟨m, hn, hmore⟩ := next_of_drain h
    obtain ⟨m', hn', hmore'⟩ := next_of_drain h'
    refine ⟨x, m, x', m', hn, hn', ?_⟩
    by_cases hend : x.kind = .endOfInput
    · exact .ended hx hend
    · have hend' : x'.kind ≠ .endOfInput := P.kind_eq hx ▸ hend
      obtain ⟨less, rfl, hrest⟩ := hmore.resolve_left hend
      obtain ⟨less', rfl, hrest'⟩ := hmore'.resolve_left hend'
      -- Every other lexeme takes a character, so the fuel lasts.
      obtain ⟨hmode, hlt⟩ := next_ok hl hn
      obtain ⟨hmode', hlt'⟩ := next_ok hl' hn'
      have hlength := (hlt.resolve_left hend).2
      have hlength' := (hlt'.resolve_left hend').2
      obtain ⟨y, k, y', k', hy, hy', hpaired⟩ :=
        ih hmode hmode' (by omega) (by omega) hrest hrest'
      exact .more hx hend hy hy' hpaired

end Lexer

namespace Compiling

theorem start_eq {y : Lexeme} {m : Lexer} (hn : Lexer.next (.ofInput input) = .ok y m) :
    ∃ events, start (.ofInput input) = .ok () { Session.ofInput input with
      lexer := m
      lookahead := y
      control := initialControl
      workspace.symbols := SymbolTable.note {} y
      events } := by
  obtain ⟨events, he⟩ := readLexeme_eq (s := .ofInput input) hn
  rw [start, bind_ok he]
  exact ⟨events, rfl⟩

theorem exists_twin_start {x x' : Lexeme} {m m' : Lexer}
    (hn : Lexer.next (.ofInput input) = .ok x m) (hn' : Lexer.next (.ofInput input') = .ok x' m')
    (hp : Lexer.Paired P x m x' m') : ∃ s s', start (.ofInput input) = .ok () s ∧
      start (.ofInput input') = .ok () s' ∧ s.Twin P s' := by
  obtain ⟨events, he⟩ := start_eq hn
  obtain ⟨events', he'⟩ := start_eq hn'
  refine ⟨_, _, he, he', ?_⟩
  constructor
  case tokens => exact hp
  case control => rfl
  case operands => exact .nil
  case operators => rfl
  case workspace =>
    constructor
    case symbols => exact SymbolTable.twin_empty.note hp.mem
    case registers => rfl
    case emitter => exact ⟨rfl, .none, rfl, rfl, rfl⟩

/-! ## Runs -/

theorem Reaches.exists_twin {n : Nat} {s s₁ s' : Session} (h : Reaches n s s₁)
    (hs : s.Twin P s') : ∃ s₁', Reaches n s' s₁' ∧ s₁.Twin P s₁' := by
  induction h generalizing s' with
  | here => exact ⟨s', .here, hs⟩
  | move hc hm _ ih =>
    have hagree := lockstep_move _ _ hs
    rw [hm] at hagree
    generalize hm' : Compiling.move s' = outcome at hagree
    cases hagree with
    | ok _ hs₁ =>
      obtain ⟨s₁', hreaches, htwin⟩ := ih hs₁
      exact ⟨s₁', .move (hs.control ▸ hc) hm' hreaches, htwin⟩

/-- A compilation that ends well has a twin that ends well with the same lines. -/
theorem run_ok_of_twin {s s₁ s' : Session} (hs : s.Twin P s')
    (hc : s'.control = initialControl) (hmode : s'.lexer.mode = .start) {fuel : Nat}
    (h : run fuel s = .ok () s₁) : ∃ s₁', s₁.Twin P s₁' ∧
      run (moveBudget s'.lexer.upcoming.length) s' = .ok () s₁' := by
  obtain ⟨n, hreaches, hdone⟩ := exists_reaches h
  obtain ⟨s₁', hreaches', htwin⟩ := hreaches.exists_twin hs
  have hbudget := lt_moveBudget hreaches' hc hmode
  exact ⟨s₁', htwin, run_of_reaches hreaches' (htwin.control ▸ hdone) (by omega)⟩

/-- A compilation that fails has a twin that fails at the same move. -/
theorem run_error_of_twin {s s₁ s₂ s' : Session} {n : Nat} {d : Diagnostic} (hs : s.Twin P s')
    (hc : s'.control = initialControl) (hmode : s'.lexer.mode = .start) (h : Reaches n s s₁)
    (hc₁ : s₁.control ≠ []) (hm : move s₁ = .error d s₂) : ∃ d' s₂', d.Twin P d' ∧
      run (moveBudget s'.lexer.upcoming.length) s' = .error d' s₂' := by
  obtain ⟨s₁', hreaches', htwin⟩ := h.exists_twin hs
  have hagree := lockstep_move _ _ htwin
  rw [hm] at hagree
  generalize hm' : move s₁' = outcome at hagree
  cases hagree with
  | @error _ d' _ s₂' hd =>
    have hbudget := lt_moveBudget hreaches' hc hmode
    exact ⟨d', s₂', hd, run_error_of_reaches hreaches' (htwin.control ▸ hc₁) hm' (by omega)⟩

end Compiling

/-! ## Whole programs -/

theorem Assembly.ofEmissions_congr {xs ys : List Emission}
    (h : xs.map Emission.content = ys.map Emission.content) :
    Target.ofEmissions Assembly xs = Target.ofEmissions Assembly ys := by
  have hcontent : ∀ zs : List Emission, Target.ofEmissions Assembly zs =
      (zs.map Emission.content).foldl (fun a x => a.add x.1 x.2) {} := by
    intro zs
    rw [List.foldl_map]
    rfl
  rw [hcontent, hcontent, h]

/-- Programs with tokens side by side compile to the same assembly or fail alike. -/
theorem compile_of_pairing {tokens tokens' : List Lexeme}
    (hl : Lexer.lexemes input = tokens.map .ok) (hl' : Lexer.lexemes input' = tokens'.map .ok)
    (hp : List.Forall₂ (fun x x' => (x, x') ∈ P.pairs) tokens tokens') :
    (∃ a, compile Assembly input = .ok a ∧ compile Assembly input' = .ok a) ∨
      ∃ c c' p p', compile Assembly input = .error (.located c p) ∧
        compile Assembly input' = .error (.located c' p') ∧ c.SameVariant c' ∧ P.Aligned p p' := by
  obtain ⟨x, m, x', m', hn, hn', hpaired⟩ :=
    Lexer.paired_of_drain hp rfl rfl (Nat.lt_succ_self _) (Nat.lt_succ_self _) hl hl'
  obtain ⟨s, s', hstart, hstart', htwin⟩ := Compiling.exists_twin_start hn hn' hpaired
  have hcontrol' := (Compiling.start_ok hstart').2
  have hmode' := Compiling.mode_of_start hstart'
  cases hrun : Compiling.run (Compiling.moveBudget s.lexer.upcoming.length) s with
  | ok _ s₁ =>
    obtain ⟨s₁', htwin₁, hrun'⟩ := Compiling.run_ok_of_twin htwin hcontrol' hmode' hrun
    have hlines := congrArg Array.toList htwin₁.workspace.emitter.emitted
    rw [Array.toList_map, Array.toList_map] at hlines
    refine .inl ⟨_, (program_of_run hstart).2 s₁ hrun, ?_⟩
    rw [Assembly.ofEmissions_congr hlines]
    exact (program_of_run hstart').2 s₁' hrun'
  | error d s₂ =>
    obtain ⟨n, s₁, hreaches, hc₁, hm⟩ := Compiling.exists_failing_move_of_budget
      (Compiling.start_ok hstart).2 (Compiling.mode_of_start hstart) hrun
    obtain ⟨d', s₂', hd, hrun'⟩ :=
      Compiling.run_error_of_twin htwin hcontrol' hmode' hreaches hc₁ hm
    have herror := (program_of_run hstart).1 d s₂ hrun
    have herror' := (program_of_run hstart').1 d' s₂' hrun'
    cases hd with
    | located hc hp => exact .inr ⟨_, _, _, _, herror, herror', hc, hp⟩
    | internal reason =>
      -- The stacks are never used out of order.
      obtain ⟨matched, hreached⟩ := Reached.of_reaches (.start hstart) hreaches
      have hinternal := hreached.not_internal_of_move hc₁ hm
      cases hinternal

/-- The second lexeme is the first one, at whatever position and with its name replaced if it is an
identifier. -/
def Lexeme.Renamed (rename : String → String) (x x' : Lexeme) : Prop :=
  x'.kind = x.kind ∧ x'.text = if x.kind = .identifier then rename x.text else x.text

instance (rename : String → String) (x x' : Lexeme) : Decidable (x.Renamed rename x') :=
  inferInstanceAs (Decidable (_ ∧ _))

def Pairing.ofRenaming {rename : String → String} {tokens tokens' : List Lexeme}
    (ht : List.Forall₂ (Lexeme.Renamed rename) tokens tokens')
    (hr : ∀ x ∈ tokens, ∀ y ∈ tokens, x.kind = .identifier → y.kind = .identifier →
      rename x.text = rename y.text → x.text = y.text) : Pairing where
  pairs := tokens.zip tokens'
  kind_eq := by
    intro x x' hx
    exact (List.forall₂_zip ht hx).1.symm
  text_eq := by
    intro x x' hx hk
    rw [(List.forall₂_zip ht hx).2, if_neg hk]
  name_iff := by
    intro x x' y y' hx hy hkx hky
    rw [(List.forall₂_zip ht hx).2, if_pos hkx, (List.forall₂_zip ht hy).2, if_pos hky]
    constructor
    · exact congrArg rename
    · exact hr x (List.of_mem_zip hx).1 y (List.of_mem_zip hy).1 hkx hky

/-- The output depends on the tokens alone, and on names only as far as they are the same or not.
Two programs with the same tokens up to an injective renaming compile to the same assembly, or both
fail, for the same reason and at tokens of the same index. -/
theorem compile_of_renamed (input input' : Input) (tokens tokens' : List Lexeme)
    (rename : String → String) (hl : Lexer.lexemes input = tokens.map .ok)
    (hl' : Lexer.lexemes input' = tokens'.map .ok)
    (ht : List.Forall₂ (Lexeme.Renamed rename) tokens tokens')
    (hr : ∀ x ∈ tokens, ∀ y ∈ tokens, x.kind = .identifier → y.kind = .identifier →
      rename x.text = rename y.text → x.text = y.text) :
    (∃ a, compile Assembly input = .ok a ∧ compile Assembly input' = .ok a) ∨
      ∃ (d d' : Diagnostic) (i : Nat) (x x' : Lexeme),
        compile Assembly input = .error d ∧ compile Assembly input' = .error d' ∧
        d.cause.SameVariant d'.cause ∧ tokens[i]? = some x ∧ tokens'[i]? = some x' ∧
        d.position = some x.position ∧ d'.position = some x'.position := by
  have hp : List.Forall₂ (fun x x' => (x, x') ∈ (Pairing.ofRenaming ht hr).pairs) tokens tokens' :=
    List.forall₂_iff_zip.mpr ⟨ht.length_eq, id⟩
  rcases compile_of_pairing hl hl' hp with hok | ⟨c, c', p, p', herror, herror', hc, hp⟩
  · exact .inl hok
  · obtain ⟨x, x', hx, rfl, rfl⟩ := hp
    obtain ⟨i, hi⟩ := List.mem_iff_getElem?.mp hx
    obtain ⟨hi, hi'⟩ := List.getElem?_zip_eq_some.mp hi
    exact .inr ⟨_, _, i, x, x', herror, herror', hc, hi, hi', rfl, rfl⟩

end AnyDistance

def relaidCountdown : String :=
  "variable n;\n\x7b from seven \x7d n:=7;\nwhile n>5 do\n  n:=n-2;\nprint n\n"

def relaidDeclaredTwice : String :=
  "variable n ;\nvariable n"

def tokensOf (source : String) : List Lexeme :=
  (Lexer.lexemes (.ofText source)).filterMap Except.toOption

theorem compile_of_renamed_countdown :
    (∃ a, compile Assembly (.ofText countdown) = .ok a ∧
      compile Assembly (.ofText relaidCountdown) = .ok a) ∧
    ∃ (d d' : Diagnostic) (i : Nat) (x x' : Lexeme),
      compile Assembly (.ofText declaredTwice) = .error d ∧
      compile Assembly (.ofText relaidDeclaredTwice) = .error d' ∧
      d.cause.SameVariant d'.cause ∧ (tokensOf declaredTwice)[i]? = some x ∧
      (tokensOf relaidDeclaredTwice)[i]? = some x' ∧
      d.position = some x.position ∧ d'.position = some x'.position := by
  let rename (x : String) : String := if x = "x" then "n" else x
  constructor
  · have hrenamed := compile_of_renamed (.ofText countdown) (.ofText relaidCountdown)
      (tokensOf countdown) (tokensOf relaidCountdown) rename (by decide +kernel)
      (by decide +kernel) (by decide +kernel) (by decide +kernel)
    obtain ⟨a, ha⟩ := exists_compile_countdown
    rcases hrenamed with hok | ⟨d, -, -, -, -, herror, -⟩
    · exact hok
    · rw [ha] at herror
      cases herror
  · have hrenamed := compile_of_renamed (.ofText declaredTwice) (.ofText relaidDeclaredTwice)
      (tokensOf declaredTwice) (tokensOf relaidDeclaredTwice) rename (by decide +kernel)
      (by decide +kernel) (by decide +kernel) (by decide +kernel)
    have herror : compile Assembly (.ofText declaredTwice) =
        .error (.located (.redeclaration "x" ⟨1, 10⟩) ⟨1, 22⟩) := by decide +kernel
    rcases hrenamed with ⟨a, ha, -⟩ | hboth
    · rw [herror] at ha
      cases ha
    · exact hboth

end OnePass
