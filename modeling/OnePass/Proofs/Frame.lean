import OnePass.Proofs.Preservation

/-! # The frame of a program

A slot lies in the reserved part of the frame if as many declarations have been executed as its
number says. Slots are numbered in the order of the text, while declarations are executed in the
order of the run. So an accessed slot is reserved exactly if the program never uses a variable before
as many declarations have been carried out as precede it in the text, its own included. A program
whose declaration is skipped breaks this.
-/
namespace OnePass

section AnyDistance

variable {distance : String → String → Nat} [NameDistance distance]

variable {p : Platform} {text data : List Line} {m : Machine} {tree : Sequence}
  {values : String → BitVec 32}

/-- Every slot that is accessed in a run is reserved: enough reservations have been executed, and the
slot is not below the stack pointer. -/
def AccessesReserved (p : Platform) (text : List Line) (m : Machine) : Prop :=
  ∀ m' slot, Attains (Machine.next p text) m m' → m'.Accesses text slot →
    slot ≤ m'.reserved ∧ m'.sp ≤ m'.fp + frameOffset slot

/-- Whenever the program uses a variable, as many declarations have been carried out as the number of
its slot says. -/
def DeclaresBeforeUse (quotient : BitVec 32 → BitVec 32 → BitVec 32) (tree : Sequence)
    (values : String → BitVec 32) : Prop :=
  ∀ c x slot, Attains (Activity.next quotient) (tree.start values) c → x ∈ c.uses →
    slot? tree.declared x = some slot → slot ≤ c.store.declarations

namespace Tracks

theorem exists_access (h : Tracks p text data tree values m) {c : Activity} {x : String} {slot : Nat}
    (hc : Attains (Activity.next p.quotient) (tree.start values) c) (hx : x ∈ c.uses)
    (hslot : slot? tree.declared x = some slot) :
    ∃ m', Attains (Machine.next p text) m m' ∧ m'.Accesses text slot ∧
      m'.reserved = c.store.declarations := by
  obtain ⟨m₁, hm₁, hinstep⟩ := h.matched c hc
  obtain ⟨todo, σ⟩ := c
  cases todo with
  | nil => cases hx
  | cons s rest =>
    obtain ⟨ms, m₂, slots, hpassage, -, -, hslots⟩ := hinstep.arrives (p := p) h.labels h.defines
    obtain ⟨m', hmem, haccess⟩ := (hpassage.slots slot).mpr ((hslots slot).mpr ⟨x, hx, hslot⟩)
    have hreserved := (hpassage.frame m' hmem slot haccess).1
    exact ⟨m', hm₁.trans (hpassage.run.exists_of_mem hmem), haccess,
      hreserved.trans hinstep.reflects.reserved⟩

theorem accessesReserved_iff (h : Tracks p text data tree values m) :
    AccessesReserved p text m ↔ DeclaresBeforeUse p.quotient tree values := by
  constructor
  · intro hreserved c x slot hc hx hslot
    obtain ⟨m', hm', haccess, he⟩ := h.exists_access hc hx hslot
    rw [← he]
    exact (hreserved m' slot hm' haccess).1
  · intro hdeclares m' slot hm' haccess
    obtain ⟨c, hc, ⟨x, hx, hslot⟩, hreserved, hsp⟩ := (h.explained m' hm').accesses slot haccess
    have hle := hdeclares c x slot hc hx hslot
    rw [← hreserved] at hle
    refine ⟨hle, ?_⟩
    rw [hsp, frameOffset]
    omega

end Tracks

/-- In the run of a compiled program every accessed slot is reserved exactly if the program uses no
variable before as many declarations have been carried out as the number of its slot says. -/
theorem compile_accesses_reserved_iff (source : String) (a : Assembly)
    (h : compile Assembly (.ofText source) = .ok a) :
    (∃ tree : Sequence, tree.ParsesText source) ∧
      ∀ tree : Sequence, tree.ParsesText source → ∀ (p : Platform) (m : Machine)
        (values : String → BitVec 32), m.AtEntry a.text.toList → m.Holds tree.declared values →
        (AccessesReserved p a.text.toList m ↔ DeclaresBeforeUse p.quotient tree values) := by
  refine ⟨exists_parsesText h, fun tree ht p m values hm hvalues => ?_⟩
  exact (tracks_of_compile (p := p) h ht hm hvalues).accessesReserved_iff

end AnyDistance

theorem accesses_reserved_of_countdown :
    ∃ a, compile Assembly (.ofText countdown) = .ok a ∧ Machine.blank.AtEntry a.text.toList ∧
      AccessesReserved .plain a.text.toList .blank := by
  obtain ⟨a, h⟩ := exists_compile_countdown
  have hentry := atEntry_blank h
  refine ⟨a, h, hentry, ?_⟩
  refine ((compile_accesses_reserved_iff countdown a h).2 countdownTree countdownTree_parsesText
    .plain .blank (fun _ => 0) hentry fun _ _ _ => rfl).mpr ?_
  intro c x slot hc hx hslot
  let next := Activity.next Platform.plain.quotient
  let start := countdownTree.start fun _ => 0
  have hcheck : ∀ k < 7, ∀ x ∈ (after next k start).uses,
      (slot? countdownTree.declared x).all (· ≤ (after next k start).store.declarations) := by
    decide +kernel
  have hstop : (after next 6 start).todo = [] := by decide +kernel
  obtain ⟨k, hk, rfl⟩ := hc.exists_after (Activity.next_eq_none.mpr hstop)
  have hle := hcheck k (Nat.lt_succ_of_le hk) x hx
  rw [hslot] at hle
  exact of_decide_eq_true hle

/-! ## A declaration that is skipped -/

def skippedDeclaration : String :=
  "if 1 = 2 then variable x; x := 3; print 5; print x"

def skippedDeclarationTree : Sequence :=
  let number (digits : String) : Expression := .single (.single (.number digits))
  .more (.ifThen ⟨number "1", .equal, number "2"⟩ (.declare "x")) <|
  .more (.assign "x" (number "3")) <|
  .more (.print (number "5")) <|
  .last (.print (.single (.single (.var "x"))))

theorem skippedDeclarationTree_parsesText :
    skippedDeclarationTree.ParsesText skippedDeclaration := by
  let body := ((Lexer.lexemes (.ofText skippedDeclaration)).filterMap Except.toOption).dropLast
  have hlexemes : Lexer.lexemes (.ofText skippedDeclaration) =
      (body ++ [Lexeme.atEnd ⟨1, 51⟩]).map .ok := by decide +kernel
  have hspelling : skippedDeclarationTree.tokens = body.map Lexeme.token := by decide +kernel
  refine ⟨body, _, hlexemes, rfl, hspelling, ?_⟩
  simp [skippedDeclarationTree, Sequence.Resolved, Statement.Resolved, Condition.Resolved,
    Expression.Resolved, Term.Resolved, Factor.Resolved]

/-- The machine writes to a slot that has not been reserved and lies below the stack pointer. -/
theorem skipped_declaration_not_reserved :
    ∃ a m', compile Assembly (.ofText skippedDeclaration) = .ok a ∧
      Machine.blank.AtEntry a.text.toList ∧
      Attains (Machine.next .plain a.text.toList) .blank m' ∧ m'.Accesses a.text.toList 1 ∧
      m'.reserved = 0 ∧ m'.fp + frameOffset 1 < m'.sp := by
  obtain ⟨a, h⟩ := exists_compile_of_isOk skippedDeclaration (by decide +kernel)
  have hentry := atEntry_blank h
  have htracks : Tracks .plain a.text.toList a.data.toList skippedDeclarationTree (fun _ => 0)
      .blank := tracks_of_compile h skippedDeclarationTree_parsesText hentry fun _ _ _ => rfl
  -- The condition does not hold, so the assignment comes first.
  let c := after (Activity.next Platform.plain.quotient) 1
    (skippedDeclarationTree.start fun _ => 0)
  have hx : "x" ∈ c.uses := by decide +kernel
  have hdeclarations : c.store.declarations = 0 := by decide +kernel
  obtain ⟨m', hm', haccess, hreserved⟩ := htracks.exists_access (.after _ 1 _) hx rfl
  rw [hdeclarations] at hreserved
  obtain ⟨-, -, -, -, hsp⟩ := (htracks.explained m' hm').accesses 1 haccess
  rw [hreserved] at hsp
  refine ⟨a, m', h, hentry, hm', haccess, hreserved, ?_⟩
  rw [hsp, frameOffset]
  omega

end OnePass
