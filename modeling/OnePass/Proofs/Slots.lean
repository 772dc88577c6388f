import OnePass.Proofs.Blame
import OnePass.Proofs.Clients
import OnePass.Proofs.Declarations

/-! # Stack slots

A variable has its slot from its declaration on. Slots are given out in the order of the
declarations, counted from one, so they are as many as the declarations and no two variables share
one. Adding symbols, giving them registers and using their places again changes nothing of this, as
long as the places belong to no variable.
-/
namespace OnePass

variable {distance : String → String → Nat} [NameDistance distance]

namespace SymbolTable

variable {table table' table'' : SymbolTable} {id : SymbolId} {site : Position} {slot : Nat}

/-! ## Slots and declarations -/

/-- The slots are the numbers from one to the number of declarations, and one symbol holds each. -/
structure Dense (table : SymbolTable) : Prop where
  range : ∀ id slot, (table.symbol id).slot? = some slot → 1 ≤ slot ∧ slot ≤ table.declared
  holder : ∀ slot, 1 ≤ slot → slot ≤ table.declared → ∃! id, (table.symbol id).slot? = some slot

theorem dense_empty : Dense {} where
  range id slot h := by cases h
  holder slot hpositive hle := absurd (Nat.le_trans hpositive hle) (Nat.not_succ_le_zero 0)

def Retains (table table' : SymbolTable) : Prop :=
  ∀ id d, (table.symbol id).declaration = some d → (table'.symbol id).declaration = some d

theorem Retains.refl (table : SymbolTable) : table.Retains table :=
  fun _ _ h => h

theorem Retains.trans (h : table.Retains table') (h' : table'.Retains table'') :
    table.Retains table'' :=
  fun id d hd => h' id d (h id d hd)

structure SameDeclarations (table table' : SymbolTable) : Prop where
  declaration : ∀ id, (table'.symbol id).declaration = (table.symbol id).declaration
  declared : table'.declared = table.declared

namespace SameDeclarations

theorem refl (table : SymbolTable) : table.SameDeclarations table :=
  ⟨fun _ => rfl, rfl⟩

theorem trans (h : table.SameDeclarations table') (h' : table'.SameDeclarations table'') :
    table.SameDeclarations table'' :=
  ⟨fun id => (h'.declaration id).trans (h.declaration id), h'.declared.trans h.declared⟩

theorem retains (h : table.SameDeclarations table') : table.Retains table' :=
  fun id _ hd => (h.declaration id).trans hd

theorem dense (h : table.SameDeclarations table') (hd : table.Dense) : table'.Dense := by
  have hslot : ∀ id, (table'.symbol id).slot? = (table.symbol id).slot? := by
    intro id
    rw [Symbol.slot?, h.declaration, Symbol.slot?]
  constructor
  · intro id slot hslot'
    rw [h.declared]
    exact hd.range id slot ((hslot id).symm.trans hslot')
  · intro slot hpositive hle
    simp only [hslot]
    exact hd.holder slot hpositive (h.declared ▸ hle)

end SameDeclarations

/-! ## Operations that declare nothing -/

theorem sameDeclarations_add (ht : table.Tidy) {s : Symbol} (hs : s.declaration = none) :
    table.SameDeclarations (table.add s).2 := by
  have hadded := added_add ht s
  refine ⟨fun id => ?_, hadded.declared⟩
  rw [hadded.symbol]
  split_ifs with hid
  · rw [hid, hadded.empty ht, hs]
  · rfl

theorem sameDeclarations_reference (ht : table.Tidy) (l : Lexeme) :
    table.SameDeclarations (table.reference l).2 := by
  unfold reference
  split
  · exact .refl table
  · have hadd : table.SameDeclarations (table.add { lexeme := some l }).2 :=
      sameDeclarations_add ht rfl
    exact ⟨hadd.declaration, hadd.declared⟩

theorem sameDeclarations_setRegister (table : SymbolTable) (id : SymbolId) (r : Option Register) :
    table.SameDeclarations (table.setRegister id r) := by
  refine ⟨fun j => ?_, rfl⟩
  rcases table.symbol_setRegister_cases id r j with hj | ⟨-, hj⟩ <;> rw [hj]

theorem sameDeclarations_forgetRegisters (table : SymbolTable) (ids : List SymbolId) :
    table.SameDeclarations (table.forgetRegisters ids) :=
  List.foldlRecOn _ _ (.refl _) fun _ h id _ => h.trans (sameDeclarations_setRegister _ id _)

/-! ## Declarations -/

structure Declares (table : SymbolTable) (id : SymbolId) (site : Position) (table' : SymbolTable) :
    Prop where
  undeclared : (table.symbol id).declaration = none
  declared : table'.declared = table.declared + 1
  declaration : ∀ j, (table'.symbol j).declaration =
    if j = id then some ⟨table.declared + 1, site⟩ else (table.symbol j).declaration

theorem declares_of_declare (hc : table.Contains id)
    (h : table.declare id site = .ok (slot, table')) :
    slot = table.declared + 1 ∧ table.Declares id site table' := by
  unfold declare at h
  split at h
  · cases h
  · next hnone =>
    cases h
    refine ⟨rfl, hnone, rfl, fun j => ?_⟩
    refine (congrArg Symbol.declaration (symbol_update hc _ j)).trans ?_
    split_ifs <;> rfl

namespace Declares

theorem retains (h : table.Declares id site table') : table.Retains table' := by
  intro j d hd
  rw [h.declaration, if_neg, hd]
  rintro rfl
  rw [h.undeclared] at hd
  cases hd

theorem slot? (h : table.Declares id site table') (j : SymbolId) : (table'.symbol j).slot? =
    if j = id then some (table.declared + 1) else (table.symbol j).slot? := by
  rw [Symbol.slot?, h.declaration]
  split_ifs <;> rfl

/-- The new slot is behind all others. -/
theorem dense (h : table.Declares id site table') (hd : table.Dense) : table'.Dense := by
  constructor
  · intro j slot hslot
    rw [h.slot?] at hslot
    rw [h.declared]
    split_ifs at hslot
    · cases hslot
      omega
    · have hrange := hd.range j slot hslot
      omega
  · intro slot hpositive hle
    rw [h.declared] at hle
    by_cases hnew : slot = table.declared + 1
    · refine ⟨id, ?_, fun j hj => ?_⟩
      · simp only [h.slot?, if_pos, hnew]
      · simp only [h.slot?] at hj
        by_contra hne
        rw [if_neg hne] at hj
        have hrange := hd.range j slot hj
        omega
    · obtain ⟨j, hj, hunique⟩ := hd.holder slot hpositive (by omega)
      have hne : j ≠ id := by
        rintro rfl
        simp [Symbol.slot?, h.undeclared] at hj
      refine ⟨j, ?_, fun k hk => ?_⟩
      · simp only [h.slot?, if_neg hne]
        exact hj
      · simp only [h.slot?] at hk
        split_ifs at hk
        · exact absurd (Option.some.inj hk).symm hnew
        · exact hunique k hk

end Declares

/-- Declares the symbol with the effects in their order. An effect is not undone. -/
def declaring (id : SymbolId) (site : Position) : EStateM Position SymbolTable Nat := do
  match ((← get).symbol id).declaration with
  | some earlier => throw earlier.site
  | none =>
    modify fun table => { table with declared := table.declared + 1 }
    let slot := (← get).declared
    modify fun table => table.update id fun s => { s with declaration := some ⟨slot, site⟩ }
    return slot

/-- No effect comes before a refusal. -/
theorem declaring_eq (table : SymbolTable) (id : SymbolId) (site : Position) :
    declaring id site table =
      match table.declare id site with
      | .ok (slot, table') => .ok slot table'
      | .error earlier => .error earlier table := by
  have hget : declaring id site table = (match (table.symbol id).declaration with
      | some earlier => throw earlier.site
      | none => do
        modify fun table => { table with declared := table.declared + 1 }
        let slot := (← get).declared
        modify fun table => table.update id fun s => { s with declaration := some ⟨slot, site⟩ }
        return slot : EStateM Position SymbolTable Nat) table := rfl
  rw [hget, declare]
  cases (table.symbol id).declaration <;> rfl

/-- What the table answers when a symbol is to be declared, where `first` is where symbols have been
declared for the first time. A symbol that has not been declared gets the next slot. Another one is
refused with the site of its first declaration, and nothing changes. -/
structure Answers (table : SymbolTable) (first : SymbolId → Option Position) : Prop where
  accepted : ∀ id site, table.Contains id →
    ((∃ slot table', table.declare id site = .ok (slot, table')) ↔ first id = none)
  assigned : ∀ id site slot table', table.Contains id →
    table.declare id site = .ok (slot, table') →
    slot = table.declared + 1 ∧ table'.declared = slot ∧
      (table'.symbol id).declaration = some ⟨slot, site⟩
  refused : ∀ id site earlier, table.Contains id →
    (table.declare id site = .error earlier ↔ first id = some earlier)
  unchanged : ∀ id site earlier table', declaring id site table = .error earlier table' ↔
    table.declare id site = .error earlier ∧ table' = table

def site? (table : SymbolTable) (id : SymbolId) : Option Position :=
  (table.symbol id).declaration.map Declaration.site

theorem SameDeclarations.site? (h : table.SameDeclarations table') (id : SymbolId) :
    table'.site? id = table.site? id := by
  rw [SymbolTable.site?, h.declaration, SymbolTable.site?]

theorem Declares.site? (h : table.Declares id site table') (j : SymbolId) :
    table'.site? j = if j = id then some site else table.site? j := by
  rw [SymbolTable.site?, h.declaration]
  split_ifs <;> rfl

/-- The sites that the table records are all that its answers rest on. -/
theorem answers_of_site? {first : SymbolId → Option Position}
    (h : ∀ id, table.site? id = first id) : table.Answers first where
  accepted id site _ := by
    rw [← h, site?, declare]
    cases (table.symbol id).declaration <;> simp
  assigned id site slot table' hc hd := by
    obtain ⟨rfl, hdeclares⟩ := declares_of_declare hc hd
    refine ⟨rfl, hdeclares.declared, ?_⟩
    rw [hdeclares.declaration, if_pos rfl]
  refused id site earlier _ := by
    rw [← h, site?, declare]
    cases (table.symbol id).declaration <;> simp
  unchanged id site earlier table' := by
    rw [declaring_eq]
    cases table.declare id site <;> simp [eq_comm]

end SymbolTable

/-! ## Slots of a client -/

def Request.declaration? : Request → Option (SymbolId × Position)
  | declare id site => some (id, site)
  | _ => none

def firstSite (requests : List Request) (id : SymbolId) : Option Position :=
  (requests.filterMap Request.declaration?).lookup id

theorem firstSite_concat_of_none (made : List Request) {q : Request} (h : q.declaration? = none)
    (id : SymbolId) : firstSite (made ++ [q]) id = firstSite made id := by
  simp [firstSite, h]

theorem firstSite_concat_declare (made : List Request) (id j : SymbolId) (site : Position) :
    firstSite (made ++ [.declare id site]) j =
      (firstSite made j).or (if j = id then some site else none) := by
  rw [firstSite, List.filterMap_append, List.lookup_append, firstSite]
  congr 1
  by_cases hj : j = id
  · simp [Request.declaration?, hj]
  · simp [Request.declaration?, List.lookup_cons, hj, beq_eq_false_iff_ne.mpr hj]

namespace Client

open SymbolTable (SameDeclarations sameDeclarations_add sameDeclarations_reference
  sameDeclarations_setRegister sameDeclarations_forgetRegisters)

variable {c c' : Client} {q : Request} {made requests : List Request}

/-- Only a request to declare makes a declaration. -/
theorem sameDeclarations_next (h : c.Consistent) (hq : c.Enabled q)
    (hd : q.declaration? = none) :
    c.workspace.symbols.SameDeclarations (c.next q).workspace.symbols := by
  cases q with
  | reference lexeme => exact sameDeclarations_reference h.tidy lexeme
  | literal lexeme => exact sameDeclarations_add h.tidy rfl
  | anonymous => exact sameDeclarations_add h.tidy rfl
  | declare id site => cases hd
  | acquire id position =>
    rw [next, Workspace.acquiring_eq]
    cases hacquire : c.workspace.acquire id position with
    | error d => exact .refl _
    | ok answer =>
      obtain ⟨r, w⟩ := answer
      rcases Workspace.acquire_ok (h.given id (hq id rfl)) hacquire with ⟨-, rfl⟩ | ⟨-, ha⟩
      · exact .refl _
      · refine ⟨fun j => ?_, ha.declared⟩
        change (w.symbols.symbol j).declaration = _
        rw [ha.symbol]
        split_ifs with hj
        · rw [hj]
        · rfl
  | release id => exact sameDeclarations_setRegister _ id none
  | releaseAll => exact sameDeclarations_forgetRegisters _ _
  | moveTo | emit | openLabel | closeLabel | intern => exact .refl _

structure Numbered (c : Client) (made : List Request) : Prop where
  consistent : c.Consistent
  dense : c.workspace.symbols.Dense
  sites : ∀ id, c.workspace.symbols.site? id = firstSite made id

theorem numbered_initial : Numbered {} [] :=
  ⟨.initial, SymbolTable.dense_empty, fun _ => rfl⟩

namespace Numbered

theorem declare (h : c.Numbered made) {id : SymbolId} {site : Position}
    (hq : c.Enabled (.declare id site)) :
    (c.next (.declare id site)).Numbered (made ++ [.declare id site]) ∧
      c.workspace.symbols.Retains (c.next (.declare id site)).workspace.symbols := by
  have hconsistent := h.consistent.next _ hq
  have hsite := h.sites id
  rw [next] at hconsistent ⊢
  cases hd : c.workspace.symbols.declare id site with
  | error earlier =>
    -- Only the first site counts, so the request adds nothing to what the table has to record.
    have hfirst := ((SymbolTable.answers_of_site? h.sites).refused id site earlier
      (h.consistent.given id (hq id rfl))).mp hd
    refine ⟨⟨h.consistent, h.dense, fun j => ?_⟩, .refl _⟩
    change c.workspace.symbols.site? j = _
    rw [firstSite_concat_declare, h.sites]
    split_ifs with hj
    · rw [hj, hfirst]
      rfl
    · rw [Option.or_none]
  | ok answer =>
    obtain ⟨slot, table⟩ := answer
    rw [hd] at hconsistent
    obtain ⟨-, hdeclares⟩ := SymbolTable.declares_of_declare (h.consistent.given id (hq id rfl)) hd
    refine ⟨⟨hconsistent, hdeclares.dense h.dense, fun j => ?_⟩, hdeclares.retains⟩
    refine (hdeclares.site? j).trans ?_
    rw [firstSite_concat_declare, ← h.sites]
    split_ifs with hj
    · rw [hj, SymbolTable.site?, hdeclares.undeclared]
      rfl
    · rw [Option.or_none]

theorem next (h : c.Numbered made) (hq : c.Enabled q) :
    (c.next q).Numbered (made ++ [q]) ∧
      c.workspace.symbols.Retains (c.next q).workspace.symbols := by
  cases hd : q.declaration? with
  | none =>
    have hsame := sameDeclarations_next h.consistent hq hd
    refine ⟨⟨h.consistent.next q hq, hsame.dense h.dense, fun id => ?_⟩, hsame.retains⟩
    rw [hsame.site?, h.sites, firstSite_concat_of_none made hd]
  | some entry =>
    cases q with
    | declare id site => exact h.declare hq
    | _ => cases hd

theorem serve (h : c.Numbered made) (hs : c.serve requests = some c') :
    c'.Numbered (made ++ requests) ∧ c.workspace.symbols.Retains c'.workspace.symbols := by
  induction requests generalizing c made with
  | nil =>
    cases hs
    exact ⟨by simpa using h, .refl _⟩
  | cons q rest ih =>
    rw [Client.serve] at hs
    split_ifs at hs with hq
    obtain ⟨hnext, hretains⟩ := h.next hq
    obtain ⟨hrest, hretains'⟩ := ih hnext hs
    rw [List.append_assoc, List.singleton_append] at hrest
    exact ⟨hrest, hretains.trans hretains'⟩

end Numbered

end Client

end OnePass
