import OnePass.Proofs.Acquisition
import OnePass.Proofs.Recycling

/-! # Clients of a workspace

Symbols, registers and lines serve any client, not only a compilation. A client makes requests in
any order, and it names only symbols that it was given. Which register holds which symbol is
recorded in the bank and in the symbols; whatever is requested, granted or refused, the two records
stay the same.
-/
namespace OnePass

section AnyDistance

variable {distance : String → String → Nat} [NameDistance distance]

/-! ## Requests -/

inductive Request where
  | reference (lexeme : Lexeme)
  | literal (lexeme : Lexeme)
  | anonymous
  | declare (id : SymbolId) (site : Position)
  | acquire (id : SymbolId) (position : Position)
  | release (id : SymbolId)
  | releaseAll
  | moveTo (position : Position)
  | emit (segment : Segment) (line : Line)
  | openLabel
  | closeLabel
  | intern (literal : String)
  deriving DecidableEq, Repr

def Request.symbol? : Request → Option SymbolId
  | declare id _ | acquire id _ | release id => some id
  | _ => none

structure Client where
  workspace : Workspace := {}
  /-- The symbols that the client was given, the latest first. -/
  given : List SymbolId := []
  deriving DecidableEq, Repr

namespace Client

/-- A client asks only about symbols that it was given. -/
def Enabled (c : Client) (q : Request) : Prop :=
  ∀ id ∈ q.symbol?, id ∈ c.given

instance (c : Client) (q : Request) : Decidable (c.Enabled q) :=
  inferInstanceAs (Decidable (∀ id ∈ q.symbol?, id ∈ c.given))

def receive (c : Client) (answer : SymbolId × SymbolTable) : Client :=
  { workspace := { c.workspace with symbols := answer.2 }, given := answer.1 :: c.given }

def withEmitter (c : Client) (emitter : Emitter) : Client :=
  { c with workspace := { c.workspace with emitter } }

/-- The client after a request. What an acquisition has done before it fails is not undone. -/
def next (c : Client) : Request → Client
  | .reference lexeme => c.receive (c.workspace.symbols.reference lexeme)
  | .literal lexeme => c.receive (c.workspace.symbols.literal lexeme)
  | .anonymous => c.receive c.workspace.symbols.anonymous
  | .declare id site =>
    match c.workspace.symbols.declare id site with
    | .ok (_, symbols) => { c with workspace := { c.workspace with symbols } }
    | .error _ => c
  | .acquire id position =>
    match Workspace.acquiring id position c.workspace with
    | .ok _ workspace | .error _ workspace => { c with workspace }
  | .release id => { c with workspace := c.workspace.release id }
  | .releaseAll => { c with workspace := c.workspace.releaseAll }
  | .moveTo position => c.withEmitter (c.workspace.emitter.moveTo position)
  | .emit segment line => c.withEmitter (c.workspace.emitter.emit segment line)
  | .openLabel => c.withEmitter c.workspace.emitter.openLabel.2
  | .closeLabel => c.withEmitter c.workspace.emitter.closeLabel.2
  | .intern literal => c.withEmitter (c.workspace.emitter.intern literal).2

def serve : Client → List Request → Option Client
  | c, [] => some c
  | c, q :: rest => if c.Enabled q then (c.next q).serve rest else none

theorem serve_keeps {P : Client → Prop} (hnext : ∀ c q, P c → c.Enabled q → P (c.next q))
    {requests : List Request} {c c' : Client} (hc : P c) (h : c.serve requests = some c') :
    P c' := by
  induction requests generalizing c with
  | nil =>
    cases h
    exact hc
  | cons q rest ih =>
    rw [serve] at h
    split_ifs at h with hq
    exact ih (hnext c q hc hq) h

end Client

/-! ## Registers and their holders -/

namespace RegisterBank

variable {α : Type} {bank : RegisterBank α}

theorem held_eq (bank : RegisterBank α) : bank.held = Register.all.filterMap bank.holder := by
  have hholders : bank.holders.toList = Register.all.map bank.holder := by
    apply List.ext_getElem
    · simp [Register.all]
    · intro i hi _
      simp [Register.all, holder]
  rw [held, hholders, List.filterMap_map]
  rfl

theorem mem_held {a : α} : a ∈ bank.held ↔ ∃ r, bank.holder r = some a := by
  rw [held_eq, List.mem_filterMap]
  exact ⟨fun ⟨r, _, hr⟩ => ⟨r, hr⟩, fun ⟨r, hr⟩ => ⟨r, r.mem_all, hr⟩⟩

theorem nodup_held (h : ∀ q r a, bank.holder q = some a → bank.holder r = some a → q = r) :
    bank.held.Nodup := by
  have hall : Register.all.Nodup := by decide
  rw [held_eq]
  refine List.Pairwise.filterMap _ (fun q r hne a ha b hb hab => ?_) hall
  exact hne (h q r a ha (hab ▸ hb))

end RegisterBank

/-! ## Symbols and their registers -/

namespace SymbolTable

variable {table table' table'' : SymbolTable} {id : SymbolId}

theorem length_filter_places (table : SymbolTable) (p : Symbol → Bool) :
    (table.places.filter fun id => p (table.symbol id)).length = table.symbols.countP p := by
  have hsymbols : table.symbols.toList = table.places.map table.symbol := by
    apply List.ext_getElem
    · simp [places]
    · intro i hi _
      simp [places, symbol] at hi ⊢
      simp [hi]
  rw [← Array.countP_toList, hsymbols, List.countP_map, List.countP_eq_length_filter]
  rfl

/-- The tables have the same places, of which the same are free, and the same names. -/
structure Alike (table table' : SymbolTable) : Prop where
  size : table'.symbols.size = table.symbols.size
  names : table'.names = table.names
  free : table'.free = table.free

theorem Alike.refl (table : SymbolTable) : table.Alike table :=
  ⟨rfl, rfl, rfl⟩

theorem Alike.trans (h : table.Alike table') (h' : table'.Alike table'') : table.Alike table'' :=
  ⟨h'.size.trans h.size, h'.names.trans h.names, h'.free.trans h.free⟩

theorem alike_update (table : SymbolTable) (id : SymbolId) (change : Symbol → Symbol) :
    table.Alike (table.update id change) :=
  ⟨Array.size_modify .., rfl, rfl⟩

theorem symbol_forgetRegister (table : SymbolTable) (id j : SymbolId) :
    (table.setRegister id none).symbol j =
      if j = id then { table.symbol j with register := none } else table.symbol j := by
  by_cases hc : table.Contains id
  · rw [Coherent.symbol_setRegister hc]
    split_ifs with hj
    · rw [hj]
    · rfl
  · rw [setRegister, update_of_not_contains hc]
    split_ifs with hj
    · rw [hj, symbol_of_not_contains hc]
    · rfl

def forgetRegisters (table : SymbolTable) (ids : List SymbolId) : SymbolTable :=
  ids.foldl (fun table id => table.setRegister id none) table

theorem alike_forgetRegisters (table : SymbolTable) (ids : List SymbolId) :
    table.Alike (table.forgetRegisters ids) :=
  List.foldlRecOn _ _ (.refl _) fun _ h id _ => h.trans (alike_update _ id _)

theorem symbol_forgetRegisters (table : SymbolTable) (ids : List SymbolId) (j : SymbolId) :
    (table.forgetRegisters ids).symbol j =
      if j ∈ ids then { table.symbol j with register := none } else table.symbol j := by
  induction ids generalizing table with
  | nil => rfl
  | cons id ids ih =>
    have hcons : table.forgetRegisters (id :: ids) =
        (table.setRegister id none).forgetRegisters ids := rfl
    rw [hcons, ih, symbol_forgetRegister]
    by_cases hj : j = id <;> by_cases hm : j ∈ ids <;> simp [hj, hm]

end SymbolTable

/-! ## The two records -/

open SymbolTable (symbol_forgetRegister symbol_forgetRegisters)

variable {c : Client} {w w' : Workspace}

theorem Workspace.symbols_releaseAll (w : Workspace) :
    w.releaseAll.symbols = w.symbols.forgetRegisters w.registers.held :=
  rfl

/-- The bank holds the symbols that have registers, each of them in its own. -/
def Workspace.Matched (w : Workspace) : Prop :=
  ∀ id r, (w.symbols.symbol id).register = some r ↔ w.registers.holder r = some id

namespace Workspace.Matched

theorem of_register_eq (h : w.Matched) (hr : w'.registers = w.registers)
    (hs : ∀ id, (w'.symbols.symbol id).register = (w.symbols.symbol id).register) :
    w'.Matched := by
  intro id r
  rw [hs, hr]
  exact h id r

theorem acquired {id : SymbolId} {r : Register} (h : w.Matched)
    (hnone : (w.symbols.symbol id).register = none) (ha : w.Acquired id r w') : w'.Matched := by
  intro j q
  have hj := h j q
  have hid := h id q
  have hfree := ha.free
  rw [ha.symbol, ha.holder]
  grind

theorem release (h : w.Matched) (id : SymbolId) : (w.release id).Matched := by
  intro j r
  have hj := h j r
  rw [Workspace.release, symbol_forgetRegister, RegisterBank.holder_release]
  grind

/-- The symbols that the bank holds are all that have registers. -/
theorem releaseAll (h : w.Matched) : w.releaseAll.Matched := by
  intro j r
  have hempty : w.releaseAll.registers.holder r = none := RegisterBank.holder_empty r
  rw [symbols_releaseAll, symbol_forgetRegisters, hempty]
  split_ifs with hj
  · simp
  · refine iff_of_false (fun hr => hj ?_) (by simp)
    exact RegisterBank.mem_held.mpr ⟨r, (h j r).mp hr⟩

end Workspace.Matched

namespace Client

structure Consistent (c : Client) : Prop where
  unfreed : c.workspace.symbols.free = []
  given : ∀ id ∈ c.given, c.workspace.symbols.Contains id
  named : ∀ x id, c.workspace.symbols.lookup x = some id → c.workspace.symbols.Contains id
  matched : c.workspace.Matched

namespace Consistent

theorem initial : Consistent {} where
  unfreed := rfl
  given := by simp
  named := by simp [SymbolTable.lookup]
  matched := by simp [Workspace.Matched, SymbolTable.symbol]

theorem tidy (h : c.Consistent) : c.workspace.symbols.Tidy :=
  ⟨by simp [h.unfreed], by simp [h.unfreed], by simp [h.unfreed]⟩

/-- A request that changes neither places nor names keeps what holds if the records still match. -/
theorem alike (h : c.Consistent) (ha : c.workspace.symbols.Alike w'.symbols) (hm : w'.Matched) :
    Consistent { c with workspace := w' } where
  unfreed := ha.free.trans h.unfreed
  given id hid := by
    rw [SymbolTable.Contains, ha.size]
    exact h.given id hid
  named x id hx := by
    rw [SymbolTable.lookup, ha.names] at hx
    rw [SymbolTable.Contains, ha.size]
    exact h.named x id hx
  matched := hm

theorem withEmitter (h : c.Consistent) (emitter : Emitter) : (c.withEmitter emitter).Consistent :=
  h.alike (.refl _) h.matched

/-- A new symbol stands at a new place and has no register. -/
theorem added (h : c.Consistent) {s : Symbol} (hs : s.register = none) :
    (c.receive (c.workspace.symbols.add s)).Consistent := by
  have ha := SymbolTable.added_add h.tidy s
  have hempty := ha.empty h.tidy
  exact
    { unfreed := List.suffix_nil.mp (h.unfreed ▸ ha.free)
      given := List.forall_mem_cons.mpr ⟨(ha.contains _).mpr (.inl rfl),
        fun id hid => (ha.contains id).mpr (.inr (h.given id hid))⟩
      named := fun x id hx => by
        have hnames : (c.workspace.symbols.add s).2.lookup x = some id := hx
        rw [SymbolTable.lookup, ha.names] at hnames
        exact (ha.contains id).mpr (.inr (h.named x id hnames))
      matched := h.matched.of_register_eq rfl fun id => by
        refine (congrArg Symbol.register (ha.symbol id)).trans ?_
        split_ifs with hid
        · rw [hid, hempty, hs]
        · rfl }

theorem reference (h : c.Consistent) (lexeme : Lexeme) :
    (c.receive (c.workspace.symbols.reference lexeme)).Consistent := by
  unfold SymbolTable.reference
  split
  · next id hid => exact { h with given := List.forall_mem_cons.mpr ⟨h.named _ _ hid, h.given⟩ }
  · have hadded := h.added (s := { lexeme := some lexeme }) rfl
    refine { hadded with named := fun x id hx => ?_ }
    have hlookup := (Coherent.lookup_cons _ _ _ _).symm.trans hx
    split_ifs at hlookup
    · obtain rfl := Option.some.inj hlookup
      exact hadded.given _ List.mem_cons_self
    · exact hadded.named x id hlookup

theorem next (h : c.Consistent) (q : Request) (hq : c.Enabled q) : (c.next q).Consistent := by
  cases q with
  | reference lexeme => exact h.reference lexeme
  | literal lexeme => exact h.added rfl
  | anonymous => exact h.added rfl
  | declare id site =>
    have hc := h.given id (hq id rfl)
    rw [Client.next, SymbolTable.declare]
    cases (c.workspace.symbols.symbol id).declaration with
    | some earlier => exact h
    | none =>
      refine h.alike ⟨Array.size_modify .., rfl, rfl⟩ (h.matched.of_register_eq rfl fun j => ?_)
      exact SymbolTable.symbol_update_same Symbol.register hc rfl j
  | acquire id position =>
    have hc := h.given id (hq id rfl)
    rw [Client.next, Workspace.acquiring_eq]
    cases hacquire : c.workspace.acquire id position with
    | error d => exact h
    | ok answer =>
      obtain ⟨r, w'⟩ := answer
      rcases Workspace.acquire_ok hc hacquire with ⟨-, rfl⟩ | ⟨hnone, ha⟩
      · exact h
      · exact h.alike ⟨ha.size, ha.names, ha.places⟩ (h.matched.acquired hnone ha)
  | release id => exact h.alike (SymbolTable.alike_update _ id _) (h.matched.release id)
  | releaseAll => exact h.alike (SymbolTable.alike_forgetRegisters _ _) h.matched.releaseAll
  | moveTo | emit | openLabel | closeLabel | intern => exact h.withEmitter _

end Consistent

theorem consistent_of_serve {requests : List Request} (h : serve {} requests = some c) :
    c.Consistent :=
  serve_keeps (fun _ q hc hq => hc.next q hq) .initial h

end Client

/-! ## What both records say -/

theorem Workspace.Matched.occupied (h : w.Matched) :
    w.registers.occupied = w.symbols.symbols.countP fun s => s.register.isSome := by
  have hheld : w.registers.held.Nodup := RegisterBank.nodup_held fun q r id hq hr =>
    Option.some.inj (((h id q).mpr hq).symm.trans ((h id r).mpr hr))
  have hperm : w.registers.held.Perm
      (w.symbols.places.filter fun id => (w.symbols.symbol id).register.isSome) := by
    rw [List.perm_ext_iff_of_nodup hheld (SymbolTable.nodup_places.filter _)]
    intro id
    rw [RegisterBank.mem_held, List.mem_filter, SymbolTable.mem_places, Option.isSome_iff_exists]
    constructor
    · rintro ⟨r, hr⟩
      have hid := (h id r).mpr hr
      refine ⟨?_, r, hid⟩
      by_contra hc
      simp [SymbolTable.symbol_of_not_contains hc] at hid
    · rintro ⟨-, r, hid⟩
      exact ⟨r, (h id r).mp hid⟩
  rw [RegisterBank.occupied, hperm.length_eq,
    SymbolTable.length_filter_places _ fun s => s.register.isSome]

/-- Whatever is requested, a register holds a symbol if and only if the symbol has the register. So
no symbol stands in two registers, no two symbols share one, and the registers taken are as many as
the symbols that have one. -/
theorem registers_agree_after_requests {requests : List Request} {c : Client}
    (h : Client.serve {} requests = some c) :
    (∀ id r, c.workspace.registers.holder r = some id ↔
      (c.workspace.symbols.symbol id).register = some r) ∧
    (∀ id q r, c.workspace.registers.holder q = some id →
      c.workspace.registers.holder r = some id → q = r) ∧
    (∀ id j r, (c.workspace.symbols.symbol id).register = some r →
      (c.workspace.symbols.symbol j).register = some r → id = j) ∧
    c.workspace.registers.occupied =
      c.workspace.symbols.symbols.countP fun s => s.register.isSome := by
  have hm := (Client.consistent_of_serve h).matched
  refine ⟨fun id r => (hm id r).symm, fun id q r hq hr => ?_, fun id j r hid hj => ?_, hm.occupied⟩
  · exact Option.some.inj (((hm id q).mpr hq).symm.trans ((hm id r).mpr hr))
  · exact Option.some.inj (((hm id r).mp hid).symm.trans ((hm j r).mp hj))

end AnyDistance

/-- A symbol is refused, acquired twice and released without a register. -/
theorem registers_agree_after_refusal : ∃ c,
    Client.serve {} [.reference ⟨"x", .identifier, {}⟩, .acquire ⟨0⟩ {},
      .literal ⟨"7", .number, {}⟩, .release ⟨1⟩, .acquire ⟨1⟩ {}, .acquire ⟨1⟩ {},
      .declare ⟨0⟩ {}, .acquire ⟨0⟩ {}, .release ⟨1⟩] = some c ∧
    c.workspace.registers.holder ⟨1⟩ = some ⟨0⟩ ∧
    (c.workspace.symbols.symbol ⟨0⟩).register = some ⟨1⟩ ∧
    c.workspace.symbols.symbols.countP (fun s => s.register.isSome) = 1 := by
  have hserve : ((Client.serve {} [.reference ⟨"x", .identifier, {}⟩, .acquire ⟨0⟩ {},
      .literal ⟨"7", .number, {}⟩, .release ⟨1⟩, .acquire ⟨1⟩ {}, .acquire ⟨1⟩ {},
      .declare ⟨0⟩ {}, .acquire ⟨0⟩ {}, .release ⟨1⟩]).map fun c =>
        (c.workspace.registers.holder ⟨1⟩, c.workspace.registers.occupied)) =
      some (some ⟨0⟩, 1) := by decide +kernel
  obtain ⟨c, hc, he⟩ := Option.map_eq_some_iff.mp hserve
  obtain ⟨hholder, hoccupied⟩ := Prod.mk.inj he
  have hagree := registers_agree_after_requests hc
  exact ⟨c, hc, hholder, (hagree.1 _ _).mp hholder, hagree.2.2.2.symm.trans hoccupied⟩

/-- An acquisition fails if and only if it is refused, and then nothing has changed. Otherwise the
symbol keeps its register and nothing has changed, or it has got the lowest free register with its
load and nothing else has changed. -/
theorem acquire_all_or_nothing {distance : String → String → Nat} [NameDistance distance]
    {requests : List Request} {c : Client}
    (h : Client.serve {} requests = some c) {id : SymbolId} (hid : id ∈ c.given) (p : Position) :
    (∀ d w', Workspace.acquiring id p c.workspace = .error d w' ↔
      c.workspace.Refuses id p d ∧ w' = c.workspace) ∧
    (∀ r w', Workspace.acquiring id p c.workspace = .ok r w' →
      (c.workspace.symbols.symbol id).register = some r ∧
        c.workspace.registers.holder r = some id ∧ w' = c.workspace ∨
      (c.workspace.symbols.symbol id).register = none ∧ c.workspace.Acquired id r w') ∧
    (∀ d, c.workspace.acquire id p = .error d ↔ c.workspace.Refuses id p d) ∧
    ∀ r w', c.workspace.acquire id p = .ok (r, w') ↔
      Workspace.acquiring id p c.workspace = .ok r w' := by
  have hconsistent := Client.consistent_of_serve h
  have hok : ∀ r w', c.workspace.acquire id p = .ok (r, w') ↔
      Workspace.acquiring id p c.workspace = .ok r w' := by
    intro r w'
    rw [Workspace.acquiring_eq]
    cases c.workspace.acquire id p <;> simp [Prod.ext_iff]
  refine ⟨fun d w' => ?_, fun r w' hacquiring => ?_, fun d => Workspace.acquire_error, hok⟩
  · rw [← Workspace.acquire_error, Workspace.acquiring_eq]
    cases c.workspace.acquire id p <;> simp [eq_comm]
  · have hacquire := (hok r w').mpr hacquiring
    rcases Workspace.acquire_ok (hconsistent.given id hid) hacquire with ⟨hr, rfl⟩ | hnew
    · exact .inl ⟨hr, (hconsistent.matched id r).mp hr, rfl⟩
    · exact .inr hnew

/-- A string constant is acquired and defined; a variable without a slot is refused. -/
theorem acquire_all_or_nothing_constant : ∃ c w',
    Client.serve {} [.literal ⟨"\"a\"", .stringConst, {}⟩, .reference ⟨"x", .identifier, {}⟩] =
      some c ∧
    Workspace.acquiring ⟨1⟩ {} c.workspace =
      .error (.located (.undefinedVariable "x" none) {}) c.workspace ∧
    Workspace.acquiring ⟨0⟩ {} c.workspace = .ok ⟨0⟩ w' ∧ c.workspace.Acquired ⟨0⟩ ⟨0⟩ w' := by
  have hserve : Client.serve {} [.literal ⟨"\"a\"", .stringConst, {}⟩,
    .reference ⟨"x", .identifier, {}⟩] = some _ := rfl
  refine ⟨_, _, hserve, ?_, rfl, ?_⟩
  · refine ((acquire_all_or_nothing hserve (by decide) _).1 _ _).mpr ⟨?_, rfl⟩
    exact .undefined rfl ⟨⟨0⟩, rfl⟩ ⟨rfl, _, rfl, by decide, by decide⟩
  · have hmem : ⟨0⟩ ∈ [(⟨1⟩ : SymbolId), ⟨0⟩] := by decide
    obtain ⟨hhad, -⟩ | ⟨-, hacquired⟩ := (acquire_all_or_nothing hserve hmem {}).2.1 _ _ rfl
    · cases hhad
    · exact hacquired

end OnePass
