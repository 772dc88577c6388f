import OnePass.Proofs.Acceptance
import OnePass.Proofs.Blame

/-! # Declared variables and the tokens that declare them

The symbol table has a declaration for each variable that the tokens read so far declare, at the
position of the token, and for nothing else. Symbols that are added do not change this, and neither
do actions other than the one that makes declarations.
-/
namespace OnePass

/-! ## Declarations in the order of the tokens -/

def Declaring (read : List Lexeme) : Prop :=
  ∃ word, read.getLast? = some word ∧ word.kind = .variableWord

@[simp] theorem declaring_concat {read : List Lexeme} {l : Lexeme} :
    Declaring (read ++ [l]) ↔ l.kind = .variableWord := by
  simp [Declaring]

theorem not_declaring_nil : ¬ Declaring [] := by
  simp [Declaring]

theorem declaring_cons {x y : Lexeme} {read : List Lexeme} :
    Declaring (x :: y :: read) ↔ Declaring (y :: read) := by
  simp [Declaring, List.getLast?_cons_cons]

theorem declarations_concat_of_declaring {read : List Lexeme} {l : Lexeme} (h : Declaring read)
    (hl : l.kind = .identifier) :
    declarations Lexeme.kind (read ++ [l]) = declarations Lexeme.kind read ++ [l] := by
  induction read with
  | nil => exact absurd h not_declaring_nil
  | cons x read ih =>
    cases read with
    | nil =>
      have hx : x.kind = .variableWord := by simpa [Declaring] using h
      simp [declarations, hx, hl]
    | cons y read =>
      have hrest := ih (declaring_cons.mp h)
      simp only [List.cons_append] at hrest ⊢
      rw [declarations, declarations, hrest]
      split_ifs <;> rfl

theorem declarations_concat_of_not {read : List Lexeme} {l : Lexeme}
    (h : Declaring read → l.kind ≠ .identifier) :
    declarations Lexeme.kind (read ++ [l]) = declarations Lexeme.kind read := by
  induction read with
  | nil => rfl
  | cons x read ih =>
    cases read with
    | nil =>
      have hx : ¬ (x.kind = .variableWord ∧ l.kind = .identifier) :=
        fun hxl => h ⟨x, rfl, hxl.1⟩ hxl.2
      simp [declarations, hx]
    | cons y read =>
      have hrest := ih fun hd => h (declaring_cons.mpr hd)
      simp only [List.cons_append] at hrest ⊢
      rw [declarations, declarations, hrest]

theorem declarations_append {read more : List Lexeme} (h : ¬ Declaring read)
    (hm : ∀ y ∈ more, y.kind ≠ .variableWord) :
    declarations Lexeme.kind (read ++ more) = declarations Lexeme.kind read ∧
      ¬ Declaring (read ++ more) := by
  induction more generalizing read with
  | nil => simpa using h
  | cons y more ih =>
    obtain ⟨hy, hmore⟩ := List.forall_mem_cons.mp hm
    have hread : ¬ Declaring (read ++ [y]) := by simpa using hy
    obtain ⟨hsame, hnot⟩ := ih hread hmore
    rw [declarations_concat_of_not fun hd => absurd hd h] at hsame
    rw [List.append_assoc, List.singleton_append] at hsame hnot
    exact ⟨hsame, hnot⟩

/-! ## What the table records -/

namespace SymbolTable

variable {table table' : SymbolTable} {declared : List Lexeme} {id : SymbolId}

/-- The variables with a declaration are those of the tokens, each declared once and at the position
of its token. -/
structure Records (table : SymbolTable) (declared : List Lexeme) : Prop where
  nodup : (declared.map Lexeme.text).Nodup
  recorded : ∀ l ∈ declared, ∃ id slot, table.lookup l.text = some id ∧
    (table.symbol id).declaration = some ⟨slot, l.position⟩
  origin : ∀ id d, (table.symbol id).declaration = some d →
    ∃ l ∈ declared, table.lookup l.text = some id

theorem records_empty : Records {} [] where
  nodup := List.nodup_nil
  recorded := by simp
  origin := by simp [SymbolTable.symbol]

/-- The declaration of a variable is at the token that declares it. -/
theorem Records.exists_site (h : table.Records declared) {d : Declaration}
    (hd : (table.symbol id).declaration = some d) :
    ∃ l ∈ declared, table.lookup l.text = some id ∧ d.site = l.position := by
  obtain ⟨l, hl, hid⟩ := h.origin id d hd
  obtain ⟨id', slot, hid', hslot⟩ := h.recorded l hl
  obtain rfl : id = id' := Option.some.inj (hid.symm.trans hid')
  rw [hd] at hslot
  cases hslot
  exact ⟨l, hl, hid, rfl⟩

theorem Records.of_eq (h : table.Records declared)
    (hlookup : ∀ l ∈ declared, table'.lookup l.text = table.lookup l.text)
    (hkept : ∀ l ∈ declared, ∀ id, table.lookup l.text = some id →
      (table'.symbol id).declaration = (table.symbol id).declaration)
    (hmade : ∀ id d, (table'.symbol id).declaration = some d →
      (table.symbol id).declaration = some d) : table'.Records declared where
  nodup := h.nodup
  recorded l hl := by
    obtain ⟨id, slot, hid, hd⟩ := h.recorded l hl
    exact ⟨id, slot, (hlookup l hl).trans hid, (hkept l hl id hid).trans hd⟩
  origin id d hd := by
    obtain ⟨l, hl, hid⟩ := h.origin id d (hmade id d hd)
    exact ⟨l, hl, (hlookup l hl).trans hid⟩

def Named (table : SymbolTable) : Prop :=
  ∀ x id, table.lookup x = some id →
    ∃ l, (table.symbol id).lexeme = some l ∧ l.kind = .identifier ∧ l.text = x

theorem Records.spares (h : table.Records declared) (hs : table.Spares table')
    (hsteady : table.Steady) (hnamed : table.Named) : table'.Records declared := by
  refine h.of_eq (fun l _ => ?_) (fun l _ id hid => ?_) hs.made
  · rw [lookup, hs.names]
    rfl
  · obtain ⟨m, hm, hk, -⟩ := hnamed _ id hid
    exact hs.kept hsteady id m hm hk

theorem Records.declare (h : table.Records declared) {x : Lexeme} {slot : Nat}
    (hx : table.lookup x.text = some id) (hc : table.Contains id)
    (hd : (table.symbol id).declaration = none) :
    Records { table.update id fun s => { s with declaration := some ⟨slot, x.position⟩ } with
      declared := slot } (declared ++ [x]) := by
  have hsymbol : ∀ j, ({ table.update id fun s =>
      { s with declaration := some ⟨slot, x.position⟩ } with declared := slot }).symbol j =
      if j = id then { table.symbol id with declaration := some ⟨slot, x.position⟩ }
      else table.symbol j := symbol_update hc _
  -- No earlier token declares the name, as its variable would have a declaration.
  have hnew : ∀ l ∈ declared, l.text ≠ x.text := by
    intro l hl he
    obtain ⟨id', slot', hid', hslot⟩ := h.recorded l hl
    rw [he, hx] at hid'
    obtain rfl := Option.some.inj hid'
    rw [hd] at hslot
    cases hslot
  refine ⟨?_, fun l hl => ?_, fun j d hj => ?_⟩
  · rw [List.map_append, List.nodup_append]
    refine ⟨h.nodup, List.nodup_singleton _, ?_⟩
    intro a ha b hb
    obtain ⟨l, hl, rfl⟩ := List.mem_map.mp ha
    obtain rfl : b = x.text := by simpa using hb
    exact hnew l hl
  · rcases List.mem_append.mp hl with hl | hl
    · obtain ⟨id', slot', hid', hslot⟩ := h.recorded l hl
      refine ⟨id', slot', hid', ?_⟩
      rw [hsymbol, if_neg, hslot]
      rintro rfl
      rw [hd] at hslot
      cases hslot
    · obtain rfl : l = x := by simpa using hl
      refine ⟨id, slot, hx, ?_⟩
      rw [hsymbol, if_pos rfl]
  · rw [hsymbol] at hj
    split_ifs at hj with he
    · exact ⟨x, by simp, he ▸ hx⟩
    · obtain ⟨l, hl, hid⟩ := h.origin j d hj
      exact ⟨l, List.mem_append_left _ hl, hid⟩

theorem mem_declaredNames {x : String} : x ∈ table.declaredNames ↔
    ∃ id, (table.symbol id).declaration.isSome = true ∧ (table.symbol id).name? = some x := by
  rw [declaredNames, List.mem_filterMap]
  constructor
  · rintro ⟨s, hs, hx⟩
    obtain ⟨i, hi⟩ := List.mem_iff_getElem?.mp hs
    split_ifs at hx with hd
    have hsymbol : table.symbol ⟨i⟩ = s := by
      rw [Array.getElem?_toList] at hi
      rw [SymbolTable.symbol, hi, Option.getD_some]
    exact ⟨⟨i⟩, by rw [hsymbol, hd], by rw [hsymbol, hx]⟩
  · rintro ⟨id, hd, hx⟩
    have hc : table.Contains id := by
      by_contra hc
      rw [symbol_of_not_contains hc] at hd
      cases hd
    have hsymbol : table.symbols[id.index]? = some (table.symbol id) := by
      rw [SymbolTable.symbol, Array.getElem?_eq_getElem hc, Option.getD_some]
    refine ⟨table.symbol id, ?_, by rw [if_pos hd, hx]⟩
    rw [← Array.getElem?_toList] at hsymbol
    exact List.mem_of_getElem? hsymbol

theorem Records.mem_declaredNames (h : table.Records declared) (hn : table.Named) {x : String} :
    x ∈ table.declaredNames ↔ x ∈ declared.map Lexeme.text := by
  rw [SymbolTable.mem_declaredNames, List.mem_map]
  constructor
  · rintro ⟨id, hd, hx⟩
    obtain ⟨d, hd⟩ := Option.isSome_iff_exists.mp hd
    obtain ⟨l, hl, hid⟩ := h.origin id d hd
    obtain ⟨m, hm, -, htext⟩ := hn _ id hid
    rw [Symbol.name?, hm] at hx
    exact ⟨l, hl, htext.symm.trans (Option.some.inj hx)⟩
  · rintro ⟨l, hl, rfl⟩
    obtain ⟨id, slot, hid, hd⟩ := h.recorded l hl
    obtain ⟨m, hm, -, htext⟩ := hn _ id hid
    refine ⟨id, by rw [hd]; rfl, ?_⟩
    rw [Symbol.name?, hm, Option.map_some, htext]

theorem Records.filter_eq (h : table.Records declared) {l : Lexeme} (hl : l ∈ declared) :
    declared.filter (fun m => m.text = l.text) = [l] := by
  have hnodup := h.nodup
  clear h
  induction declared with
  | nil => cases hl
  | cons m declared ih =>
    rw [List.map_cons, List.nodup_cons] at hnodup
    rcases List.mem_cons.mp hl with rfl | hl
    · rw [List.filter_cons_of_pos (by simp), List.cons_eq_cons, List.filter_eq_nil_iff]
      refine ⟨rfl, fun m hm he => hnodup.1 ?_⟩
      exact List.mem_map.mpr ⟨m, hm, by simpa using he⟩
    · have hne : m.text ≠ l.text := by
        intro he
        exact hnodup.1 (he ▸ List.mem_map_of_mem hl)
      rw [List.filter_cons_of_neg (by simpa using hne)]
      exact ih hl hnodup.2

/-! ## Symbols that are added -/

def Occupied (table : SymbolTable) (id : SymbolId) : Prop :=
  table.Contains id ∧ id ∉ table.free

/-- Symbols were added at places that were not in use. -/
structure Grows (table table' : SymbolTable) : Prop where
  tidy : table.Tidy → table'.Tidy
  occupied : table.Tidy → ∀ id, table.Occupied id →
    table'.Occupied id ∧ table'.symbol id = table.symbol id
  records : table.Tidy → ∀ declared, table.Records declared → table'.Records declared

theorem Grows.refl (table : SymbolTable) : table.Grows table :=
  ⟨fun ht => ht, fun _ _ ho => ⟨ho, rfl⟩, fun _ _ hr => hr⟩

theorem Grows.of_tidy (h : table.Tidy → table.Grows table') : table.Grows table' :=
  ⟨fun ht => (h ht).tidy ht, fun ht => (h ht).occupied ht, fun ht => (h ht).records ht⟩

theorem Grows.trans {table'' : SymbolTable} (h : table.Grows table') (h' : table'.Grows table'') :
    table.Grows table'' where
  tidy ht := h'.tidy (h.tidy ht)
  occupied ht id ho := by
    obtain ⟨ho', hs⟩ := h.occupied ht id ho
    obtain ⟨ho'', hs'⟩ := h'.occupied (h.tidy ht) id ho'
    exact ⟨ho'', hs'.trans hs⟩
  records ht declared hr := h'.records (h.tidy ht) declared (h.records ht declared hr)

theorem grows_add {s : Symbol} (hs : s.declaration = none) : table.Grows (table.add s).2 where
  tidy ht := (added_add ht s).tidy ht
  occupied ht j hj := by
    have hadded := added_add ht s
    have hne : j ≠ (table.add s).1 := by
      rintro rfl
      exact hadded.vacant.elim hj.2 fun hc => hc hj.1
    refine ⟨⟨(hadded.contains j).mpr (.inr hj.1), fun hf => hj.2 (hadded.free.subset hf)⟩, ?_⟩
    rw [hadded.symbol, if_neg hne]
  records ht declared hr := by
    have hadded := added_add ht s
    refine hr.of_eq (fun l _ => ?_) (fun l hl j hj => ?_) (fun j d hd => ?_)
    · rw [lookup, hadded.names]
      rfl
    · obtain ⟨j', slot, hj', hslot⟩ := hr.recorded l hl
      obtain rfl : j = j' := Option.some.inj (hj.symm.trans hj')
      have hne : j ≠ (table.add s).1 := by
        rintro rfl
        rw [hadded.empty ht] at hslot
        cases hslot
      rw [hadded.symbol, if_neg hne]
    · rw [hadded.symbol] at hd
      split_ifs at hd
      · rw [hs] at hd
        cases hd
      · exact hd

theorem grows_literal (l : Lexeme) : table.Grows (table.literal l).2 :=
  grows_add rfl

/-- A new name hides no other one. -/
theorem grows_naming (id : SymbolId) {x : String} (hx : table.lookup x = none) :
    table.Grows { table with names := (x, id) :: table.names } where
  tidy ht := ⟨ht.contains, ht.empty, ht.nodup⟩
  occupied _ j hj := ⟨hj, rfl⟩
  records _ declared hr := by
    refine hr.of_eq (fun l hl => ?_) (fun _ _ _ _ => rfl) (fun _ _ hd => hd)
    obtain ⟨j, -, hj, -⟩ := hr.recorded l hl
    rw [Coherent.lookup_cons, if_neg]
    intro he
    rw [he, hx] at hj
    cases hj

theorem grows_reference (l : Lexeme) : table.Grows (table.reference l).2 := by
  unfold reference
  split
  · exact .refl table
  · next hnone =>
    refine .of_tidy fun ht => ?_
    have hadd : table.Grows (table.add { lexeme := some l }).2 := grows_add rfl
    have hnames : (table.add { lexeme := some l }).2.lookup l.text = none := by
      rw [lookup, (added_add ht _).names]
      exact hnone
    exact hadd.trans (grows_naming _ hnames)

theorem grows_note (l : Lexeme) : table.Grows (table.note l) := by
  unfold note
  split
  · exact grows_reference l
  · exact .refl table

theorem grows_of_shifts {l : Lexeme} (h : Compiling.Shifts table l table') :
    table.Grows table' := by
  rcases h with rfl | ⟨-, rfl⟩ | ⟨-, rfl⟩
  · exact .refl _
  · exact grows_reference l
  · exact grows_literal l

end SymbolTable

end OnePass
