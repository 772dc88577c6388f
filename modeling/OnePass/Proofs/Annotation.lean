import OnePass.Proofs.PhysicalLines

/-! # Source maps of any history of pushes

A source map may be given any lines, in any order of the two segments, with and without positions.
A location that it answers with is a place in a segment, and later lines go behind it. The line
numbers of the locations are apart, so that no entry of the map takes the place of another, and a
comment is padded by characters to a column that no line reaches.
-/
namespace OnePass

namespace Target

variable {τ : Type} [Target τ]

/-- Gives the lines to the target, one after another, and collects the locations it answers with. -/
def pushAll (t : τ) : List Emission → List Location × τ
  | [] => ([], t)
  | e :: pushed =>
    let (location, t) := Target.push t e
    let (locations, t) := pushAll t pushed
    (location :: locations, t)

theorem pushAll_concat (t : τ) (pushed : List Emission) (e : Emission) :
    pushAll t (pushed ++ [e]) =
      ((pushAll t pushed).1 ++ [(Target.push (pushAll t pushed).2 e).1],
        (Target.push (pushAll t pushed).2 e).2) := by
  induction pushed generalizing t with
  | nil => rfl
  | cons x pushed ih => simp [pushAll, ih]

theorem pushAll_eq_taking (pushed : List Emission) :
    (pushAll (Target.empty : τ) pushed).2 = taking τ pushed := by
  induction pushed using List.reverseRecOn with
  | nil => rfl
  | append_singleton pushed e ih => rw [pushAll_concat, taking_append, ih]

theorem length_pushAll (t : τ) (pushed : List Emission) :
    (pushAll t pushed).1.length = pushed.length := by
  induction pushed generalizing t with
  | nil => rfl
  | cons e pushed ih => simp [pushAll, ih]

/-- A source map answers as its target does. -/
theorem pushAll_sourceMap (pushed : List Emission) :
    (pushAll (Target.empty : SourceMap τ) pushed).1 = (pushAll (Target.empty : τ) pushed).1 := by
  induction pushed using List.reverseRecOn with
  | nil => rfl
  | append_singleton pushed e ih =>
    have hpush : (Target.push (taking (SourceMap τ) pushed) e).1 =
        (Target.push (taking τ pushed) e).1 :=
      congrArg (fun t : τ => (Target.push t e).1) (compiled_taking pushed)
    simp only [pushAll_concat, pushAll_eq_taking, ih, hpush]

end Target

open Target (pushAll pushAll_concat pushAll_eq_taking pushAll_sourceMap taking)

namespace Assembly

def line? (a : Assembly) (location : Location) : Option Line :=
  (a.segment location.segment)[location.index]?

/-- The locations that lines have when they are pushed into an empty assembly. -/
def locations (pushed : List Emission) : List Location :=
  (pushAll (Target.empty : Assembly) pushed).1

variable {pushed : List Emission} {location : Location}

theorem locations_concat (pushed : List Emission) (e : Emission) :
    locations (pushed ++ [e]) =
      locations pushed ++ [⟨e.segment, (pushed.filter fun x => x.segment = e.segment).length⟩] := by
  rw [locations, locations, pushAll_concat, pushAll_eq_taking, ← size_taking]
  rfl

theorem length_locations (pushed : List Emission) : (locations pushed).length = pushed.length :=
  Target.length_pushAll _ pushed

theorem line?_taking (pushed : List Emission) (location : Location) :
    (taking Assembly pushed).line? location =
      (pushed.filter fun e => e.segment = location.segment)[location.index]?.map Emission.line := by
  rw [line?, ← Array.getElem?_toList, toList_taking, List.getElem?_map]

/-- Under the location of a push stands the line that was pushed, however many followed it. -/
theorem filter_of_locations {i : Nat} (h : (locations pushed)[i]? = some location) :
    ∃ e, pushed[i]? = some e ∧
      (pushed.filter fun e => e.segment = location.segment)[location.index]? = some e := by
  induction pushed using List.reverseRecOn with
  | nil => simp [locations, pushAll] at h
  | append_singleton pushed e ih =>
    have hlength := length_locations pushed
    rw [locations_concat, List.getElem?_append] at h
    split_ifs at h with hi
    · obtain ⟨x, hx, hplace⟩ := ih h
      refine ⟨x, by rwa [List.getElem?_append_left (by omega)], ?_⟩
      have hlt := (List.getElem?_eq_some_iff.mp hplace).1
      rwa [List.filter_append, List.getElem?_append_left hlt]
    · -- The last push goes behind the lines of its segment.
      have hzero : i - (locations pushed).length = 0 := by
        by_contra hne
        rw [List.getElem?_eq_none (by simp; omega)] at h
        cases h
      rw [hzero] at h
      obtain rfl : _ = location := Option.some.inj h
      have hlast : i = pushed.length := by omega
      refine ⟨e, by simp [hlast], ?_⟩
      rw [List.filter_append, List.getElem?_append_right (Nat.le_refl _)]
      simp

theorem line?_of_locations {i : Nat} (h : (locations pushed)[i]? = some location) :
    ∃ e, pushed[i]? = some e ∧ (taking Assembly pushed).line? location = some e.line := by
  obtain ⟨e, he, hplace⟩ := filter_of_locations h
  refine ⟨e, he, ?_⟩
  rw [line?_taking, hplace]
  rfl

theorem locations_take (pushed : List Emission) (n : Nat) :
    locations (pushed.take n) = (locations pushed).take n := by
  induction pushed using List.reverseRecOn generalizing n with
  | nil => simp [locations, pushAll]
  | append_singleton pushed e ih =>
    have hlength := length_locations pushed
    rw [locations_concat]
    by_cases hn : n ≤ pushed.length
    · rw [List.take_append_of_le_length hn, List.take_append_of_le_length (by omega), ih]
    · rw [List.take_of_length_le (by simp; omega), List.take_of_length_le (by simp; omega),
        locations_concat]

theorem kept_of_locations {i : Nat} (h : (locations pushed)[i]? = some location) :
    ∃ e, pushed[i]? = some e ∧
      ∀ n, i < n → (taking Assembly (pushed.take n)).line? location = some e.line := by
  obtain ⟨e, he, -⟩ := filter_of_locations h
  refine ⟨e, he, fun n hn => ?_⟩
  have hbefore : (locations (pushed.take n))[i]? = some location := by
    rwa [locations_take, List.getElem?_take_of_lt hn]
  obtain ⟨e', he', hline⟩ := line?_of_locations hbefore
  rw [List.getElem?_take_of_lt hn, he] at he'
  obtain rfl : e = e' := Option.some.inj he'
  exact hline

theorem index_lt_of_locations (h : location ∈ locations pushed) :
    location.index < (pushed.filter fun e => e.segment = location.segment).length := by
  obtain ⟨i, hi⟩ := List.getElem?_of_mem h
  obtain ⟨e, -, hplace⟩ := filter_of_locations hi
  exact (List.getElem?_eq_some_iff.mp hplace).1

theorem nodup_locations (pushed : List Emission) : (locations pushed).Nodup := by
  induction pushed using List.reverseRecOn with
  | nil => exact List.nodup_nil
  | append_singleton pushed e ih =>
    rw [locations_concat, List.nodup_append]
    refine ⟨ih, List.nodup_singleton _, ?_⟩
    rintro location hold _ hnew rfl
    have hlt := index_lt_of_locations hold
    rw [List.mem_singleton.mp hnew] at hlt
    exact Nat.lt_irrefl _ hlt

theorem lineNumber_inj {x y : Location} (hx : x ∈ locations pushed) (hy : y ∈ locations pushed)
    (h : (taking Assembly pushed).lineNumber x = (taking Assembly pushed).lineNumber y) :
    x = y := by
  have hsize := size_taking pushed .data
  have hxlt := index_lt_of_locations hx
  have hylt := index_lt_of_locations hy
  obtain ⟨xs, xi⟩ := x
  obtain ⟨ys, yi⟩ := y
  simp only [segment] at hsize
  -- The lines of the data come before those of the text.
  cases xs with
  | data =>
    cases ys with
    | data =>
      simp only [lineNumber] at h
      congr 1
      omega
    | text =>
      simp only [lineNumber] at h hxlt
      omega
  | text =>
    cases ys with
    | data =>
      simp only [lineNumber] at h hylt
      omega
    | text =>
      simp only [lineNumber] at h
      congr 1
      omega

end Assembly

open Assembly (locations locations_concat)

namespace SourceMap

/-! ## The map -/

def attributions (pushed : List Emission) : List (Location × Position) :=
  ((locations pushed).zip pushed).filterMap fun (location, e) => e.position.map (location, ·)

theorem attributions_concat (pushed : List Emission) (e : Emission) :
    attributions (pushed ++ [e]) = attributions pushed ++ (e.position.map
      (⟨e.segment, (pushed.filter fun x => x.segment = e.segment).length⟩, ·)).toList := by
  rw [attributions, locations_concat, List.zip_append (Assembly.length_locations pushed),
    List.filterMap_append]
  cases hp : e.position <;> simp [attributions, hp]

theorem pending_taking (pushed : List Emission) :
    (taking (SourceMap Assembly) pushed).pending = (attributions pushed).reverse := by
  induction pushed using List.reverseRecOn with
  | nil => rfl
  | append_singleton pushed e ih =>
    rw [pending_push, ih, attributions_concat]
    cases e.position <;> simp

theorem map_fst_attributions (pushed : List Emission) :
    ((attributions pushed).map Prod.fst).Sublist (locations pushed) := by
  rw [attributions, List.map_filterMap]
  have hzip := List.map_fst_zip (Nat.le_of_eq (Assembly.length_locations pushed))
  nth_rewrite 2 [← hzip]
  generalize (locations pushed).zip pushed = pairs
  induction pairs with
  | nil => exact .slnil
  | cons pair pairs ih =>
    obtain ⟨location, e⟩ := pair
    cases hp : e.position with
    | none =>
      rw [List.filterMap_cons_none (by simp [hp]), List.map_cons]
      exact ih.cons _
    | some p =>
      rw [List.filterMap_cons_some (by simp [hp]; rfl), List.map_cons]
      exact ih.cons_cons _

theorem toList_foldr_insert {number : Location → Nat} {entries : List (Location × Position)}
    (h : (entries.map fun x => number x.1).Nodup) :
    (entries.foldr (fun x map => map.insert (number x.1) x.2)
      (∅ : Std.TreeMap Nat Position)).toList.Perm (entries.map fun x => (number x.1, x.2)) := by
  induction entries with
  | nil => exact .nil
  | cons x entries ih =>
    rw [List.map_cons, List.nodup_cons] at h
    obtain ⟨hnew, hrest⟩ := h
    have hperm := ih hrest
    rw [List.foldr_cons, List.map_cons]
    refine Std.TreeMap.toList_insert_perm.trans (.cons _ ?_)
    rw [List.filter_eq_self.mpr]
    · exact hperm
    · rintro ⟨n, p⟩ hmem
      obtain ⟨y, hy, hny⟩ := List.mem_map.mp (hperm.mem_iff.mp hmem)
      have hne : number x.1 ≠ n := by
        rintro rfl
        exact hnew (List.mem_map.mpr ⟨y, hy, congrArg Prod.fst hny⟩)
      simpa using hne

/-- The map has one entry for every push with a position, under the number of its line. -/
theorem toList_positions (pushed : List Emission) :
    (Target.ofEmissions (SourceMap Assembly) pushed).positions.toList.Perm
      ((attributions pushed).map fun x => ((taking Assembly pushed).lineNumber x.1, x.2)) := by
  have hpositions : (Target.ofEmissions (SourceMap Assembly) pushed).positions =
      (attributions pushed).reverse.foldr
        (fun x map => map.insert ((taking Assembly pushed).lineNumber x.1) x.2) ∅ := by
    rw [← pending_taking, ← Target.compiled_taking]
    rfl
  have hapart : ((attributions pushed).map fun x =>
      (taking Assembly pushed).lineNumber x.1).Nodup := by
    have hsub := map_fst_attributions pushed
    have hmap := (hsub.nodup (Assembly.nodup_locations pushed)).map_on
      (f := (taking Assembly pushed).lineNumber)
      fun x hx y hy => Assembly.lineNumber_inj (hsub.subset hx) (hsub.subset hy)
    rwa [List.map_map] at hmap
  rw [hpositions]
  refine (toList_foldr_insert ?_).trans ((List.reverse_perm _).map _)
  rw [List.map_reverse]
  exact List.nodup_reverse.mpr hapart

/-- Both maps of a map around a map are the same. -/
theorem ofEmissions_nested (pushed : List Emission) :
    (Target.ofEmissions (SourceMap (SourceMap Assembly)) pushed).positions =
      (Target.ofEmissions (SourceMap Assembly) pushed).positions := by
  have hpending : (taking (SourceMap (SourceMap Assembly)) pushed).pending =
      (taking (SourceMap Assembly) pushed).pending := by
    induction pushed using List.reverseRecOn with
    | nil => rfl
    | append_singleton pushed e ih =>
      have hinner := Target.compiled_taking (τ := SourceMap Assembly) pushed
      rw [Target.taking_append, Target.taking_append]
      simp only [Target.push, push, hinner, ih]
  have hinner := Target.compiled_taking (τ := SourceMap Assembly) pushed
  have hfinish (τ : Type) [Target τ] :
      (Target.ofEmissions (SourceMap τ) pushed).positions =
        (taking (SourceMap τ) pushed).pending.foldr (fun x map =>
          map.insert (Target.lineNumber (taking (SourceMap τ) pushed).compiled x.1) x.2) ∅ := rfl
  rw [hfinish, hfinish, hpending, hinner]
  rfl

/-! ## Comments -/

theorem length_le_utf8ByteSize (text : String) : text.length ≤ text.utf8ByteSize := by
  have hchars (cs : List Char) : cs.length ≤ (String.ofList cs).utf8ByteSize := by
    induction cs with
    | nil => exact Nat.zero_le _
    | cons c cs ih =>
      have hc := c.utf8Size_pos
      rw [List.length_cons, String.ofList_cons, String.utf8ByteSize_append,
        String.utf8ByteSize_singleton]
      omega
  have htext := hchars text.toList
  rwa [String.length_toList, String.ofList_toList] at htext

/-- No line comes closer to the comments than four columns. -/
theorem length_le_commentColumn {m : SourceMap Assembly} {line : String}
    (h : line ∈ Text.lines m.compiled.render) : line.length + 4 ≤ m.commentColumn := by
  have hbytes := length_le_utf8ByteSize line
  have hmax (sizes : List Nat) (bound : Nat) :
      bound ≤ sizes.foldl max bound ∧ ∀ size ∈ sizes, size ≤ sizes.foldl max bound := by
    induction sizes generalizing bound with
    | nil => simp
    | cons size sizes ih =>
      obtain ⟨hbound, hsizes⟩ := ih (max bound size)
      rw [List.foldl_cons, List.forall_mem_cons]
      exact ⟨by omega, by omega, hsizes⟩
  have hle := (hmax _ 0).2 _ (List.mem_map_of_mem (f := String.utf8ByteSize) h)
  rw [commentColumn]
  omega

/-- The text is the line, with a comment that begins at the column if the line has a position: line
and column of the position with a colon between them. -/
def Commented (column : Nat) (line : String) : Option Position → String → Prop
  | none, text => text = line
  | some p, text => ∃ spaces, 4 ≤ spaces ∧ line.length + spaces = column ∧
    text = line ++ String.ofList (List.replicate spaces ' ') ++
      ("@ " ++ toString p.line ++ ":" ++ toString p.column)

theorem commented_annotate {column : Nat} {line : String} (h : line.length + 4 ≤ column)
    (p : Option Position) : Commented column line p (annotate column line p) := by
  cases p with
  | none => rfl
  | some p =>
    refine ⟨column - line.length, by omega, by omega, ?_⟩
    simp only [annotate, Text.padRight, Position.render, String.append_assoc]

theorem commented_of_isLine {m : SourceMap Assembly}
    (h : ∀ line ∈ m.compiled.lines, Text.IsLine line) {k : Nat} {line text : String}
    (hline : (Text.lines m.compiled.render)[k]? = some line)
    (htext : (Text.lines m.annotated)[k]? = some text) :
    Commented m.commentColumn line (m.position? (k + 1)) text := by
  have hle := length_le_commentColumn (List.mem_of_getElem? hline)
  rw [lines_render h] at hline
  rw [lines_annotated h, List.getElem?_map, List.getElem?_zipIdx, hline] at htext
  obtain rfl : annotate m.commentColumn line (m.position? (k + 1)) = text := by
    simpa using htext
  exact commented_annotate hle _

end SourceMap

/-! ## Histories -/

def Target.history (τ : Type) [Target τ] (pushed : List Emission) : List Location × τ :=
  ((pushAll (Target.empty : τ) pushed).1, Target.finish (pushAll (Target.empty : τ) pushed).2)

structure SourceMap.Tells (m : SourceMap Assembly) (places : List Location)
    (pushed : List Emission) : Prop where
  answered : places.length = pushed.length
  apart : places.Nodup
  /-- From its push on, the line stands at its location. -/
  kept : ∀ {i : Nat} {location}, places[i]? = some location → ∃ e : Emission, pushed[i]? = some e ∧
    (∀ n, i < n → (pushAll (Target.empty : SourceMap Assembly) (pushed.take n)).2.compiled.line?
      location = some e.line) ∧
    m.compiled.line? location = some e.line
  /-- The line of a location is the line of the text with its number. -/
  rendered : ∀ {i : Nat} {location}, places[i]? = some location → ∃ (e : Emission) (k : Nat),
    pushed[i]? = some e ∧
    Target.lineNumber m location = k + 1 ∧
    (Text.lines m.compiled.render)[k]? = some e.line.render
  /-- Each push with a position has one entry, and there is no other. -/
  entries : m.positions.toList.Perm ((places.zip pushed).filterMap fun (location, e) =>
    e.position.map (Target.lineNumber m location, ·))
  /-- A map around the map is the same one. -/
  nested : ∃ outer, Target.history (SourceMap (SourceMap Assembly)) pushed = (places, outer) ∧
    outer.compiled = m ∧ outer.positions = m.positions
  counted : (Text.lines m.annotated).length = (Text.lines m.compiled.render).length
  /-- All comments begin at one column. -/
  comments : ∃ column, ∀ {k : Nat} {line text}, (Text.lines m.compiled.render)[k]? = some line →
    (Text.lines m.annotated)[k]? = some text →
    SourceMap.Commented column line (m.position? (k + 1)) text

theorem Target.history_eq (pushed : List Emission) :
    Target.history (SourceMap Assembly) pushed =
      (locations pushed, Target.ofEmissions (SourceMap Assembly) pushed) := by
  rw [Target.history, pushAll_sourceMap, pushAll_eq_taking]
  rfl

def interleavedLines : List Emission :=
  [⟨.text, .verbatim "main:", none⟩, ⟨.data, .verbatim "str_1:\t.asciz \"übung\"", some ⟨1, 7⟩⟩,
    ⟨.text, .verbatim "\tbl printf", some ⟨1, 1⟩⟩, ⟨.data, .verbatim "", none⟩,
    ⟨.data, .verbatim "sfmt:", some ⟨1, 7⟩⟩]

end OnePass
