import OnePass.Grammar.Language

/-! # The table of the language

The grammar of the language builds without a conflict, and the table it gives chooses in every cell
as the tabulated one does.
-/
namespace OnePass

def ParseTable.agrees (a b : ParseTable) : Bool :=
  Grammar.cells.all fun (n, t) => a.entry? n t = b.entry? n t

theorem ParseTable.entry?_eq_of_agrees {a b : ParseTable} (h : a.agrees b = true)
    (n : Nonterminal) (t : Terminal) : a.entry? n t = b.entry? n t := by
  have cell := List.all_eq_true.mp h (n, t) (Grammar.mem_cells n t)
  simpa using cell

theorem agrees_build_language :
    (ParseTable.build language).toOption.any (fun table => table.agrees languageTable) = true := by
  decide +kernel

theorem ParseTable.exists_of_any {r : Except Conflict ParseTable} {p : ParseTable → Bool}
    (h : r.toOption.any p = true) : ∃ table, r = .ok table ∧ p table = true := by
  cases r with
  | error c => cases h
  | ok table => exact ⟨table, rfl, h⟩

theorem entry?_build_language : ∃ table, ParseTable.build language = .ok table ∧
    ∀ n t, table.entry? n t = languageTable.entry? n t :=
  (ParseTable.exists_of_any agrees_build_language).imp fun _ h =>
    ⟨h.1, ParseTable.entry?_eq_of_agrees h.2⟩

end OnePass
