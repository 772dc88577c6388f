import OnePass.Proofs.Compilation
import OnePass.Proofs.Need

/-! # Acceptance

When a parse tree has a translation: its names are declared before they are used, and no expression
needs more registers than there are. Together with the lexer and the grammar this decides which
programs compile.
-/
namespace OnePass

variable {distance : String → String → Nat} [NameDistance distance]

/-! ## The names of a program -/

def Declares (tokens : List Token) (x : String) : Prop :=
  ∃ u word w, tokens = u ++ ⟨.variableWord, word⟩ :: ⟨.identifier, x⟩ :: w

def EndsDeclaring (tokens : List Token) : Prop :=
  ∃ u word, tokens = u ++ [⟨.variableWord, word⟩]

/-- The identifiers that are being declared, in their order: those right behind the word for it. -/
def declarations {α : Type} (kind : α → Terminal) : List α → List α
  | x :: y :: rest =>
    if kind x = .variableWord ∧ kind y = .identifier then y :: declarations kind (y :: rest)
    else declarations kind (y :: rest)
  | _ => []

/-- In the order of the tokens, no name is declared that is seen already, and every identifier that
is not being declared is. -/
structure ScopedAfter (seen : String → Prop) (tokens : List Token) : Prop where
  once : ∀ u word x w, tokens = u ++ ⟨.variableWord, word⟩ :: ⟨.identifier, x⟩ :: w →
    ¬ (seen x ∨ Declares u x)
  declared : ∀ u x w, tokens = u ++ ⟨.identifier, x⟩ :: w →
    EndsDeclaring u ∨ seen x ∨ Declares u x

/-- No name is declared twice, and every other identifier has an earlier declaration. -/
def Scoped (tokens : List Token) : Prop :=
  ScopedAfter (fun _ => False) tokens

/-- The names declared after the tokens, if each name is declared once and before it is used. -/
def scan (declared : List String) : List Token → Option (List String)
  | [] => some declared
  | ⟨.identifier, x⟩ :: rest => if x ∈ declared then scan declared rest else none
  | ⟨.variableWord, _⟩ :: ⟨.identifier, x⟩ :: rest =>
    if x ∈ declared then none else scan (declared ++ [x]) rest
  | _ :: rest => scan declared rest

theorem declares_cons {t : Token} {u : List Token} {y : String} :
    Declares (t :: u) y ↔
      (t.kind = .variableWord ∧ ∃ w, u = ⟨.identifier, y⟩ :: w) ∨ Declares u y := by
  constructor
  · rintro ⟨v, word, w, h⟩
    cases v with
    | nil =>
      obtain ⟨rfl, rfl⟩ := List.cons.inj h
      exact .inl ⟨rfl, w, rfl⟩
    | cons t' v =>
      obtain ⟨rfl, rfl⟩ := List.cons.inj h
      exact .inr ⟨v, word, w, rfl⟩
  · rintro (⟨ht, w, rfl⟩ | ⟨v, word, w, rfl⟩)
    · obtain ⟨kind, word⟩ := t
      cases ht
      exact ⟨[], word, w, rfl⟩
    · exact ⟨t :: v, word, w, rfl⟩

theorem not_declares_nil {y : String} : ¬ Declares [] y := by
  rintro ⟨u, word, w, h⟩
  simp at h

theorem endsDeclaring_cons {t : Token} {u : List Token} :
    EndsDeclaring (t :: u) ↔ (u = [] ∧ t.kind = .variableWord) ∨ EndsDeclaring u := by
  constructor
  · rintro ⟨v, word, h⟩
    cases v with
    | nil =>
      obtain ⟨rfl, rfl⟩ := List.cons.inj h
      exact .inl ⟨rfl, rfl⟩
    | cons t' v =>
      obtain ⟨rfl, rfl⟩ := List.cons.inj h
      exact .inr ⟨v, word, rfl⟩
  · rintro (⟨rfl, ht⟩ | ⟨v, word, rfl⟩)
    · obtain ⟨kind, word⟩ := t
      cases ht
      exact ⟨[], word, rfl⟩
    · exact ⟨t :: v, word, rfl⟩

theorem declarations_cons {α : Type} {kind : α → Terminal} {x : α} (h : kind x ≠ .variableWord)
    (rest : List α) : declarations kind (x :: rest) = declarations kind rest := by
  cases rest with
  | nil => rfl
  | cons y rest => rw [declarations, if_neg fun hxy => h hxy.1]

namespace ScopedAfter

variable {seen : String → Prop} {rest : List Token}

theorem nil : ScopedAfter seen [] :=
  ⟨by simp, by simp⟩

theorem cons_other {t : Token} (ht : t.kind ≠ .identifier)
    (hd : t.kind = .variableWord → ∀ y w, rest ≠ ⟨.identifier, y⟩ :: w) :
    ScopedAfter seen (t :: rest) ↔ ScopedAfter seen rest := by
  have hdeclares : ∀ u y w, rest = u ++ w → (Declares (t :: u) y ↔ Declares u y) := by
    rintro u y w rfl
    rw [declares_cons, or_iff_right]
    rintro ⟨hk, w', rfl⟩
    exact hd hk y _ rfl
  constructor
  · intro h
    refine ⟨fun u word x w he => ?_, fun u x w he => ?_⟩
    · rw [← hdeclares u x _ he]
      exact h.once (t :: u) word x w (by rw [he]; rfl)
    · rw [← hdeclares u x _ he]
      refine (h.declared (t :: u) x w (by rw [he]; rfl)).imp_left fun hends => ?_
      refine (endsDeclaring_cons.mp hends).resolve_left ?_
      rintro ⟨rfl, hk⟩
      exact hd hk x w he
  · intro h
    refine ⟨fun u word x w he => ?_, fun u x w he => ?_⟩
    · cases u with
      | nil =>
        obtain ⟨rfl, rfl⟩ := List.cons.inj he
        exact absurd rfl (hd rfl x w)
      | cons t' u =>
        obtain ⟨rfl, he'⟩ := List.cons.inj he
        rw [hdeclares u x _ he']
        exact h.once u word x w he'
    · cases u with
      | nil =>
        obtain ⟨rfl, -⟩ := List.cons.inj he
        exact absurd rfl ht
      | cons t' u =>
        obtain ⟨rfl, he'⟩ := List.cons.inj he
        rw [hdeclares u x _ he']
        exact (h.declared u x w he').imp_left fun hends => endsDeclaring_cons.mpr (.inr hends)

theorem cons_use {x : String} :
    ScopedAfter seen (⟨.identifier, x⟩ :: rest) ↔ seen x ∧ ScopedAfter seen rest := by
  have hdeclares : ∀ u y, Declares (⟨.identifier, x⟩ :: u) y ↔ Declares u y := fun u y => by
    simp [declares_cons]
  have hends : ∀ u, EndsDeclaring (⟨.identifier, x⟩ :: u) ↔ EndsDeclaring u := fun u => by
    simp [endsDeclaring_cons]
  constructor
  · intro h
    refine ⟨?_, fun u word y w he => ?_, fun u y w he => ?_⟩
    · rcases h.declared [] x rest rfl with ⟨u, word, hu⟩ | hx | hx
      · simp at hu
      · exact hx
      · exact absurd hx not_declares_nil
    · rw [← hdeclares]
      exact h.once (_ :: u) word y w (by rw [he]; rfl)
    · rw [← hdeclares, ← hends]
      exact h.declared (_ :: u) y w (by rw [he]; rfl)
  · rintro ⟨hx, h⟩
    refine ⟨fun u word y w he => ?_, fun u y w he => ?_⟩
    · cases u with
      | nil => simp at he
      | cons t u =>
        obtain ⟨rfl, he'⟩ := List.cons.inj he
        rw [hdeclares]
        exact h.once u word y w he'
    · cases u with
      | nil =>
        obtain ⟨hy, -⟩ := List.cons.inj he
        cases hy
        exact .inr (.inl hx)
      | cons t u =>
        obtain ⟨rfl, he'⟩ := List.cons.inj he
        rw [hdeclares, hends]
        exact h.declared u y w he'

theorem cons_declaration {word x : String} :
    ScopedAfter seen (⟨.variableWord, word⟩ :: ⟨.identifier, x⟩ :: rest) ↔
      ¬ seen x ∧ ScopedAfter (fun y => seen y ∨ y = x) rest := by
  have hdeclares : ∀ u y, Declares (⟨.variableWord, word⟩ :: ⟨.identifier, x⟩ :: u) y ↔
      y = x ∨ Declares u y := fun u y => by
    simp [declares_cons, eq_comm]
  have hends : ∀ u, EndsDeclaring (⟨.variableWord, word⟩ :: ⟨.identifier, x⟩ :: u) ↔
      EndsDeclaring u := fun u => by
    simp [endsDeclaring_cons]
  constructor
  · intro h
    refine ⟨fun hx => h.once [] word x rest rfl (.inl hx), fun u word' y w he => ?_,
      fun u y w he => ?_⟩
    · rw [or_assoc, ← hdeclares]
      exact h.once (_ :: _ :: u) word' y w (by rw [he]; rfl)
    · rw [or_assoc, ← hdeclares, ← hends]
      exact h.declared (_ :: _ :: u) y w (by rw [he]; rfl)
  · rintro ⟨hx, h⟩
    refine ⟨fun u word' y w he => ?_, fun u y w he => ?_⟩
    · match u with
      | [] =>
        obtain ⟨-, hy, -⟩ : _ ∧ x = y ∧ _ := by simpa using he
        rw [← hy]
        exact fun h => h.elim hx not_declares_nil
      | [t] => simp at he
      | t :: t' :: u =>
        obtain ⟨rfl, rfl, he'⟩ : _ ∧ _ ∧ _ := by simpa using he
        rw [hdeclares, ← or_assoc]
        exact h.once u word' y w he'
    · match u with
      | [] => simp at he
      | [t] =>
        obtain ⟨rfl, -⟩ := List.cons.inj he
        exact .inl ⟨[], word, rfl⟩
      | t :: t' :: u =>
        obtain ⟨rfl, rfl, he'⟩ : _ ∧ _ ∧ _ := by simpa using he
        rw [hdeclares, hends]
        exact (h.declared u y w he').imp_right or_assoc.mp

end ScopedAfter

theorem isSome_scan {declared : List String} {tokens : List Token} :
    (scan declared tokens).isSome ↔ ScopedAfter (· ∈ declared) tokens := by
  fun_induction scan declared tokens with
  | case1 declared => simp [ScopedAfter.nil]
  | case2 declared x rest hx ih => rw [ih, ScopedAfter.cons_use, and_iff_right hx]
  | case3 declared x rest hx => simp [ScopedAfter.cons_use, hx]
  | case4 declared word x rest hx => simp [ScopedAfter.cons_declaration, hx]
  | case5 declared word x rest hx ih =>
    rw [ih, ScopedAfter.cons_declaration, and_iff_right hx]
    simp only [List.mem_append, List.mem_singleton]
  | case6 declared t rest ht ht' ih =>
    rw [ih, ScopedAfter.cons_other]
    · intro hk
      obtain ⟨kind, text⟩ := t
      exact ht text (by rw [← hk])
    · intro hk y w he
      obtain ⟨kind, text⟩ := t
      exact ht' text y w (by rw [← hk]) he

/-! ## The names of a tree -/

theorem scan_cons {declared : List String} {t : Token} (rest : List Token)
    (h : t.kind ≠ .identifier) (h' : t.kind ≠ .variableWord) :
    scan declared (t :: rest) = scan declared rest := by
  obtain ⟨kind, text⟩ := t
  cases kind <;> first | rfl | contradiction

theorem scan_use {declared : List String} (x : String) (rest : List Token) :
    scan declared (⟨.identifier, x⟩ :: rest) =
      if x ∈ declared then scan declared rest else none := by
  rw [scan]

mutual

theorem Expression.scan_tokens (declared : List String) (rest : List Token) : ∀ e : Expression,
    scan declared (e.tokens ++ rest) = if e.expr.Bound declared then scan declared rest else none
  | .single t => t.scan_tokens declared rest
  | .chain e op t => by
    rw [Expression.tokens, List.append_assoc, List.cons_append, e.scan_tokens,
      scan_cons _ (by simp [Token.additive]) (by simp [Token.additive]), t.scan_tokens]
    simp only [Expression.expr, Expr.bound_binary, ← ite_and]

theorem Term.scan_tokens (declared : List String) (rest : List Token) : ∀ t : Term,
    scan declared (t.tokens ++ rest) = if t.expr.Bound declared then scan declared rest else none
  | .single f => f.scan_tokens declared rest
  | .chain t op f => by
    rw [Term.tokens, List.append_assoc, List.cons_append, t.scan_tokens,
      scan_cons _ (by simp [Token.multiplicative]) (by simp [Token.multiplicative]), f.scan_tokens]
    simp only [Term.expr, Expr.bound_binary, ← ite_and]

theorem Factor.scan_tokens (declared : List String) (rest : List Token) : ∀ f : Factor,
    scan declared (f.tokens ++ rest) = if f.expr.Bound declared then scan declared rest else none
  | .var x => by
    rw [Factor.tokens, List.cons_append, List.nil_append, scan_use]
    simp [Factor.expr, Expr.Bound, Expr.vars]
  | .number digits => by
    rw [Factor.tokens, List.cons_append, List.nil_append, scan_cons _ (by simp) (by simp)]
    simp [Factor.expr, Expr.Bound, Expr.vars]
  | .parens e => by
    rw [Factor.tokens, List.cons_append, List.append_assoc, scan_cons _ (by simp) (by simp),
      e.scan_tokens, List.cons_append, List.nil_append, scan_cons _ (by simp) (by simp)]
    rfl
  | .signed sign t => by
    rw [Factor.tokens, List.cons_append, scan_cons _ (by simp [Token.additive])
      (by simp [Token.additive]), t.scan_tokens]
    cases sign <;> rfl

end

theorem Condition.scan_tokens (declared : List String) (rest : List Token) (c : Condition) :
    scan declared (c.tokens ++ rest) =
      if c.left.expr.Bound declared ∧ c.right.expr.Bound declared then scan declared rest
      else none := by
  rw [Condition.tokens, List.append_assoc, List.cons_append, Expression.scan_tokens,
    scan_cons _ (by simp [Token.relational]) (by simp [Token.relational]), Expression.scan_tokens,
    ← ite_and]

/-! ## Trees with a translation -/

section Code

variable {literals : List String} {p : Progress}

mutual

theorem Statement.fits_of_code : ∀ (s : Statement) (p : Progress),
    (s.code literals p).isSome → s.Fits
  | .assign x e, p, h => (Statement.isSome_assign.mp h).1
  | .print e, p, h => (Statement.isSome_print.mp h).1
  | .ifThen c s, p, h => by
    rw [Statement.code_ifThen,
      isSome_bind_iff fun _ => isSome_bind_iff (P := True) fun _ => by simp] at h
    exact ⟨((c.isSome_code _ _).mp h.1).1, s.fits_of_code _ h.2.1⟩
  | .whileDo c s, p, h => by
    rw [Statement.code_whileDo,
      isSome_bind_iff fun _ => isSome_bind_iff (P := True) fun _ => by simp] at h
    exact ⟨((c.isSome_code _ _).mp h.1).1, s.fits_of_code _ h.2.1⟩
  | .ifElse c s t, p, h => by
    obtain ⟨lines, hlines⟩ := Option.isSome_iff_exists.mp h
    rw [Statement.code_ifElse] at hlines
    obtain ⟨condition, hc, hlines⟩ := Option.bind_eq_some_iff.mp hlines
    obtain ⟨x, hx, hlines⟩ := Option.bind_eq_some_iff.mp hlines
    obtain ⟨y, hy, -⟩ := Option.bind_eq_some_iff.mp hlines
    exact ⟨((c.isSome_code p.declared _).mp (by rw [hc]; rfl)).1, s.fits_of_code _ (by rw [hx]; rfl),
      t.fits_of_code _ (by rw [hy]; rfl)⟩
  | .printText _, _, _ => trivial
  | .block b, p, h => b.fits_of_code p h
  | .declare _, _, _ => trivial
  | .skip, _, _ => trivial

theorem Sequence.fits_of_code : ∀ (b : Sequence) (p : Progress),
    (b.code literals p).isSome → b.Fits
  | .last s, p, h => s.fits_of_code p h
  | .more s b, p, h => by
    obtain ⟨lines, hlines⟩ := Option.isSome_iff_exists.mp h
    rw [Sequence.code_more] at hlines
    obtain ⟨x, hx, hlines⟩ := Option.bind_eq_some_iff.mp hlines
    obtain ⟨y, hy, -⟩ := Option.bind_eq_some_iff.mp hlines
    exact ⟨s.fits_of_code _ (by rw [hx]; rfl), b.fits_of_code _ (by rw [hy]; rfl)⟩

end

theorem bind_eq_ite {α β : Type} {x : Option α} {P : Prop} [Decidable P] (h : x.isSome ↔ P)
    {f : α → Option β} {y : Option β} (hf : ∀ a, x = some a → f a = y) :
    x.bind f = if P then y else none := by
  cases x with
  | none => simp [← h]
  | some a => simp [← h, hf a rfl]

theorem Statement.progress_of_code {s : Statement} {result : List Line × Progress}
    (hs : (∃ x e, s = .assign x e) ∨ ∃ e, s = .print e)
    (h : s.code literals p = some result) : result.2 = p := by
  obtain ⟨x, e, rfl⟩ | ⟨e, rfl⟩ := hs
  · rw [Statement.code_assign] at h
    obtain ⟨_, -, h⟩ := Option.bind_eq_some_iff.mp h
    obtain ⟨_, -, h⟩ := Option.bind_eq_some_iff.mp h
    obtain ⟨_, -, h⟩ := Option.bind_eq_some_iff.mp h
    cases h
    rfl
  · rw [Statement.code_print] at h
    obtain ⟨_, -, h⟩ := Option.bind_eq_some_iff.mp h
    obtain ⟨_, -, h⟩ := Option.bind_eq_some_iff.mp h
    cases h
    rfl

mutual

/-- In a tree that fits, the code is there exactly if the tokens are scanned, with the same names
declared at the end. -/
theorem Statement.scan_tokens : ∀ (s : Statement) (p : Progress) (rest : List Token), s.Fits →
    (∀ literal ∈ s.literals, literal ∈ literals) →
    scan p.declared (s.tokens ++ rest) =
      (s.code literals p).bind fun x => scan x.2.declared rest
  | .assign x e, p, rest, hf, _ => by
    have hsome : ((Statement.assign x e).code literals p).isSome ↔
        x ∈ p.declared ∧ e.expr.Bound p.declared := by
      rw [Statement.isSome_assign, and_iff_right (show e.expr.useNeed ≤ registerCount from hf)]
    rw [bind_eq_ite hsome fun a ha => by
        rw [Statement.progress_of_code (.inl ⟨x, e, rfl⟩) ha],
      Statement.tokens, List.cons_append, scan_use, List.cons_append,
      scan_cons _ (by simp) (by simp), e.scan_tokens, ite_and]
  | .print e, p, rest, hf, _ => by
    have hsome : ((Statement.print e).code literals p).isSome ↔ e.expr.Bound p.declared := by
      rw [Statement.isSome_print, and_iff_right (show e.expr.useNeed ≤ registerCount from hf)]
    rw [bind_eq_ite hsome fun a ha => by
        rw [Statement.progress_of_code (.inr ⟨e, rfl⟩) ha],
      Statement.tokens, List.cons_append, scan_cons _ (by simp) (by simp), e.scan_tokens]
  | .printText literal, p, rest, _, hl => by
    obtain ⟨i, hi⟩ := Option.isSome_iff_exists.mp
      (List.isSome_idxOf?.mpr (hl literal List.mem_cons_self))
    have hoperand : ((Value.text literal).operand? p.declared literals 0).isSome := by
      simp [Value.operand?, Register.above?, Value.load?, literalLabel?, hi]
    obtain ⟨y, hy⟩ := Option.isSome_iff_exists.mp hoperand
    rw [Statement.code_printText, hy, Statement.tokens, List.cons_append, List.cons_append,
      List.nil_append, scan_cons _ (by simp) (by simp), scan_cons _ (by simp) (by simp)]
    rfl
  | .declare x, p, rest, _, _ => by
    rw [Statement.tokens, List.cons_append, List.cons_append, List.nil_append, scan, Statement.code]
    split <;> rfl
  | .skip, p, rest, _, _ => rfl
  | .block b, p, rest, hf, hl => by
    rw [Statement.tokens, List.cons_append, List.append_assoc, scan_cons _ (by simp) (by simp),
      b.scan_tokens p _ hf hl]
    rfl
  | .ifThen c s, p, rest, hf, hl => by
    have ih := s.scan_tokens { p with labels := p.labels + 1 } rest hf.2 hl
    simp only [Statement.code_ifThen, Option.bind_assoc, Option.bind_some]
    rw [bind_eq_ite (c.isSome_bound hf.1) fun _ _ => rfl, Statement.tokens, List.cons_append,
      scan_cons _ (by simp) (by simp), List.append_assoc, c.scan_tokens, List.cons_append,
      scan_cons _ (by simp) (by simp)]
    exact if_congr Iff.rfl ih rfl
  | .whileDo c s, p, rest, hf, hl => by
    have ih := s.scan_tokens { p with labels := p.labels + 1 } rest hf.2 hl
    simp only [Statement.code_whileDo, Option.bind_assoc, Option.bind_some]
    rw [bind_eq_ite (c.isSome_bound hf.1) fun _ _ => rfl, Statement.tokens, List.cons_append,
      scan_cons _ (by simp) (by simp), List.append_assoc, c.scan_tokens, List.cons_append,
      scan_cons _ (by simp) (by simp)]
    exact if_congr Iff.rfl ih rfl
  | .ifElse c s t, p, rest, hf, hl => by
    obtain ⟨hl, hl'⟩ := List.forall_mem_append.mp hl
    have ih := s.scan_tokens { p with labels := p.labels + 1 }
      (⟨.elseWord, "else"⟩ :: (t.tokens ++ rest)) hf.2.1 hl
    simp only [Statement.code_ifElse, Option.bind_assoc, Option.bind_some]
    rw [bind_eq_ite (c.isSome_bound hf.1) fun _ _ => rfl, Statement.tokens, List.cons_append,
      scan_cons _ (by simp) (by simp), List.append_assoc, c.scan_tokens, List.cons_append,
      scan_cons _ (by simp) (by simp), List.append_assoc, List.cons_append]
    refine if_congr Iff.rfl (ih.trans ?_) rfl
    refine congrArg _ (funext fun x => ?_)
    rw [scan_cons _ (by simp) (by simp), t.scan_tokens x.2 rest hf.2.2 hl']

theorem Sequence.scan_tokens : ∀ (b : Sequence) (p : Progress) (rest : List Token), b.Fits →
    (∀ literal ∈ b.literals, literal ∈ literals) →
    scan p.declared (b.tokens ++ rest) =
      (b.code literals p).bind fun x => scan x.2.declared rest
  | .last s, p, rest, hf, hl => s.scan_tokens p rest hf hl
  | .more s b, p, rest, hf, hl => by
    obtain ⟨hl, hl'⟩ := List.forall_mem_append.mp hl
    simp only [Sequence.code_more, Option.bind_assoc, Option.bind_some]
    rw [Sequence.tokens, List.append_assoc, s.scan_tokens p _ hf.1 hl]
    refine congrArg _ (funext fun x => ?_)
    rw [List.cons_append, scan_cons _ (by simp) (by simp), b.scan_tokens x.2 rest hf.2 hl']

end

end Code

/-- A tree has a translation exactly if its names are declared once and before they are used and
its expressions fit into the registers. -/
theorem Sequence.isSome_code (tree : Sequence) :
    (tree.code tree.distinctLiterals {}).isSome ↔ Scoped tree.tokens ∧ tree.Fits := by
  have hliterals : ∀ literal ∈ tree.literals, literal ∈ tree.distinctLiterals := fun _ h =>
    List.mem_eraseDups.mpr h
  have hscoped : Scoped tree.tokens ↔ (scan [] tree.tokens).isSome := by
    rw [isSome_scan]
    simp only [Scoped, List.not_mem_nil]
  have hscan : tree.Fits → scan [] tree.tokens =
      (tree.code tree.distinctLiterals {}).bind fun x => some x.2.declared := fun hf => by
    have := tree.scan_tokens {} [] hf hliterals
    rwa [List.append_nil] at this
  rw [hscoped]
  constructor
  · intro h
    have hf := tree.fits_of_code {} h
    rw [hscan hf, isSome_bind_iff (P := True) fun _ => by simp]
    exact ⟨⟨h, trivial⟩, hf⟩
  · rintro ⟨h, hf⟩
    rw [hscan hf, isSome_bind_iff (P := True) fun _ => by simp] at h
    exact h.1

/-! ## Programs that compile -/

/-- A program compiles exactly if the lexer comes to its end, the kinds of its tokens are a sentence
of the grammar, every name is declared once and before it is used, and every expression of its parse
tree fits into the registers. -/
theorem compile_ok_iff (source : String) :
    (∃ a, compile Assembly (.ofText source) = .ok a) ↔
      ∃ body final, Lexer.lexemes (.ofText source) = (body ++ [final]).map .ok ∧
        final.kind = .endOfInput ∧
        body.map Lexeme.kind ∈ language.contextFree.language ∧
        Scoped (body.map Lexeme.token) ∧
        ∀ tree : Sequence, tree.Parses body → tree.Fits := by
  constructor
  · rintro ⟨a, h⟩
    obtain ⟨body, final, hl, hf, hsentence⟩ := exists_sentence_of_compile h
    have hcode : ∀ tree : Sequence, tree.Parses body →
        (tree.code tree.distinctLiterals {}).isSome := by
      intro tree ht
      obtain ⟨code, progress, hcode, -⟩ := exists_code_of_compile h hl hf ht
      rw [hcode]
      rfl
    obtain ⟨tree, ht⟩ := exists_parse hsentence (spelled_of_lexemes hl hf)
    refine ⟨body, final, hl, hf, hsentence, ?_, fun tree ht => ?_⟩
    · rw [← ht.spelling]
      exact (tree.isSome_code.mp (hcode tree ht)).1
    · exact (tree.isSome_code.mp (hcode tree ht)).2
  · rintro ⟨body, final, hl, hf, hsentence, hscoped, hfits⟩
    obtain ⟨tree, ht⟩ := exists_parse hsentence (spelled_of_lexemes hl hf)
    have hcode := tree.isSome_code.mpr ⟨ht.spelling ▸ hscoped, hfits tree ht⟩
    obtain ⟨result, hresult⟩ := Option.isSome_iff_exists.mp hcode
    have hcompile := compile_of_parses hl hf ht
    rw [hresult] at hcompile
    obtain ⟨a, ha, -⟩ := hcompile
    exact ⟨a, ha⟩

end OnePass
