import Mathlib.Algebra.BigOperators.Group.List.Basic
import SymbolicAlgebra.Proofs.Chain
import SymbolicAlgebra.Proofs.Expr.Arithmetic
import SymbolicAlgebra.Proofs.Grouping
import SymbolicAlgebra.Rules.Ordering

/-!
# What rebuilding a chain preserves

Where it changes the tree, sorting hangs the sorted terms of a chain and balancing hangs its terms.
So a measure that a join adds up is the same for the rebuilt chain as for its terms, and a property
that a join keeps holds of it. A property that holds of chains term by term is kept by sorting.
-/

namespace SymbolicAlgebra

namespace Chain

variable {α M : Type} [CommMonoid M] {P : α → Prop} {φ : α → M} {join : α → α → α}
  {terms : List α} {t : α}

/-- Joining keeps the property and multiplies the measure. -/
structure Folds (P : α → Prop) (φ : α → M) (join : α → α → α) : Prop where
  keeps : ∀ {a b}, P a → P b → P (join a b)
  measure : ∀ {a b}, P a → P b → φ (join a b) = φ a * φ b

theorem Folds.hung (h : Folds P φ join) (ht : Hung join terms t) (hterms : ∀ x ∈ terms, P x) :
    P t ∧ φ t = (terms.map φ).prod := by
  refine ⟨ht.keeps h.keeps hterms, ?_⟩
  induction ht with
  | leaf x => simp
  | node hl hr ihl ihr =>
    rw [List.forall_mem_append] at hterms
    rw [h.measure (hl.keeps h.keeps hterms.1) (hr.keeps h.keeps hterms.2), ihl hterms.1,
      ihr hterms.2, List.map_append, List.prod_append]

end Chain

namespace Rules

open SymbolicAlgebra.Expr SymbolicAlgebra.Chain

variable {level : SortLevel} {t : Expr} {terms : List Expr} {join : Expr → Expr → Expr}

theorem eq_of_termChain? (h : termChain? t = some ⟨terms, join⟩) :
    (terms = t.summands ∧ join = joinSum) ∨ terms = t.factors ∧ join = joinProduct := by
  unfold termChain? at h
  split at h <;> cases h <;> simp

theorem termChain?_of_isSumLike (h : isSumLike t = true) :
    termChain? t = some ⟨t.summands, joinSum⟩ := by
  unfold isSumLike at h
  split at h <;> first | rfl | cases h

theorem termChain?_of_isProductLike (h : isProductLike t = true) :
    termChain? t = some ⟨t.factors, joinProduct⟩ := by
  unfold isProductLike at h
  split at h <;> first | rfl | cases h

theorem changed_cases (t : Expr) (result : Option Expr) :
    changed t result = t ∨ result = some (changed t result) := by
  unfold changed
  split
  · split_ifs
    · exact Or.inl rfl
    · exact Or.inr rfl
  · exact Or.inl rfl

/-- Sorting leaves a tree, or hangs the groups of a chain in which two terms agree. -/
theorem canonicalSort_cases (hchain : termChain? t = some ⟨terms, join⟩) :
    canonicalSort level t = t ∨
      (level.groups terms).length ≠ terms.length ∧
        hangGroups join (level.groups terms) = some (canonicalSort level t) := by
  simp only [canonicalSort, hchain]
  split_ifs with hlength
  · exact Or.inl rfl
  · exact (changed_cases _ _).imp_right fun h => ⟨hlength, h⟩

theorem hung_canonicalSort (hchain : termChain? t = some ⟨terms, join⟩)
    (hne : canonicalSort level t ≠ t) : Hung join (level.sort terms) (canonicalSort level t) :=
  hung_groups ((canonicalSort_cases hchain).resolve_left hne).2

/-- Sorting leaves a tree, or hangs the sorted terms of a chain. -/
theorem canonicalSort_eq_or_hung (level : SortLevel) (t : Expr) :
    canonicalSort level t = t ∨ ∃ terms join, termChain? t = some ⟨terms, join⟩ ∧
      Hung join (level.sort terms) (canonicalSort level t) := by
  cases hchain : termChain? t with
  | none => exact Or.inl (by simp [canonicalSort, hchain])
  | some chain =>
    by_cases hsame : canonicalSort level t = t
    · exact Or.inl hsame
    · exact Or.inr ⟨chain.terms, chain.join, rfl, hung_canonicalSort hchain hsame⟩

/-- Balancing leaves a tree, or hangs a chain of three terms or more evenly. -/
theorem balance_cases (hchain : termChain? t = some ⟨terms, join⟩) :
    balance t = t ∨ 3 ≤ terms.length ∧ balanced join terms = some (balance t) := by
  simp only [balance, hchain]
  split_ifs with hlength
  · exact Or.inl rfl
  · exact (changed_cases _ _).imp_right fun h => ⟨Nat.not_lt.mp hlength, h⟩

/-- Balancing leaves a tree, or hangs the terms of a chain. -/
theorem balance_eq_or_hung (t : Expr) :
    balance t = t ∨ ∃ terms join, termChain? t = some ⟨terms, join⟩ ∧
      Hung join terms (balance t) := by
  cases hchain : termChain? t with
  | none => exact Or.inl (by simp [balance, hchain])
  | some chain =>
    exact (balance_cases hchain).imp_right fun h =>
      ⟨chain.terms, chain.join, rfl, hung_balanced h.2⟩

theorem sort_perm (level : SortLevel) (terms : List Expr) : (level.sort terms).Perm terms :=
  groups_flatten_perm level.agree terms

/-- A property that a chain has exactly if its terms have it. -/
structure TermWise (P : Expr → Prop) : Prop where
  binary : ∀ {op a b}, op ≠ .power → (P (binary op a b) ↔ P a ∧ P b)
  inverse : ∀ {t}, P (power t (int (-1))) ↔ P t
  minusOne : P (int (-1))

namespace TermWise

variable {P : Expr → Prop} (h : TermWise P)

include h

theorem of_mem_summandsAs {negated : Bool} (ht : P t) : ∀ x ∈ summandsAs negated t, P x := by
  have hleaf : ∀ {u : Expr} (negated : Bool), P u →
      ∀ x ∈ [if negated then negate u else u], P x := by
    intro u negated hu x hx
    rw [List.mem_singleton.mp hx]
    split_ifs
    · exact (h.binary (by decide)).mpr ⟨h.minusOne, hu⟩
    · exact hu
  induction t generalizing negated with
  | binary op a b iha ihb =>
    cases op with
    | sum | difference =>
      obtain ⟨ha, hb⟩ := (h.binary (by decide)).mp ht
      exact fun x hx => (List.mem_append.mp hx).elim (iha ha x) (ihb hb x)
    | _ => exact hleaf negated ht
  | _ => exact hleaf negated ht

theorem of_mem_factorsAs {inverted : Bool} (ht : P t) : ∀ x ∈ factorsAs inverted t, P x := by
  have hleaf : ∀ {u : Expr} (inverted : Bool), P u →
      ∀ x ∈ [if inverted then power u (int (-1)) else u], P x := by
    intro u inverted hu x hx
    rw [List.mem_singleton.mp hx]
    split_ifs
    · exact h.inverse.mpr hu
    · exact hu
  induction t generalizing inverted with
  | binary op a b iha ihb =>
    cases op with
    | product | quotient =>
      obtain ⟨ha, hb⟩ := (h.binary (by decide)).mp ht
      exact fun x hx => (List.mem_append.mp hx).elim (iha ha x) (ihb hb x)
    | _ => exact hleaf inverted ht
  | _ => exact hleaf inverted ht

theorem joinSum {a b : Expr} (ha : P a) (hb : P b) : P (joinSum a b) := by
  unfold Rules.joinSum
  split
  · split_ifs
    · exact (h.binary (by decide)).mpr ⟨ha, ((h.binary (by decide)).mp hb).2⟩
    · exact (h.binary (by decide)).mpr ⟨ha, hb⟩
  · exact (h.binary (by decide)).mpr ⟨ha, hb⟩

theorem joinProduct {a b : Expr} (ha : P a) (hb : P b) : P (joinProduct a b) := by
  unfold Rules.joinProduct
  split
  · split_ifs with hminus
    · rw [isInt_iff.mp (Bool.and_eq_true_iff.mp hminus).1] at hb
      exact (h.binary (by decide)).mpr ⟨ha, h.inverse.mp hb⟩
    · exact (h.binary (by decide)).mpr ⟨ha, hb⟩
  · exact (h.binary (by decide)).mpr ⟨ha, hb⟩

theorem of_hung {ts : List Expr} {u : Expr} (hchain : termChain? t = some ⟨terms, join⟩)
    (hperm : ts.Perm terms) (hu : Hung join ts u) (ht : P t) : P u := by
  obtain ⟨rfl, rfl⟩ | ⟨rfl, rfl⟩ := eq_of_termChain? hchain
  · exact hu.keeps h.joinSum fun x hx => h.of_mem_summandsAs ht x (hperm.mem_iff.mp hx)
  · exact hu.keeps h.joinProduct fun x hx => h.of_mem_factorsAs ht x (hperm.mem_iff.mp hx)

theorem canonicalSort (ht : P t) : P (canonicalSort level t) := by
  obtain hsame | ⟨terms, join, hchain, hung⟩ := canonicalSort_eq_or_hung level t
  · rwa [hsame]
  · exact h.of_hung hchain (sort_perm level terms) hung ht

end TermWise

end Rules

end SymbolicAlgebra
