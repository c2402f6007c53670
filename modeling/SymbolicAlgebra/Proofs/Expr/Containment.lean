import SymbolicAlgebra.Proofs.Expr.Rewriting
import SymbolicAlgebra.Proofs.Expr.Variables

/-!
# Containment

A tree contains another if one of its nodes is the same tree, for a variable as for anything else.
Substituting for a tree that is not contained changes nothing. Otherwise the tree is gone afterwards,
provided that its replacement does not contain it: a node that comes to be the same tree only
because something was replaced below it is replaced in its turn.
-/

namespace SymbolicAlgebra.Expr

variable {t x v : Expr}

theorem contains_iff : t.contains x = true ↔ ∃ y ∈ t.preorder, (y == x) = true := by
  cases x with
  | var name =>
    rw [contains_var]
    simp only [beq_var_iff, exists_eq_right]
  | _ => exact List.any_eq_true

theorem contains_eq_false_iff : t.contains x = false ↔ ∀ y ∈ t.preorder, (y == x) = false := by
  rw [Bool.eq_false_iff, ne_eq, contains_iff]
  simp

/-- A tree contains what it is and what its children contain. -/
theorem contains_iff_children :
    t.contains x = true ↔ (t == x) = true ∨ ∃ c ∈ t.children, c.contains x = true := by
  simp only [contains_iff]
  rw [preorder_eq]
  constructor
  · rintro ⟨y, hy, hsame⟩
    obtain rfl | hy := List.mem_cons.mp hy
    · exact Or.inl hsame
    · obtain ⟨c, hc, hy⟩ := List.mem_flatMap.mp hy
      exact Or.inr ⟨c, hc, y, hy, hsame⟩
  · rintro (hsame | ⟨c, hc, y, hy, hsame⟩)
    · exact ⟨t, List.mem_cons_self, hsame⟩
    · exact ⟨y, List.mem_cons_of_mem t (List.mem_flatMap.mpr ⟨c, hc, hy⟩), hsame⟩

theorem substitute_of_not_contains (h : t.contains x = false) : t.substitute x v = t := by
  rw [contains_eq_false_iff] at h
  refine rewrite_eq_of_forall fun u hu => ?_
  rw [h u hu]
  rfl

/-- The induction is on the rewrite: over children without `x`, a node either is `x` and gives way to
`v`, or has no `x` in it. -/
theorem not_contains_substitute (h : v.contains x = false) :
    (t.substitute x v).contains x = false := by
  refine rewrite_induction (motive := fun u => u.contains x = false) (fun u hchildren => ?_) t
  by_cases hu : (u == x) = true
  · rwa [if_pos hu]
  · rw [if_neg hu, Bool.eq_false_iff, ne_eq, contains_iff_children, not_or]
    refine ⟨hu, fun ⟨c, hc, hcontains⟩ => ?_⟩
    rw [hchildren c hc] at hcontains
    cases hcontains

/-- Without an occurrence there is nothing to substitute for, and after a substitution no occurrence
is left, unless the replacement brings it in. -/
theorem substitute_eliminates (t x v : Expr) :
    (t.contains x = false → t.substitute x v = t) ∧
      (v.contains x = false → (t.substitute x v).contains x = false) :=
  ⟨substitute_of_not_contains, not_contains_substitute⟩

/-- In `cos (sin (sin (sin y)))` each sine is the same as `sin y` only once the one below it has given
way to `y`. -/
theorem substitute_eliminates_nested :
    let x := sin (var "y")
    let t := cos (sin (sin x))
    t.contains x = true ∧ (var "y").contains x = false ∧
      t.substitute x (var "y") = cos (var "y") ∧ (t.substitute x (var "y")).contains x = false ∧
      (cos (var "y")).contains x = false ∧ (cos (var "y")).substitute x t = cos (var "y") := by
  intro x t
  have hvalue : (var "y").contains x = false := rfl
  have hcos : (cos (var "y")).contains x = false := rfl
  exact ⟨rfl, hvalue, rfl, (substitute_eliminates t x (var "y")).2 hvalue, hcos,
    (substitute_eliminates (cos (var "y")) x t).1 hcos⟩

end SymbolicAlgebra.Expr
