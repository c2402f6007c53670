import SymbolicAlgebra.Proofs.Expr.Rewriting
import SymbolicAlgebra.Proofs.Simplifier.Run

/-!
# Soundness from the root to the run

A pass is a chain of rewrites and a run returns an iterate of the pass. So a relation that is
carried through rewrites relates a tree to the result of a run as soon as it relates every root to
what the simplifying rules and the folding make of it.
-/

namespace SymbolicAlgebra

open SymbolicAlgebra.Expr

namespace Simplifier

/-- The rules in turn, each with the tree that it is applied to. -/
def stages : List Rule → Expr → List (Rule × Expr)
  | [], _ => []
  | r :: rules, t => (r, t) :: stages rules (r.applyEverywhere t)

theorem mem_of_mem_stages {rules : List Rule} {t : Expr} {stage : Rule × Expr}
    (h : stage ∈ stages rules t) : stage.1 ∈ rules := by
  induction rules generalizing t with
  | nil => simp [stages] at h
  | cons r rules ih =>
    rw [stages, List.mem_cons] at h
    obtain rfl | h := h
    · exact List.mem_cons_self
    · exact List.mem_cons_of_mem r (ih h)

theorem mem_simplifying {s : Simplifier} {r : Rule} :
    r ∈ s.simplifying ↔ r ∈ s.catalog ∧ r.kind = .simplifying := by
  simp [simplifying, Catalog.ofKind]

theorem mem_standard {settings : Settings} {r : Rule} (h : r ∈ (ofSettings settings).catalog) :
    r ∈ Catalog.standard settings.sortLevel := by
  simp only [ofSettings] at h
  split_ifs at h
  · exact h
  · exact List.mem_of_mem_filter h

end Simplifier

theorem Folding.complexity_foldNode_le (t : Expr) : (foldNode t).complexity ≤ t.complexity := by
  refine Template.rewrite_of_forall (R := fun t u => u.complexity ≤ t.complexity) le_rfl ?_
  intro template hmem u hu
  simp only [family, List.mem_cons, List.not_mem_nil, or_false] at hmem
  obtain rfl | rfl | rfl | rfl | rfl | rfl | rfl | rfl | rfl | rfl | rfl | rfl | rfl := hmem
  case inl =>
    unfold literals at hu
    split at hu
    · obtain ⟨value, -, rfl⟩ := Option.map_eq_some_iff.mp hu
      simp [complexity]
    · cases hu
  all_goals
    simp only [sumWithZero, sumWithNegated, negatedInSum, differenceWithZero,
      differenceWithNegated, productWithOne, productWithZero, quotientByOne, quotientOfZero,
      powerToOne, powerToZero, powerOfOne] at hu
    split at hu
    · split_ifs at hu <;> cases hu <;> simp [complexity, negate, complexity_pos] <;> omega
    · cases hu

theorem Rules.complexity_invertNegativeMultipliers_le (t : Expr) :
    (invertNegativeMultipliers t).complexity ≤ t.complexity := by
  refine Template.rewrite_of_forall (R := fun t u => u.complexity ≤ t.complexity) le_rfl ?_
  intro template hmem u hu
  rw [List.mem_singleton.mp hmem] at hu
  unfold negativeMultiplier at hu
  split at hu
  · split_ifs at hu
    cases hu
    simp [complexity]
  · cases hu

namespace RewriteRelation

open Simplifier

variable {R : Expr → Expr → Prop} (hR : RewriteRelation R)

include hR

theorem applyAll_of_stages {rules : List Rule} {t : Expr}
    (h : ∀ stage ∈ stages rules t, ∀ x ∈ stage.2.sites stage.1.apply, R x (stage.1.apply x)) :
    R t (applyAll rules t) := by
  induction rules generalizing t with
  | nil => exact hR.refl t
  | cons r rules ih =>
    have hfirst : R t (r.applyEverywhere t) :=
      hR.rewrite_of_sites (h (r, t) List.mem_cons_self)
    exact hR.trans hfirst (ih fun stage hstage => h stage (List.mem_cons_of_mem (r, t) hstage))

/-- If a relation that is carried through rewrites holds at the root for every simplifying rule and
for folding, then it holds between a tree and a pass over it and between a tree and the result of a
run. -/
theorem pass_and_simplify (s : Simplifier)
    (hrules : ∀ r ∈ s.catalog, r.kind = .simplifying → ∀ x, R x (r.apply x))
    (hfold : ∀ x, R x (Folding.foldNode x)) (t : Expr) :
    R t (s.pass t) ∧ R t (s.simplify t) := by
  have hpass : ∀ u, R u (s.pass u) := by
    intro u
    have hall : R u (applyAll s.simplifying u) := by
      refine hR.applyAll_of_stages fun stage hstage x _ => ?_
      obtain ⟨hmem, hkind⟩ := mem_simplifying.mp (mem_of_mem_stages hstage)
      exact hrules stage.1 hmem hkind x
    exact hR.trans hall (hR.rewrite hfold _)
  obtain ⟨k, -, hk⟩ := s.simplify_eq_iterate t
  rw [hk]
  exact ⟨hpass t, hR.iterate hpass k t⟩

omit hR in
theorem pass_and_simplify_complexity_le :
    let s : Simplifier :=
      ⟨{ maxPasses := 5 },
        [⟨"invert_negative_multipliers", .simplifying, Rules.invertNegativeMultipliers,
            fun _ => []⟩,
          ⟨"optimize", .expanding, Rules.balance, fun _ => []⟩]⟩
    let t := sum (var "x") (product (int (-2)) (product (var "y") (int 1)))
    ((s.pass t).complexity ≤ 7 ∧ (s.simplify t).complexity ≤ 7) ∧
      (s.simplify t == difference (var "x") (product (int 2) (var "y"))) = true := by
  intro s t
  have hfold := Folding.complexity_foldNode_le
  refine ⟨complexity_le.pass_and_simplify s (fun r hr hkind x => ?_) hfold t, by decide +kernel⟩
  simp only [s, List.mem_cons, List.not_mem_nil, or_false] at hr
  obtain rfl | rfl := hr
  · exact Rules.complexity_invertNegativeMultipliers_le x
  · cases hkind

end RewriteRelation

end SymbolicAlgebra
