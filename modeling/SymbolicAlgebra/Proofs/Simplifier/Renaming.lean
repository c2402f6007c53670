import SymbolicAlgebra.Proofs.Rules.Renaming
import SymbolicAlgebra.Proofs.Simplifier.Soundness

/-!
# Runs on renamed trees

The run on a renamed tree is the run on the tree, visit by visit, with every tree renamed: which
trees are the same and how complex they are does not depend on names. So simplification does not
depend on how variables are named.
-/

namespace SymbolicAlgebra

open SymbolicAlgebra.Expr

variable {s : Renaming}

namespace Folding

theorem foldNode_rename (s : Renaming) (t : Expr) :
    foldNode (t.rename s) = (foldNode t).rename s :=
  Template.rewrite_rename respects_family t

theorem fold_rename (s : Renaming) (t : Expr) : fold (t.rename s) = (fold t).rename s :=
  rewrite_rename (foldNode_rename s) t

end Folding

def Visit.rename (s : Renaming) (v : Visit) : Visit :=
  ⟨v.before.rename s, v.tree.rename s, v.progress⟩

namespace Simplifier

theorem applyAll_rename {rules : List Rule}
    (h : ∀ r ∈ rules, ∀ t, r.applyEverywhere (t.rename s) = (r.applyEverywhere t).rename s)
    (t : Expr) : applyAll rules (t.rename s) = (applyAll rules t).rename s := by
  induction rules generalizing t with
  | nil => rfl
  | cons r rules ih =>
    simp only [applyAll, List.foldl_cons] at ih ⊢
    rw [h r List.mem_cons_self, ih fun r' hr' => h r' (List.mem_cons_of_mem r hr')]

theorem pass_rename (s : Renaming) (settings : Settings) (t : Expr) :
    (ofSettings settings).pass (t.rename s) = ((ofSettings settings).pass t).rename s := by
  have hrules : ∀ r ∈ (ofSettings settings).simplifying, ∀ t,
      r.applyEverywhere (t.rename s) = (r.applyEverywhere t).rename s := fun r hr =>
    Catalog.applyEverywhere_rename s (mem_standard (mem_simplifying.mp hr).1)
  rw [pass, applyAll_rename hrules, Folding.fold_rename, pass]

theorem any_same_rename (s : Renaming) (t : Expr) (seen : List Expr) :
    (seen.map (Expr.rename s)).any (t.rename s == ·) = seen.any (t == ·) := by
  rw [List.any_map]
  simp only [Function.comp_def, same_rename]

/-- The passes meet the renamed trees and go on or stop alike. -/
theorem visits_rename {step : Expr → Expr} (h : ∀ t, step (t.rename s) = (step t).rename s)
    (n : ℕ) (seen : List Expr) (t : Expr) :
    visits step n (seen.map (Expr.rename s)) (t.rename s) =
      (visits step n seen t).map (Visit.rename s) := by
  induction n generalizing seen t with
  | zero => rfl
  | succ n ih =>
    simp only [visits, h, same_rename, any_same_rename, ← List.map_cons, ih]
    split_ifs <;> rfl

theorem candidates_rename (s : Renaming) (history : List Visit) :
    candidates (history.map (Visit.rename s)) = (candidates history).map (Expr.rename s) := by
  rw [candidates, candidates, List.filter_map, List.map_map, List.map_map]
  rfl

theorem foldl_better_rename (s : Renaming) (trees : List Expr) (best : Expr) :
    (trees.map (Expr.rename s)).foldl better (best.rename s) =
      (trees.foldl better best).rename s := by
  have hbetter : ∀ best t : Expr,
      better (best.rename s) (t.rename s) = (better best t).rename s := by
    intro best t
    rw [better, better, complexity_rename, complexity_rename]
    split_ifs <;> rfl
  induction trees generalizing best with
  | nil => rfl
  | cons t trees ih => rw [List.map_cons, List.foldl_cons, List.foldl_cons, hbetter, ih]

theorem simplify_rename (s : Renaming) (settings : Settings) (t : Expr) :
    (ofSettings settings).simplify (t.rename s) = ((ofSettings settings).simplify t).rename s := by
  have hvisits := visits_rename (pass_rename s settings) settings.maxPasses [t] t
  have hhistory : (ofSettings settings).history (t.rename s) =
      ((ofSettings settings).history t).map (Visit.rename s) := hvisits
  rw [simplify, hhistory, candidates_rename, foldl_better_rename, simplify]

/-- Simplification does not depend on how variables are named: the run, a pass, folding and every
standard rule commute with every renaming. -/
theorem simplification_rename (s : Renaming) :
    (∀ settings t, (ofSettings settings).simplify (t.rename s) =
      ((ofSettings settings).simplify t).rename s) ∧
    (∀ settings t, (ofSettings settings).pass (t.rename s) =
      ((ofSettings settings).pass t).rename s) ∧
    (∀ t : Expr, Folding.fold (t.rename s) = (Folding.fold t).rename s) ∧
    ∀ level, ∀ r ∈ Catalog.standard level, ∀ t,
      r.apply (t.rename s) = (r.apply t).rename s ∧
        r.applyEverywhere (t.rename s) = (r.applyEverywhere t).rename s :=
  ⟨simplify_rename s, pass_rename s, Folding.fold_rename s, fun _ _ hr t =>
    ⟨Catalog.apply_rename s hr t, Catalog.applyEverywhere_rename s hr t⟩⟩

/-- Sorting gathers the terms in `x`, and after exchanging the names those in `y`. -/
theorem simplification_rename_swap :
    ∃ s : Renaming, s.toFun "x" = "y" ∧ ∃ r ∈ Catalog.standard .loose, r.name = "canonical_sort" ∧
      r.apply ((sum (sum (var "x") (var "y")) (power (var "x") (int 2))).rename s) =
        (sum (sum (var "x") (power (var "x") (int 2))) (var "y")).rename s := by
  let r : Rule :=
    { name := "canonical_sort", kind := .simplifying, apply := Rules.canonicalSort .loose }
  have hr : r ∈ Catalog.standard .loose := by simp [r, Catalog.standard, Catalog.withDivider]
  refine ⟨.swap (x := "x") (y := "y") rfl rfl, Equiv.swap_apply_left "x" "y", r, hr, rfl, ?_⟩
  rw [((simplification_rename _).2.2.2 .loose r hr _).1]
  rfl

end Simplifier

end SymbolicAlgebra
