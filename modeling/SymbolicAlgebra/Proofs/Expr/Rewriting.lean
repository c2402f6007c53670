import Mathlib.Data.List.Forall2
import Mathlib.Logic.Function.Iterate
import SymbolicAlgebra.Expr.Traversal

/-!
# Relations carried through a rewrite

A rewrite is its function applied to the node over the rewritten children, and its sites are the
sites in the children with that node at the end. So a relation between trees that is reflexive,
transitive and compatible with building nodes relates a tree to its rewrite as soon as it relates
every site to the value of the function there.
-/

namespace SymbolicAlgebra

namespace Expr

theorem induction_children {motive : Expr → Prop}
    (node : ∀ t, (∀ u ∈ t.children, motive u) → motive t) (t : Expr) : motive t := by
  induction t with
  | num value => exact node _ (by simp [children])
  | var name => exact node _ (by simp [children])
  | binary op a b iha ihb => exact node _ (by simp [children, iha, ihb])
  | apply f a iha => exact node _ (by simp [children, iha])
  | log base a ihb iha => exact node _ (by simp [children, ihb, iha])
  | derivative a v order iha ihv => exact node _ (by simp [children, iha, ihv])
  | integral a v order iha ihv => exact node _ (by simp [children, iha, ihv])
  | limit a v destination side iha ihv ihd => exact node _ (by simp [children, iha, ihv, ihd])
  | tensor dims elements ih => exact node _ ih

theorem children_of_withChildren {t u : Expr} {ts : List Expr} (h : t.withChildren ts = some u) :
    u.children = ts := by
  unfold withChildren at h
  split at h
  case h_9 =>
    split_ifs at h
    cases h
    rfl
  case h_10 => cases h
  all_goals
    cases h
    rfl

theorem complexity_pos (t : Expr) : 1 ≤ t.complexity := by
  rw [complexity_eq]
  exact Nat.le_add_right 1 _

theorem complexityList_le {ts us : List Expr}
    (h : List.Forall₂ (fun t u => u.complexity ≤ t.complexity) ts us) :
    complexityList us ≤ complexityList ts := by
  induction h with
  | nil => exact Nat.le_refl _
  | cons hhead _ ih => exact Nat.add_le_add hhead ih

theorem sitesList_eq (f : Expr → Expr) (ts : List Expr) :
    sitesList f ts = ts.flatMap (sites f) := by
  induction ts with
  | nil => rfl
  | cons t ts ih => simp [sitesList, ih]

/-- The node over the rewritten children, the last site of a rewrite. -/
theorem exists_rewritten_node (f : Expr → Expr) (t : Expr) :
    ∃ u, t.withChildren (t.children.map (rewrite f)) = some u ∧ t.rewrite f = f u ∧
      t.sites f = t.children.flatMap (sites f) ++ [u] := by
  cases t <;> simp [withChildren, children, rewrite, sites, sitesList_eq]

/-- A rewrite has every property that its function gives to nodes over children that have it. -/
theorem rewrite_induction {motive : Expr → Prop} {f : Expr → Expr}
    (node : ∀ u, (∀ c ∈ u.children, motive c) → motive (f u)) (t : Expr) :
    motive (t.rewrite f) := by
  induction t using induction_children with
  | node t ih =>
    obtain ⟨u, hu, hrewrite, -⟩ := exists_rewritten_node f t
    rw [hrewrite]
    refine node u fun c hc => ?_
    rw [children_of_withChildren hu] at hc
    obtain ⟨c', hc', rfl⟩ := List.mem_map.mp hc
    exact ih c' hc'

theorem withChildren_children (t : Expr) : t.withChildren t.children = some t := by
  cases t <;> simp [withChildren, children]

/-- A tree whose nodes a function leaves alone is left alone by the rewrite. -/
theorem rewrite_eq_of_forall {f : Expr → Expr} {t : Expr} (h : ∀ u ∈ t.preorder, f u = u) :
    t.rewrite f = t := by
  induction t using induction_children with
  | node t ih =>
    rw [preorder_eq] at h
    obtain ⟨u, hu, hrewrite, -⟩ := exists_rewritten_node f t
    have hchildren : t.children.map (rewrite f) = t.children := by
      refine (List.map_congr_left fun c hc => ih c hc fun v hv => ?_).trans (List.map_id' _)
      exact h v (List.mem_cons_of_mem _ (List.mem_flatMap.mpr ⟨c, hc, hv⟩))
    rw [hchildren, withChildren_children] at hu
    cases hu
    rw [hrewrite, h t List.mem_cons_self]

end Expr

/-- Reflexive, transitive, and compatible with building nodes: related children give related
nodes. -/
structure RewriteRelation (R : Expr → Expr → Prop) : Prop where
  refl : ∀ t, R t t
  trans : ∀ {t u v}, R t u → R u v → R t v
  node : ∀ {t u ts}, List.Forall₂ R t.children ts → t.withChildren ts = some u → R t u

namespace RewriteRelation

variable {R : Expr → Expr → Prop} (hR : RewriteRelation R)

include hR

theorem rewrite_of_sites {f : Expr → Expr} {t : Expr} (h : ∀ x ∈ t.sites f, R x (f x)) :
    R t (t.rewrite f) := by
  induction t using Expr.induction_children with
  | node t ih =>
    obtain ⟨u, hu, hrewrite, hsites⟩ := Expr.exists_rewritten_node f t
    rw [hsites] at h
    have hchildren : List.Forall₂ R t.children (t.children.map (Expr.rewrite f)) := by
      rw [List.forall₂_map_right_iff, List.forall₂_same]
      intro c hc
      exact ih c hc fun x hx => h x (List.mem_append_left _ (List.mem_flatMap.mpr ⟨c, hc, hx⟩))
    rw [hrewrite]
    exact hR.trans (hR.node hchildren hu) (h u (by simp))

theorem rewrite {f : Expr → Expr} (h : ∀ x, R x (f x)) (t : Expr) : R t (t.rewrite f) :=
  hR.rewrite_of_sites fun x _ => h x

theorem iterate {f : Expr → Expr} (h : ∀ x, R x (f x)) (k : ℕ) (t : Expr) : R t (f^[k] t) := by
  induction k with
  | zero => exact hR.refl t
  | succ k ih =>
    rw [Function.iterate_succ_apply']
    exact hR.trans ih (h _)

end RewriteRelation

/-- Not growing is carried through rewrites. -/
theorem RewriteRelation.complexity_le :
    RewriteRelation fun t u => u.complexity ≤ t.complexity where
  refl _ := Nat.le_refl _
  trans h h' := Nat.le_trans h' h
  node hchildren hu := by
    rw [Expr.complexity_eq, Expr.children_of_withChildren hu, Expr.complexity_eq]
    exact Nat.add_le_add_left (Expr.complexityList_le hchildren) 1

end SymbolicAlgebra
