import Mathlib.Tactic.ByContra
import Mathlib.Tactic.SplitIfs
import SymbolicAlgebra.Polynomial
import SymbolicAlgebra.Proofs.Expr.Variables

/-!
# Trees that are polynomials

What a polynomial takes as a constant is evaluated, so it has no free variables. A tree that is read
as a polynomial in a variable therefore has no other free variables.
-/

namespace SymbolicAlgebra.Polynomial

open SymbolicAlgebra.Expr

variable {t : Expr} {name : String}

theorem freeVariables_of_constant? {p : Polynomial} (h : constant? name t = some p) :
    t.freeVariables = [] := by
  unfold constant? at h
  split_ifs at h with hconstant
  rw [Bool.and_eq_true] at hconstant
  exact freeVariables_of_canBeEvaluated hconstant.2

theorem freeVariables_of_value? {c : Number} (h : t.value? = some c) : t.freeVariables = [] := by
  refine freeVariables_of_canBeEvaluated ?_
  by_contra hcan
  simp [value?, eval, hcan, Except.toOption] at h

theorem freeVariables_of_divisor? {c : Number} (h : divisor? t = some c) : t.freeVariables = [] :=
  freeVariables_of_value? (Option.filter_eq_some_iff.mp h).1

/-- A polynomial in a variable has no other free variables. -/
theorem eq_of_mem_freeVariables {p : Polynomial} (h : ofExpr? name t = some p) {x : String}
    (hx : x ∈ t.freeVariables) : x = name := by
  have hconstant : ∀ {t : Expr} {p : Polynomial}, (constant? name t).map trim = some p →
      x ∉ t.freeVariables := by
    intro t p ht
    obtain ⟨q, hq, -⟩ := Option.map_eq_some_iff.mp ht
    rw [freeVariables_of_constant? hq]
    exact List.not_mem_nil
  induction t generalizing p with
  | num c => cases hx
  | var y =>
    rw [ofExpr?] at h
    split_ifs at h with hy
    · simpa [hy, mem_freeVariables, preorder] using (mem_freeVariables.mp hx).1
    · exact absurd hx (hconstant h)
  | binary op a b iha ihb =>
    have hunion : x ∈ a.freeVariables ∨ x ∈ b.freeVariables := Names.mem_union.mp hx
    cases op with
    | sum | difference | product =>
      obtain ⟨q, hq, h⟩ := Option.bind_eq_some_iff.mp h
      obtain ⟨r, hr⟩ : ∃ r, ofExpr? name b = some r := by
        cases hr : ofExpr? name b <;> simp [hr] at h ⊢
      exact hunion.elim (iha hq) (ihb hr)
    | quotient =>
      simp only [ofExpr?] at h
      split_ifs at h
      · exact absurd hx (hconstant h)
      · obtain ⟨c, hc, h⟩ := Option.bind_eq_some_iff.mp h
        obtain ⟨q, hq, -⟩ := Option.map_eq_some_iff.mp h
        rw [freeVariables_of_divisor? hc] at hunion
        exact hunion.elim (iha hq) fun hb => by cases hb
    | power =>
      obtain ⟨k, hk, h⟩ := Option.bind_eq_some_iff.mp h
      obtain ⟨q, hq, -⟩ := Option.bind_eq_some_iff.mp h
      have hexponent : b.freeVariables = [] := by
        unfold degreeExponent? at hk
        split at hk
        · rfl
        · cases hk
      rw [hexponent] at hunion
      exact hunion.elim (iha hq) fun hb => by cases hb
  | _ => exact absurd hx (hconstant h)

end SymbolicAlgebra.Polynomial
