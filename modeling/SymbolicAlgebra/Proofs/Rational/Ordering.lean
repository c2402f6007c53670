import Mathlib.Algebra.BigOperators.Group.Finset.Defs
import Mathlib.Tactic.NormNum
import SymbolicAlgebra.Proofs.Rational.Arithmetic

/-!
# Sorting chains keeps values

The value of a chain of summands is the sum over its terms, that of a chain of factors the product.
-/

namespace SymbolicAlgebra.Interpretation

open SymbolicAlgebra.Expr SymbolicAlgebra.Rules SymbolicAlgebra.Chain

variable (I : Interpretation) {t a b : Expr}

theorem summandsAs_spec (negated : Bool) (t : Expr) (h : I.Defined t) :
    (∀ x ∈ summandsAs negated t, I.Defined x) ∧
      ((summandsAs negated t).map I.value).sum = if negated then -I.value t else I.value t := by
  induction t generalizing negated with
  | binary op a b iha ihb =>
    cases op with
    | sum =>
      obtain ⟨hdefa, ha⟩ := iha negated h.1
      obtain ⟨hdefb, hb⟩ := ihb negated h.2
      refine ⟨fun x hx => (List.mem_append.mp hx).elim (hdefa x) (hdefb x), ?_⟩
      rw [summandsAs, List.map_append, List.sum_append, ha, hb, value_sum]
      grind
    | difference =>
      obtain ⟨hdefa, ha⟩ := iha negated h.1
      obtain ⟨hdefb, hb⟩ := ihb (!negated) h.2
      refine ⟨fun x hx => (List.mem_append.mp hx).elim (hdefa x) (hdefb x), ?_⟩
      rw [summandsAs, List.map_append, List.sum_append, ha, hb, value_difference]
      grind
    | _ => cases negated <;> simpa [summandsAs, negate] using h
  | var x => cases negated <;> simp [summandsAs, negate]
  | _ => cases negated <;> simpa [summandsAs, negate] using h

theorem factorsAs_spec (inverted : Bool) (t : Expr) (h : I.Defined t)
    (hne : inverted = true → I.value t ≠ 0) :
    (∀ x ∈ factorsAs inverted t, I.Defined x) ∧
      ((factorsAs inverted t).map I.value).prod =
        if inverted then (I.value t)⁻¹ else I.value t := by
  fun_induction factorsAs inverted t with
  | case1 inverted a b iha ihb =>
    rw [value_product] at hne ⊢
    obtain ⟨hdefa, ha⟩ := iha h.1 fun hi => left_ne_zero_of_mul (hne hi)
    obtain ⟨hdefb, hb⟩ := ihb h.2 fun hi => right_ne_zero_of_mul (hne hi)
    refine ⟨fun x hx => (List.mem_append.mp hx).elim (hdefa x) (hdefb x), ?_⟩
    rw [List.map_append, List.prod_append, ha, hb]
    cases inverted
    · rfl
    · exact (mul_inv _ _).symm
  | case2 inverted a b iha ihb =>
    rw [value_quotient] at hne ⊢
    obtain ⟨hdefa, ha⟩ := iha h.1 fun hi => (div_ne_zero_iff.mp (hne hi)).1
    obtain ⟨hdefb, hb⟩ := ihb h.2.1 fun _ => h.2.2
    refine ⟨fun x hx => (List.mem_append.mp hx).elim (hdefa x) (hdefb x), ?_⟩
    rw [List.map_append, List.prod_append, ha, hb]
    cases inverted
    · exact (div_eq_mul_inv _ _).symm
    · simp [div_eq_mul_inv, mul_comm]
  | case3 =>
    split_ifs with hinverted
    · have hne : I.value _ ≠ 0 := hne hinverted
      have hpower := (I.defined_power_int _ (n := -1) (by decide)).mpr ⟨h, Or.inl hne⟩
      simpa using hpower
    · simpa using h

theorem prod_ofAdd_value (ts : List Expr) :
    (ts.map fun t => Multiplicative.ofAdd (I.value t)).prod =
      Multiplicative.ofAdd (ts.map I.value).sum := by
  rw [ofAdd_list_prod, List.map_map]
  rfl

/-- Values add up along joined summands. -/
theorem folds_joinSum :
    Folds I.Defined (fun t => Multiplicative.ofAdd (I.value t)) joinSum := by
  have hspec : ∀ {a b}, I.Defined a → I.Defined b →
      I.Defined (joinSum a b) ∧ I.value (joinSum a b) = I.value a + I.value b := by
    intro a b ha hb
    unfold joinSum
    split
    · split_ifs with hminus
      · rw [isInt_iff.mp (Bool.and_eq_true_iff.mp hminus).1] at hb ⊢
        exact ⟨⟨ha, hb.2⟩, by simp [sub_eq_add_neg]⟩
      · exact ⟨⟨ha, hb⟩, rfl⟩
    · exact ⟨⟨ha, hb⟩, rfl⟩
  exact ⟨fun ha hb => (hspec ha hb).1, fun ha hb => congrArg Multiplicative.ofAdd (hspec ha hb).2⟩

theorem folds_joinProduct : Folds I.Defined I.value joinProduct := by
  have hspec : ∀ {a b}, I.Defined a → I.Defined b →
      I.Defined (joinProduct a b) ∧ I.value (joinProduct a b) = I.value a * I.value b := by
    intro a b ha hb
    unfold joinProduct
    split
    · split_ifs with hminus
      · rw [isInt_iff.mp (Bool.and_eq_true_iff.mp hminus).1] at hb ⊢
        obtain ⟨hdef, hne⟩ := (I.defined_power_int _ (by decide)).mp hb
        exact ⟨⟨ha, hdef, hne.resolve_right (by decide)⟩, by simp [div_eq_mul_inv]⟩
      · exact ⟨⟨ha, hb⟩, rfl⟩
    · exact ⟨⟨ha, hb⟩, rfl⟩
  exact ⟨fun ha hb => (hspec ha hb).1, fun ha hb => (hspec ha hb).2⟩

/-- A chain keeps its value when it is hung anew from its terms, in any order. -/
theorem refines_of_hung {terms ts : List Expr} {join : Expr → Expr → Expr} {u : Expr}
    (hchain : termChain? t = some ⟨terms, join⟩) (hperm : ts.Perm terms) (hu : Hung join ts u) :
    I.Refines t u := by
  intro h
  obtain ⟨rfl, rfl⟩ | ⟨rfl, rfl⟩ := eq_of_termChain? hchain
  · obtain ⟨hterms, htotal⟩ := I.summandsAs_spec false t h
    obtain ⟨hdef, hvalue⟩ := I.folds_joinSum.hung hu fun x hx => hterms x (hperm.mem_iff.mp hx)
    rw [prod_ofAdd_value, (hperm.map I.value).sum_eq] at hvalue
    exact ⟨hdef, (Multiplicative.ofAdd.injective hvalue).trans htotal⟩
  · obtain ⟨hterms, htotal⟩ := I.factorsAs_spec false t h fun hfalse => by cases hfalse
    obtain ⟨hdef, hvalue⟩ := I.folds_joinProduct.hung hu fun x hx =>
      hterms x (hperm.mem_iff.mp hx)
    rw [(hperm.map I.value).prod_eq] at hvalue
    exact ⟨hdef, hvalue.trans htotal⟩

theorem canonicalSort_refines (level : SortLevel) (t : Expr) :
    I.Refines t (canonicalSort level t) := by
  obtain hsame | ⟨terms, join, hchain, hung⟩ := canonicalSort_eq_or_hung level t
  · exact fun h => hsame.symm ▸ ⟨h, rfl⟩
  · exact I.refines_of_hung hchain (sort_perm level terms) hung

theorem balance_refines (t : Expr) : I.Refines t (balance t) := by
  obtain hsame | ⟨terms, join, hchain, hung⟩ := balance_eq_or_hung t
  · exact fun h => hsame.symm ▸ ⟨h, rfl⟩
  · exact I.refines_of_hung hchain (.refl terms) hung

/-- Sorting and balancing leave a tree defined, with the same value. -/
theorem sorting_and_balancing_keep_value {I : Interpretation} {t : Expr} (h : I.Defined t)
    (level : SortLevel) :
    (I.Defined (canonicalSort level t) ∧ I.value (canonicalSort level t) = I.value t) ∧
      I.Defined (balance t) ∧ I.value (balance t) = I.value t :=
  ⟨I.canonicalSort_refines level t h, I.balance_refines t h⟩

/-- `x / (y / (x / sin y))` at `x = 6` and `y = 2`, with `a + 1` for `sin a`. -/
theorem sorting_and_balancing_keep_value_nestedQuotients :
    let I : Interpretation :=
      { arithmetic fun x => if x = "x" then 6 else 2 with apply := fun _ a => some (a + 1) }
    let t := quotient (var "x") (quotient (var "y") (quotient (var "x") (sin (var "y"))))
    I.Defined t ∧
      (canonicalSort .exact t =
          quotient (quotient (product (var "x") (var "x")) (var "y")) (sin (var "y")) ∧
        I.Defined (canonicalSort .exact t) ∧ I.value (canonicalSort .exact t) = 6) ∧
      balance t = product (quotient (var "x") (var "y")) (quotient (var "x") (sin (var "y"))) ∧
        I.Defined (balance t) ∧ I.value (balance t) = 6 := by
  intro I t
  have hdef : I.Defined t := by
    simp [I, t, Defined, value, Operator.rational, arithmetic]
    norm_num
  have hvalue : I.value t = 6 := by
    simp [I, t, value, Operator.rational, arithmetic]
    norm_num
  obtain ⟨⟨hsort, hsorted⟩, hbalance, hbalanced⟩ := sorting_and_balancing_keep_value hdef .exact
  exact ⟨hdef, ⟨rfl, hsort, hsorted.trans hvalue⟩, rfl, hbalance, hbalanced.trans hvalue⟩

end SymbolicAlgebra.Interpretation
