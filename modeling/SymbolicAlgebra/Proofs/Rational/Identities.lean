import SymbolicAlgebra.Proofs.Rational.Powers
import SymbolicAlgebra.Proofs.Rational.Range
import SymbolicAlgebra.Proofs.Rules.Exactness
import SymbolicAlgebra.Rules.Divisions

/-!
# Rules that are identities

The rules of arithmetic, the preparation of divisions and the removal of negative powers and
multiples keep the value of a tree wherever it has one. The rules of powers keep it over bases other
than zero, if they raise no literal to an exponent out of the range of exact powers.
-/

namespace SymbolicAlgebra.Interpretation

open SymbolicAlgebra.Expr SymbolicAlgebra.Rules

variable (I : Interpretation) {t : Expr}

/-- Wherever a tree has a value, these rules give one that has the same value. That holds in either
reading of a zeroth power, so also where an operand without a value leaves none. -/
theorem rules_keep_value (hdef : I.Defined t) :
    ∀ rule ∈ [common, prepareDivisions, invertNegativePowers, invertNegativeMultipliers],
      I.Defined (rule t) ∧ I.value (rule t) = I.value t := by
  intro rule hrule
  simp only [List.mem_cons, List.not_mem_nil, or_false] at hrule
  obtain rfl | rfl | rfl | rfl := hrule
  · exact I.common_refines t hdef
  · exact I.prepareDivisions_refines t hdef
  · exact I.invertNegativePowers_refines t hdef
  · exact I.invertNegativeMultipliers_refines t hdef

/-- `(4 * x) / (6 * x)` at `x = 3`: one rule cancels the variable, another one takes the literal out
of the dividend. -/
theorem rules_keep_value_sharedVariable :
    let I := arithmetic fun _ => 3
    let t := quotient (product (int 4) (var "x")) (product (int 6) (var "x"))
    I.Defined t ∧ common t = quotient (int 4) (int 6) ∧
      prepareDivisions t =
        product (int 4) (quotient (var "x") (product (int 6) (var "x"))) ∧
      ∀ rule ∈ [common, prepareDivisions, invertNegativePowers, invertNegativeMultipliers],
        I.Defined (rule t) ∧ I.value (rule t) = I.value t := by
  intro I t
  have hdef : I.Defined t := by simp [I, t, arithmetic]
  exact ⟨hdef, by with_unfolding_all rfl, by with_unfolding_all rfl, I.rules_keep_value hdef⟩

theorem defined_of_mem_children (hstrict : ¬ I.zerothPower) (h : I.Defined t) {c : Expr}
    (hc : c ∈ t.children) : I.Defined c := by
  cases t with
  | num c => cases hc
  | var x => cases hc
  | binary op a b =>
    simp only [children, List.mem_cons, List.not_mem_nil, or_false] at hc
    cases op <;> simp only [Defined] at h <;> grind
  | tensor dims elements =>
    exact (I.definedList_iff elements).mp h.1 _ (List.mem_map_of_mem hc)
  | _ =>
    simp only [children, List.mem_cons, List.not_mem_nil, or_false] at hc
    simp only [Defined] at h
    grind

theorem defined_of_mem_preorder (hstrict : ¬ I.zerothPower) (h : I.Defined t) :
    ∀ u ∈ t.preorder, I.Defined u := by
  induction t using induction_children with
  | node t ih =>
    rw [preorder_eq, List.forall_mem_cons, List.forall_mem_flatMap]
    exact ⟨h, fun c hc => ih c hc (I.defined_of_mem_children hstrict h hc)⟩

/-- Wherever a tree other than `c ^ log c a` has a value, and no power at its root, below it or one
level deeper has a base of value zero, the rules of powers give one that has the same value, if they
raise no literal to an exponent out of range. -/
theorem powers_keeps_value (hstrict : ¬ I.zerothPower) (hdef : I.Defined t)
    (hlog : ∀ c a, t ≠ power (num c) (Expr.log (num c) a))
    (hbases : ∀ p ∈ t :: t.children ++ t.children.flatMap children,
      ∀ a n, p = power a n → I.value a ≠ 0)
    (hrange : ∀ c d, RaisesLiteral t c d → |d.toRat| ≤ Number.maxExactExponent) :
    I.Defined (powers t) ∧ I.value (powers t) = I.value t := by
  have hexact := I.isExact_of_defined_preorder (I.defined_of_mem_preorder hstrict hdef)
  have hpowers : (powers t).isExact = true := by
    refine isExact_powers_of_raisesLiteral hexact ?_
    rintro c d hraises ⟨e, rfl, -, hout, -⟩
    have hin := hrange c _ hraises
    rw [Number.toRat_integer, ← Int.cast_abs, Int.abs_eq_natAbs] at hin
    exact absurd (by exact_mod_cast hin) (Nat.not_le_of_lt hout)
  refine I.powers_refines t hpowers
    (fun c d hraises => Number.isLeastWord_eq_false (hrange c d hraises)) hlog
    (fun _ _ _ _ hlenient => absurd hlenient hstrict) ?_ hdef
  rintro p b m rfl
  exact Or.inr (hbases (power b m) (by simp [children]) b m rfl)

/-- `(2 / x) ^ -4096 * x ^ 3` at `x = 3`, with the exponent of the literal just in range and that of
the variable out of it. -/
theorem powers_keeps_value_at_range :
    let I := arithmetic fun _ => 3
    let t := product (power (quotient (int 2) (var "x")) (int (-4096))) (power (var "x") (int 3))
    (¬ I.zerothPower ∧ I.Defined t ∧ RaisesLiteral t (.integer 2) (.integer (-4096))) ∧
      powers t = product (literalPower (.integer 2) (.integer (-4096)))
        (power (var "x") (int 4099)) ∧
      I.Defined (powers t) ∧ I.value (powers t) = I.value t := by
  intro I t
  have hdef : I.Defined t := by
    simp [I, t, arithmetic, defined_power_int]
  have hpowers : powers t = product (literalPower (.integer 2) (.integer (-4096)))
      (power (var "x") (int 4099)) := by
    with_unfolding_all rfl
  have hraises : RaisesLiteral t (.integer 2) (.integer (-4096)) :=
    ⟨rfl, literalQuotientTimesPower, by simp [literalPowerFamily],
      hpowers ▸ by with_unfolding_all rfl⟩
  refine ⟨⟨not_false, hdef, hraises⟩, hpowers,
    I.powers_keeps_value not_false hdef ?_ ?_ ?_⟩
  · simp [t]
  · simp [t, children, I, arithmetic]
  · rintro c d ⟨hcd, -⟩
    cases hcd
    norm_num [Number.maxExactExponent]

end SymbolicAlgebra.Interpretation
