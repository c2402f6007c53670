import SymbolicAlgebra.Proofs.Expr.Vocabulary
import SymbolicAlgebra.Proofs.Rules.Shape

/-!
# No rule leaves a vocabulary

A simplifying rule builds its result from subtrees of the tree, literals, operators and functions
that it found there. The one name that it may write without having found it is `pi`, for the sum of
two complementary arcs. So what it makes of a tree within a vocabulary is within the vocabulary, if
`pi` is in there in that case.
-/

namespace SymbolicAlgebra

namespace Expr

variable {V : Vocabulary} {t u a b p q : Expr}

theorem within_plus (ha : a.Within V) (hb : b.Within V) : (plus a b).Within V := by
  unfold plus
  split <;> simp [ha, hb]

theorem within_minus (ha : a.Within V) (hb : b.Within V) : (minus a b).Within V := by
  unfold minus
  split <;> simp [ha, hb]

theorem within_times (ha : a.Within V) (hb : b.Within V) : (times a b).Within V := by
  unfold times
  split <;> simp [ha, hb]

theorem within_literalPower (c d : Number) : (literalPower c d).Within V := by
  unfold literalPower
  split_ifs <;> simp

end Expr

namespace Rules

open SymbolicAlgebra.Expr

variable {V : Vocabulary} {t u a b p q : Expr} {template : Template}

theorem within_rewrite {family : List Template}
    (h : ∀ template ∈ family, ∀ u, template t = some u → u.Within V) (ht : t.Within V) :
    (Template.rewrite family t).Within V :=
  Template.rewrite_of_forall (R := fun _ u => u.Within V) ht h

/-! ## Negative powers, factorials and trigonometry -/

theorem within_invertNegativePowers (ht : t.Within V) : (invertNegativePowers t).Within V := by
  refine within_rewrite (fun template hmem u hu => ?_) ht
  rw [List.mem_singleton.mp hmem] at hu
  unfold negativePower at hu
  split at hu <;> grind

theorem within_invertNegativeMultipliers (ht : t.Within V) :
    (invertNegativeMultipliers t).Within V := by
  refine within_rewrite (fun template hmem u hu => ?_) ht
  rw [List.mem_singleton.mp hmem] at hu
  unfold negativeMultiplier at hu
  split at hu <;> grind

theorem within_collapseFactorialMultiplications (ht : t.Within V) :
    (collapseFactorialMultiplications t).Within V := by
  refine within_rewrite (fun template hmem u hu => ?_) ht
  rw [List.mem_singleton.mp hmem] at hu
  unfold factorialTimesNext at hu
  split at hu <;> grind

theorem within_offset (ht : t.Within V) : (offset t).1.Within V := by
  unfold offset
  split <;> grind

theorem within_shifted (ha : a.Within V) (c : Number) : (shifted a c).Within V := by
  unfold shifted
  split_ifs <;> simp [ha]

theorem within_powers (ht : t.Within V) : (powers t).Within V := by
  refine within_rewrite (fun template hmem u hu => ?_) ht
  simp only [powerFamily, List.mem_cons, List.not_mem_nil, or_false] at hmem
  obtain rfl | rfl | rfl | rfl | rfl | rfl | rfl | rfl | rfl | rfl | rfl | rfl | rfl | rfl | rfl |
    rfl | rfl | rfl := hmem
  all_goals
    simp only [powerBeforeVariable, powerTimesBase, baseTimesPower, productOverBase,
      quotientOverBase, powerOfPower, productOverExponent, quotientOverExponent, baseOverPower,
      powerOverBase, powerOfLog, powerTimesProduct, productTimesPower, absorbedIntoPower,
      powerOfLiteralProduct, reciprocal, literalQuotientTimesBase, literalQuotientTimesPower,
      nestedQuotient, baseAndExponent] at hu
    split at hu <;>
      grind [within_plus, within_minus, within_times, within_literalPower]

theorem within_sinSquared? (h : sinSquared? t = some a) (ht : t.Within V) : a.Within V := by
  rw [sinSquared?_eq_some h] at ht
  grind

theorem within_cosSquared? (h : cosSquared? t = some a) (ht : t.Within V) :
    V.function .cos ∧ a.Within V := by
  rw [cosSquared?_eq_some h] at ht
  grind

theorem within_complementaryArcs (hu : complementaryArcs t = some u) (ht : t.Within V)
    (hpi : V.HasComplementaryArcs → V.name "pi") : u.Within V := by
  have hright : V.HasComplementaryArcs → rightAngle.Within V :=
    fun harcs => by simp [rightAngle, hpi harcs]
  unfold Vocabulary.HasComplementaryArcs at hright
  unfold complementaryArcs at hu
  split at hu <;> grind

theorem within_trigonometric (ht : t.Within V)
    (hpi : complementaryArcs t = some (trigonometric t) → V.HasComplementaryArcs → V.name "pi") :
    (trigonometric t).Within V := by
  refine Template.rewrite_of_forall (R := fun _ u => u = trigonometric t → u.Within V)
    (fun _ => ht) (fun template hmem u hu hresult => ?_) rfl
  simp only [trigonometricFamily, List.mem_cons, List.not_mem_nil, or_false] at hmem
  obtain rfl | rfl | rfl | rfl | rfl | rfl | rfl := hmem
  case inr.inl => exact within_complementaryArcs hu ht (hpi (hresult ▸ hu))
  all_goals
    simp only [sinTimesCos, inverseCancellation, sinSquaredPlusCosSquared,
      cosSquaredPlusSinSquared, sinSquaredMinusCosSquared, cosSquaredMinusSinSquared] at hu
    split at hu <;>
      grind [sameAngle_eq_some, → within_sinSquared?, → within_cosSquared?, halfSinDouble, half,
        negate]

theorem within_risingFactors (ha : a.Within V) (low : Number) (count : ℕ) :
    ∀ x ∈ risingFactors a low count, x.Within V := by
  intro x hx
  obtain ⟨k, -, rfl⟩ := List.mem_map.mp hx
  exact within_shifted ha _

theorem within_unrolled {n d : Expr} {k : ℤ} (h : Unrolled n d k u)
    (hbase : (offset n).1.Within V) : u.Within V := by
  have hproduct : ∀ {c : Number} {count : ℕ} {v : Expr},
      Chain.Hung product (risingFactors (offset n).1 c count) v → v.Within V := fun hv =>
    hv.keeps (fun ha hb => within_binary.mpr ⟨ha, hb⟩) (within_risingFactors hbase _ _)
  obtain ⟨-, hung⟩ | ⟨-, v, hung, rfl⟩ := h.result
  · exact hproduct hung
  · exact within_binary.mpr ⟨within_num _, hproduct hung⟩

theorem within_expandFactorialDivisions (ht : t.Within V) :
    (expandFactorialDivisions t).Within V := by
  refine within_rewrite (fun template hmem u hu => ?_) ht
  rw [List.mem_singleton.mp hmem] at hu
  obtain ⟨n, d, k, rfl, hunrolled⟩ := unrolled_of_factorialQuotient hu
  obtain ⟨hn, -⟩ := within_binary.mp ht
  exact within_unrolled hunrolled (within_offset (within_apply.mp hn).2)

/-- The unrolled quotient has no factorials but those of the base. -/
theorem within_expandFactorialDivisions_of_shifted {n d : Expr} {x y : ℚ} {k : ℤ}
    (hn : Shifted b x n) (hd : Shifted b y d) (hk : x - y = k) (hne : k ≠ 0)
    (hnear : k.natAbs < maxUnroll) (hb : b.Within V) :
    (expandFactorialDivisions (quotient (factorial n) (factorial d))).Within V := by
  obtain ⟨u, hu⟩ := exists_factorialQuotient hn hd hk hne hnear
  have hrewrite : expandFactorialDivisions (quotient (factorial n) (factorial d)) = u := by
    simp [expandFactorialDivisions, Template.rewrite, Template.first, hu]
  obtain ⟨n, d, k, hsame, hunrolled⟩ := unrolled_of_factorialQuotient hu
  cases hsame
  rw [hrewrite]
  refine within_unrolled hunrolled ?_
  rw [offset_of_shifted hn]
  exact hb

/-! ## Arithmetic -/

theorem operandWise_within (V : Vocabulary) : OperandWise (Expr.Within V) where
  binary_iff _ := within_binary
  power_iff := by simp
  of_int n := within_num _

theorem within_common (ht : t.Within V) : (common t).Within V :=
  (operandWise_within V).common within_num ht

/-! ## Chains -/

theorem within_canonicalSort {level : SortLevel} (ht : t.Within V) :
    (canonicalSort level t).Within V :=
  (operandWise_within V).termWise.canonicalSort ht

/-! ## Long division and folding -/

theorem within_toExpr {name : String} (hname : (var name).Within V) (p : Polynomial) :
    (Polynomial.toExpr name p).Within V := by
  refine Polynomial.toExpr_keeps (within_num _) (fun ha hb => within_binary.mpr ⟨ha, hb⟩) fun k _ c => ?_
  have hmonomial : (Polynomial.monomial name k).Within V := by
    unfold Polynomial.monomial
    split <;> simp [hname]
  unfold Polynomial.term
  split_ifs <;> simp [hmonomial]

/-- The variable in which long division divides occurs in the divisor. -/
theorem within_longDivision (ht : t.Within V) : (longDivision .univariate t).Within V := by
  refine within_rewrite (fun template hmem u hu => ?_) ht
  rw [List.mem_singleton.mp hmem] at hu
  obtain ⟨n, d, name, q, r, rfl, hmem, hdivide, rfl⟩ := exists_of_divisionTemplate hu
  obtain ⟨-, -, quotient, remainder, -, -, -, rfl, rfl⟩ := Divider.univariate_eq_some_iff.mp hdivide
  obtain ⟨-, hd⟩ := within_binary.mp ht
  have hname : (var name).Within V := by
    exact within_var.mpr (hd _ (mem_freeVariables.mp hmem).1)
  unfold mixed
  split_ifs <;> simp [within_toExpr hname, hd]

theorem within_foldNode (ht : t.Within V) : (Folding.foldNode t).Within V := by
  refine within_rewrite (fun template hmem u hu => ?_) ht
  simp only [Folding.family, List.mem_cons, List.not_mem_nil, or_false] at hmem
  obtain rfl | rfl | rfl | rfl | rfl | rfl | rfl | rfl | rfl | rfl | rfl | rfl | rfl := hmem
  case inl =>
    unfold Folding.literals at hu
    split at hu
    · obtain ⟨value, -, rfl⟩ := Option.map_eq_some_iff.mp hu
      exact within_num value
    · cases hu
  all_goals
    simp only [Folding.sumWithZero, Folding.sumWithNegated, Folding.negatedInSum,
      Folding.differenceWithZero, Folding.differenceWithNegated, Folding.productWithOne,
      Folding.productWithZero, Folding.quotientByOne, Folding.quotientOfZero, Folding.powerToOne,
      Folding.powerToZero, Folding.powerOfOne] at hu
    split at hu <;> grind [negate]

end Rules

end SymbolicAlgebra
