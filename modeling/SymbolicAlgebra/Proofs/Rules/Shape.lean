import SymbolicAlgebra.Catalog
import SymbolicAlgebra.Folding
import SymbolicAlgebra.Proofs.Polynomial.Degree
import SymbolicAlgebra.Proofs.Rules.Common
import SymbolicAlgebra.Proofs.Rules.Matching
import SymbolicAlgebra.Proofs.Rules.Ordering

/-!
# Arithmetic trees stay arithmetic

No simplifying rule brings a function, a reserved name or an exponent that is no literal integer
into an arithmetic tree.
-/

namespace SymbolicAlgebra.Rules

open SymbolicAlgebra.Expr

variable {t u a b : Expr}

theorem isArithmetic_invertNegativePowers (ht : t.isArithmetic = true) :
    (invertNegativePowers t).isArithmetic = true := by
  refine isArithmetic_rewrite (fun template hmem u hu => ?_) ht
  rw [List.mem_singleton.mp hmem] at hu
  unfold negativePower at hu
  split at hu
  · split_ifs at hu <;> cases hu <;> simp_all [Number.isInteger]
  · cases hu

theorem isArithmetic_invertNegativeMultipliers (ht : t.isArithmetic = true) :
    (invertNegativeMultipliers t).isArithmetic = true := by
  refine isArithmetic_rewrite (fun template hmem u hu => ?_) ht
  rw [List.mem_singleton.mp hmem] at hu
  unfold negativeMultiplier at hu
  split at hu
  · grind
  · cases hu

/-! ## Powers -/

theorem isIntegerLiteral_plus (ha : a.isIntegerLiteral = true) (hb : b.isIntegerLiteral = true) :
    (plus a b).isIntegerLiteral = true := by
  obtain ⟨m, rfl⟩ := isIntegerLiteral_iff.mp ha
  obtain ⟨n, rfl⟩ := isIntegerLiteral_iff.mp hb
  exact Number.isInteger_add ha hb

theorem isIntegerLiteral_minus (ha : a.isIntegerLiteral = true) (hb : b.isIntegerLiteral = true) :
    (minus a b).isIntegerLiteral = true := by
  obtain ⟨m, rfl⟩ := isIntegerLiteral_iff.mp ha
  obtain ⟨n, rfl⟩ := isIntegerLiteral_iff.mp hb
  exact Number.isInteger_sub ha hb

theorem isIntegerLiteral_times (ha : a.isIntegerLiteral = true) (hb : b.isIntegerLiteral = true) :
    (times a b).isIntegerLiteral = true := by
  obtain ⟨m, rfl⟩ := isIntegerLiteral_iff.mp ha
  obtain ⟨n, rfl⟩ := isIntegerLiteral_iff.mp hb
  exact Number.isInteger_mul ha hb

theorem isArithmetic_literalPower {c d : Number} (hd : d.isInteger = true) :
    (literalPower c d).isArithmetic = true := by
  unfold literalPower
  split_ifs
  · rfl
  · simp [hd]

theorem isArithmetic_baseAndExponent (ht : t.isArithmetic = true) :
    (baseAndExponent t).1.isArithmetic = true ∧
      (baseAndExponent t).2.isIntegerLiteral = true := by
  unfold baseAndExponent
  split
  · simpa using ht
  · exact ⟨ht, rfl⟩

theorem isArithmetic_powers (ht : t.isArithmetic = true) : (powers t).isArithmetic = true := by
  refine isArithmetic_rewrite (fun template hmem u hu => ?_) ht
  have hone : (int 1).isIntegerLiteral = true := rfl
  simp only [powerFamily, List.mem_cons, List.not_mem_nil, or_false] at hmem
  obtain rfl | rfl | rfl | rfl | rfl | rfl | rfl | rfl | rfl | rfl | rfl | rfl | rfl | rfl | rfl |
    rfl | rfl | rfl := hmem
  all_goals
    simp only [powerBeforeVariable, powerTimesBase, baseTimesPower, productOverBase,
      quotientOverBase, powerOfPower, productOverExponent, quotientOverExponent, baseOverPower,
      powerOverBase, powerOfLog, powerTimesProduct, productTimesPower, absorbedIntoPower,
      powerOfLiteralProduct, reciprocal, literalQuotientTimesBase, literalQuotientTimesPower,
      nestedQuotient] at hu
    split at hu <;>
      grind [isIntegerLiteral_plus, isIntegerLiteral_minus, isIntegerLiteral_times,
        isArithmetic_literalPower, isArithmetic_baseAndExponent, Number.isInteger_sub,
        Number.isInteger]

/-! ## Rules for functions do not match -/

theorem rewrite_eq_self {family : List Template} (h : ∀ template ∈ family, template t = none) :
    Template.rewrite family t = t := by
  refine Template.rewrite_of_forall (R := fun t u => u = t) rfl fun template hmem u hu => ?_
  rw [h template hmem] at hu
  cases hu

theorem sinSquared?_eq_none (ht : t.isArithmetic = true) : sinSquared? t = none := by
  by_contra hsome
  obtain ⟨a, ha⟩ := Option.ne_none_iff_exists'.mp hsome
  rw [sinSquared?_eq_some ha] at ht
  simp at ht

theorem cosSquared?_eq_none (ht : t.isArithmetic = true) : cosSquared? t = none := by
  by_contra hsome
  obtain ⟨a, ha⟩ := Option.ne_none_iff_exists'.mp hsome
  rw [cosSquared?_eq_some ha] at ht
  simp at ht

theorem trigonometric_eq_self (ht : t.isArithmetic = true) : trigonometric t = t := by
  refine rewrite_eq_self fun template hmem => ?_
  simp only [trigonometricFamily, List.mem_cons, List.not_mem_nil, or_false] at hmem
  obtain rfl | rfl | rfl | rfl | rfl | rfl | rfl := hmem
  all_goals
    simp only [sinTimesCos, complementaryArcs, inverseCancellation, sinSquaredPlusCosSquared,
      cosSquaredPlusSinSquared, sinSquaredMinusCosSquared, cosSquaredMinusSinSquared]
    split <;> simp_all [sinSquared?_eq_none, cosSquared?_eq_none, sameAngle]

theorem collapseFactorialMultiplications_eq_self (ht : t.isArithmetic = true) :
    collapseFactorialMultiplications t = t := by
  refine rewrite_eq_self fun template hmem => ?_
  rw [List.mem_singleton.mp hmem]
  unfold factorialTimesNext
  split <;> simp_all

theorem expandFactorialDivisions_eq_self (ht : t.isArithmetic = true) :
    expandFactorialDivisions t = t := by
  refine rewrite_eq_self fun template hmem => ?_
  rw [List.mem_singleton.mp hmem]
  unfold factorialQuotient
  split <;> simp_all

/-! ## Chains -/

theorem OperandWise.termWise {P : Expr → Prop} (h : OperandWise P) : TermWise P where
  binary := h.binary_iff
  inverse := h.power_iff
  minusOne := h.of_int (-1)

theorem isArithmetic_canonicalSort {level : SortLevel} (ht : t.isArithmetic = true) :
    (canonicalSort level t).isArithmetic = true :=
  operandWise_isArithmetic.termWise.canonicalSort ht

/-! ## Long division and folding -/

open SymbolicAlgebra.Polynomial

theorem isArithmetic_term {name : String} (hname : Constants.standard.isReserved name = false)
    (k : ℕ) (c : Number) : (term name k c).isArithmetic = true := by
  have hmonomial : (monomial name k).isArithmetic = true := by
    unfold monomial
    split
    · rfl
    · simp [isArithmetic, hname]
    · simp [isArithmetic, hname, isIntegerLiteral, Number.isInteger]
  unfold term
  split_ifs
  · rfl
  · exact hmonomial
  · simpa using hmonomial

theorem isArithmetic_toExpr {name : String} (hname : Constants.standard.isReserved name = false)
    (p : Polynomial) : (toExpr name p).isArithmetic = true :=
  toExpr_keeps (P := fun t => t.isArithmetic = true) rfl
    (fun ha hb => by rw [isArithmetic_sum, ha, hb]; rfl) fun k _ => isArithmetic_term hname k

/-- Long division writes what the divider gives for a free variable of the divisor. -/
theorem exists_of_divisionTemplate {divider : Divider}
    (h : divisionTemplate divider t = some u) :
    ∃ n d name q r, t = .quotient n d ∧ name ∈ d.freeVariables ∧
      divider.divide? n d name = some (q, r) ∧ u = mixed d q r := by
  unfold divisionTemplate at h
  split at h
  case h_1 n d =>
    split_ifs at h
    obtain ⟨name, hmem, hdivide⟩ := List.exists_of_findSome?_eq_some h
    obtain ⟨⟨q, r⟩, hqr, rfl⟩ := Option.map_eq_some_iff.mp hdivide
    exact ⟨n, d, name, q, r, rfl, hmem, hqr, rfl⟩
  case h_2 => cases h

theorem isArithmetic_longDivision (ht : t.isArithmetic = true) :
    (longDivision .univariate t).isArithmetic = true := by
  refine isArithmetic_rewrite (fun template hmem u hu => ?_) ht
  rw [List.mem_singleton.mp hmem] at hu
  obtain ⟨n, d, name, q, r, rfl, hmem, hdivide, rfl⟩ := exists_of_divisionTemplate hu
  obtain ⟨-, -, quotient, remainder, -, -, -, rfl, rfl⟩ := Divider.univariate_eq_some_iff.mp hdivide
  have hname := isReserved_of_mem_freeVariables hmem
  unfold mixed
  split_ifs
  · exact isArithmetic_toExpr hname quotient
  · simp [isArithmetic_toExpr hname, (isArithmetic_binary ht).2]

theorem isArithmetic_foldNode (ht : t.isArithmetic = true) :
    (Folding.foldNode t).isArithmetic = true := by
  refine isArithmetic_rewrite (fun template hmem u hu => ?_) ht
  simp only [Folding.family, List.mem_cons, List.not_mem_nil, or_false] at hmem
  obtain rfl | rfl | rfl | rfl | rfl | rfl | rfl | rfl | rfl | rfl | rfl | rfl | rfl := hmem
  case inl =>
    unfold Folding.literals at hu
    split at hu
    · obtain ⟨value, -, rfl⟩ := Option.map_eq_some_iff.mp hu
      rfl
    · cases hu
  all_goals
    simp only [Folding.sumWithZero, Folding.sumWithNegated, Folding.negatedInSum,
      Folding.differenceWithZero, Folding.differenceWithNegated, Folding.productWithOne,
      Folding.productWithZero, Folding.quotientByOne, Folding.quotientOfZero, Folding.powerToOne,
      Folding.powerToZero, Folding.powerOfOne] at hu
    split at hu <;> grind [negate]

end SymbolicAlgebra.Rules
