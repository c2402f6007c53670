import Mathlib.Tactic.FieldSimp
import SymbolicAlgebra.Proofs.Rational.Interpretation
import SymbolicAlgebra.Proofs.Rules.Shape
import SymbolicAlgebra.Rules.Divisions
import SymbolicAlgebra.Rules.Negatives

/-!
# The rules of arithmetic as identities

Every template of arithmetic gives a tree that is defined wherever the matched one is, with the same
value there. A divisor of the result always divides a divisor of the matched tree.
-/

namespace SymbolicAlgebra

namespace Interpretation

open SymbolicAlgebra.Expr SymbolicAlgebra.Rules

variable (I : Interpretation) {t u a b p q : Expr}

theorem eq_of_beq (h : (t == u) = true) :
    (I.Defined t ↔ I.Defined u) ∧ I.value t = I.value u :=
  ⟨I.defined_iff_of_same h, I.value_eq_of_same h⟩

theorem cofactor_spec {r : Expr} (h : cofactor? t a = some r) :
    (I.Defined t ↔ I.Defined a ∧ I.Defined r) ∧ I.value t = I.value a * I.value r := by
  unfold cofactor? at h
  split at h
  case h_1 l s =>
    split_ifs at h with hl hs
    · cases h
      have := I.eq_of_beq hl
      grind
    · cases h
      have := I.eq_of_beq hs
      grind
  · cases h

theorem place_spec (i : Place) (a b : Expr) :
    (I.Defined (product a b) ↔ I.Defined (i.factor a b) ∧ I.Defined (i.cofactor a b)) ∧
      I.value (product a b) = I.value (i.factor a b) * I.value (i.cofactor a b) := by
  cases i <;> simp only [Place.factor, Place.cofactor] <;> grind

theorem sharedFactor_spec {order : FactorOrder} {shared : SharedFactor}
    (h : sharedFactor? order p q = some shared) :
    ((I.Defined p ↔ I.Defined shared.factor ∧ I.Defined shared.left) ∧
      I.value p = I.value shared.factor * I.value shared.left) ∧
    (I.Defined q ↔ I.Defined shared.factor ∧ I.Defined shared.right) ∧
      I.value q = I.value shared.factor * I.value shared.right := by
  unfold sharedFactor? at h
  split at h
  case h_1 a b c d =>
    obtain ⟨⟨i, j⟩, hplace, rfl⟩ := Option.map_eq_some_iff.mp h
    have hfound : (i.factor a b == j.factor c d) = true := by
      simpa only using List.find?_some hplace
    have hsame := I.eq_of_beq hfound
    have hp := I.place_spec i a b
    have hq := I.place_spec j c d
    grind
  · cases h

/-- Both ways of joining two terms distribute over a common factor. -/
structure Distributes (join : Expr → Expr → Expr) (sign : ℚ) : Prop where
  defined : ∀ a b, I.Defined (join a b) ↔ I.Defined a ∧ I.Defined b
  value : ∀ a b, I.value (join a b) = I.value a + sign * I.value b

theorem distributes_sum : I.Distributes sum 1 := ⟨fun _ _ => Iff.rfl, fun _ _ => by grind⟩

theorem distributes_difference : I.Distributes difference (-1) :=
  ⟨fun _ _ => Iff.rfl, fun _ _ => by grind⟩

variable {join : Expr → Expr → Expr} {sign : ℚ}

theorem factorProducts_refines (hjoin : I.Distributes join sign) {order : FactorOrder}
    (h : factorProducts order join p q = some u) : I.Refines (join p q) u := by
  obtain ⟨shared, hshared, rfl⟩ := Option.map_eq_some_iff.mp h
  obtain ⟨hp, hq⟩ := I.sharedFactor_spec hshared
  grind [Refines, hjoin.defined, hjoin.value]

theorem factorLeftTerm_refines (hjoin : I.Distributes join sign)
    (h : factorLeftTerm join p q = some u) : I.Refines (join p q) u := by
  obtain ⟨r, hr, rfl⟩ := Option.map_eq_some_iff.mp h
  have hq := I.cofactor_spec hr
  grind [Refines, hjoin.defined, hjoin.value]

theorem factorRightTerm_refines (hjoin : I.Distributes join sign)
    (h : factorRightTerm join p q = some u) : I.Refines (join p q) u := by
  obtain ⟨r, hr, rfl⟩ := Option.map_eq_some_iff.mp h
  have hp := I.cofactor_spec hr
  grind [Refines, hjoin.defined, hjoin.value]

theorem factorLeftDividend_refines (h : factorLeftDividend p q = some u) :
    I.Refines (sum p q) u := by
  unfold factorLeftDividend at h
  split at h
  · obtain ⟨r, hr, rfl⟩ := Option.map_eq_some_iff.mp h
    have hq := I.cofactor_spec hr
    grind [Refines]
  · cases h

theorem factorRightDividend_refines (h : factorRightDividend p q = some u) :
    I.Refines (sum p q) u := by
  unfold factorRightDividend at h
  split at h
  · obtain ⟨r, hr, rfl⟩ := Option.map_eq_some_iff.mp h
    have hp := I.cofactor_spec hr
    grind [Refines]
  · cases h

theorem factorTerms_refines {order : FactorOrder} (h : factorTerms order t = some u) :
    I.Refines t u := by
  unfold factorTerms at h
  split at h
  · simp only [factorSum, Option.orElse_eq_orElse, Option.orElse_eq_or, Option.or_eq_some_iff] at h
    obtain h | ⟨-, h | ⟨-, h | ⟨-, h | ⟨-, h⟩⟩⟩⟩ := h
    · exact I.factorProducts_refines I.distributes_sum h
    · exact I.factorLeftTerm_refines I.distributes_sum h
    · exact I.factorRightTerm_refines I.distributes_sum h
    · exact I.factorLeftDividend_refines h
    · exact I.factorRightDividend_refines h
  · simp only [factorDifference, Option.orElse_eq_orElse, Option.orElse_eq_or,
      Option.or_eq_some_iff] at h
    obtain h | ⟨-, h | ⟨-, h⟩⟩ := h
    · exact I.factorProducts_refines I.distributes_difference h
    · exact I.factorLeftTerm_refines I.distributes_difference h
    · exact I.factorRightTerm_refines I.distributes_difference h
  · cases h

theorem rearranging_refines {template : Template} (hmem : template ∈ rearranging)
    (h : template t = some u) : I.Refines t u := by
  simp only [rearranging, List.mem_cons, List.not_mem_nil, or_false] at hmem
  obtain rfl | rfl | rfl | rfl | rfl | rfl | rfl | rfl | rfl := hmem
  all_goals
    simp only [literalBehindFunctions, quotientByQuotient, quotientOfQuotient, timesQuotient,
      quotientTimes, functionsBeforeLeftRest, functionsBeforeRightRest, literalLeadsProduct,
      literalTrailsSum] at h
    split at h
    · grind [Refines]
    · cases h

theorem likeTerms_refines (h : likeTerms t = some u) : I.Refines t u := by
  unfold likeTerms at h
  split at h
  case h_1 c v d w =>
    split_ifs at h with hsame
    cases h
    have hv := I.eq_of_beq (Bool.and_eq_true_iff.mp hsame).2
    grind [Refines, Number.isExact_add]
  case h_2 c v d w =>
    split_ifs at h with hsame
    cases h
    have hv := I.eq_of_beq (Bool.and_eq_true_iff.mp hsame).2
    grind [Refines, Number.isExact_sub]
  case h_3 => cases h

theorem computing_refines {template : Template} (hmem : template ∈ computing)
    (h : template t = some u) : I.Refines t u := by
  simp only [computing, List.mem_cons, List.not_mem_nil, or_false] at hmem
  obtain rfl | rfl | rfl | rfl | rfl | rfl | rfl | rfl | rfl | rfl | rfl | rfl := hmem
  case inr.inr.inr.inr.inr.inr.inr.inr.inr.inr.inr => exact I.likeTerms_refines h
  all_goals
    simp only [functionMultipleTimesLiteral, literalTimesFunctionMultiple, functionMultiples,
      variableMultipleTimesLiteral, literalTimesVariableMultiple, variableSumPlusLiteral,
      literalPlusVariableSum, literalTimesMultiple, literalOverLeftMultiple,
      literalOverRightMultiple, multipleOverLiteral] at h
    split at h
    · grind [Refines, Number.isExact_add, Number.isExact_mul, Number.isExact_div]
    · cases h

theorem squareDifference_spec {v a w b : Expr} (h : squareDifference v a w b = some u) :
    I.value v = I.value w ∧ I.value a = I.value b ∧
      u = difference (power v (int 2)) (power a (int 2)) := by
  unfold squareDifference at h
  split_ifs at h with hsame
  cases h
  simp only [Bool.and_eq_true] at hsame
  exact ⟨(I.eq_of_beq hsame.1.2).2, (I.eq_of_beq hsame.2).2, rfl⟩

theorem defined_square (a : Expr) :
    (I.Defined (power a (int 2)) ↔ I.Defined a) ∧
      I.value (power a (int 2)) = I.value a * I.value a := by
  rw [value_power_int, zpow_two]
  exact ⟨I.defined_power_natural a (n := 2), rfl⟩

theorem factorTimesProduct_refines (h : factorTimesProduct t = some u) : I.Refines t u := by
  unfold factorTimesProduct at h
  split at h
  · obtain ⟨r, hr, rfl⟩ := Option.map_eq_some_iff.mp h
    have hq := I.cofactor_spec hr
    grind [Refines, defined_square]
  · cases h

theorem productTimesFactor_refines (h : productTimesFactor t = some u) : I.Refines t u := by
  unfold productTimesFactor at h
  split at h
  · obtain ⟨r, hr, rfl⟩ := Option.map_eq_some_iff.mp h
    have hp := I.cofactor_spec hr
    grind [Refines, defined_square]
  · cases h

theorem cancelDivisor_refines (h : cancelDivisor t = some u) : I.Refines t u := by
  unfold cancelDivisor at h
  split at h
  · have hp := I.cofactor_spec h
    grind [Refines]
  · cases h

theorem cancelSharedFactor_refines (h : cancelSharedFactor t = some u) : I.Refines t u := by
  unfold cancelSharedFactor at h
  split at h
  case h_1 p q =>
    obtain ⟨shared, hshared, rfl⟩ := Option.map_eq_some_iff.mp h
    obtain ⟨⟨hdefp, hp⟩, hdefq, hq⟩ := I.sharedFactor_spec hshared
    intro hdef
    rw [defined_quotient, hdefp, hdefq, hq] at hdef
    obtain ⟨⟨-, hleft⟩, ⟨-, hright⟩, hzero⟩ := hdef
    obtain ⟨hfactor, hdivisor⟩ := mul_ne_zero_iff.mp hzero
    refine ⟨⟨hleft, hright, hdivisor⟩, ?_⟩
    rw [value_quotient, value_quotient, hp, hq]
    field_simp
  case h_2 => cases h

theorem conjugates_refines (h : conjugates t = some u) : I.Refines t u := by
  unfold conjugates at h
  split at h
  case h_3 => cases h
  all_goals
    obtain ⟨hv, ha, rfl⟩ := I.squareDifference_spec h
    grind [Refines, defined_square]

theorem factoring_refines {template : Template} (hmem : template ∈ factoring)
    (h : template t = some u) : I.Refines t u := by
  simp only [factoring, List.mem_cons, List.not_mem_nil, or_false] at hmem
  obtain rfl | rfl | rfl | rfl | rfl := hmem
  · exact I.factorTerms_refines h
  · exact I.factorTimesProduct_refines h
  · exact I.productTimesFactor_refines h
  · exact I.cancelDivisor_refines h
  · exact I.cancelSharedFactor_refines h

theorem comparing_refines {template : Template} (hmem : template ∈ comparing)
    (h : template t = some u) : I.Refines t u := by
  simp only [comparing, List.mem_cons, List.not_mem_nil, or_false] at hmem
  obtain rfl | rfl | rfl | rfl | rfl | rfl | rfl | rfl | rfl | rfl | rfl := hmem
  case inr.inr.inr.inr.inr.inr.inr.inr.inr.inr => exact I.conjugates_refines h
  all_goals
    simp only [termPlusQuotient, quotientPlusTerm, doubled, equalDifference, equalFactors,
      equalQuotient, oppositeDifferences, swappedSums, negatedPlusTerm, termPlusNegated] at h
    split at h
    · grind [Refines, eq_of_beq, defined_square, isInt_iff]
    · cases h

/-- Wherever a tree is defined, its rewrite by the rules of arithmetic has the same value. -/
theorem common_refines (t : Expr) : I.Refines t (common t) := by
  refine Template.rewrite_of_forall (fun h => ⟨h, rfl⟩) fun template hmem u hu => ?_
  obtain hmem | hmem | hmem | hmem := mem_commonFamily hmem
  · exact I.rearranging_refines hmem hu
  · exact I.computing_refines hmem hu
  · exact I.factoring_refines hmem hu
  · exact I.comparing_refines hmem hu

theorem invertNegativeMultipliers_refines (t : Expr) :
    I.Refines t (invertNegativeMultipliers t) := by
  refine Template.rewrite_of_forall (fun h => ⟨h, rfl⟩) fun template hmem u hu => ?_
  rw [List.mem_singleton.mp hmem] at hu
  unfold negativeMultiplier at hu
  split at hu
  · grind [Refines, Number.isExact_neg]
  · cases hu

theorem prepareDivisions_refines (t : Expr) : I.Refines t (prepareDivisions t) := by
  refine Template.rewrite_of_forall (fun h => ⟨h, rfl⟩) fun template hmem u hu => ?_
  simp only [List.mem_cons, List.not_mem_nil, or_false] at hmem
  obtain rfl | rfl | rfl := hmem
  all_goals
    simp only [timesReciprocal, literalOutOfDividend, literalOutOfQuotient] at hu
    split at hu
    · grind [Refines, isInt_iff]
    · cases hu

end Interpretation

end SymbolicAlgebra
