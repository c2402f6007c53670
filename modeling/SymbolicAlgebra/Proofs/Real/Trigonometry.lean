import Mathlib.Analysis.Real.Pi.Bounds
import SymbolicAlgebra.Proofs.Real.Interpretation
import SymbolicAlgebra.Proofs.Rules.Matching

/-!
# The trigonometric rules as identities

Wherever a tree has a real value, the trigonometric rules give one of the same value. The one thing
to ask for is that an arc of its own function is taken of an angle in the range of that arc.
-/

namespace SymbolicAlgebra

open SymbolicAlgebra.Expr SymbolicAlgebra.Rules

theorem cot_arccot (x : ℝ) : Real.cot (Real.pi / 2 - Real.arctan x) = x := by
  rw [Real.cot_eq_cos_div_sin, Real.sin_pi_div_two_sub, Real.cos_pi_div_two_sub,
    ← Real.tan_eq_sin_div_cos, Real.tan_arctan]

theorem arccot_cot {x : ℝ} (hx : x ∈ Set.Ioo 0 Real.pi) :
    Real.pi / 2 - Real.arctan (Real.cot x) = x := by
  have hcot : Real.cot x = Real.tan (Real.pi / 2 - x) := by
    rw [Real.cot_eq_cos_div_sin, Real.tan_eq_sin_div_cos, Real.sin_pi_div_two_sub,
      Real.cos_pi_div_two_sub]
  rw [hcot, Real.arctan_tan (by linarith [hx.2]) (by linarith [hx.1])]
  ring

namespace RealInterpretation

variable {I : RealInterpretation} {t u a b : Expr} {x r : ℝ}

/-- Whatever value `t` has, `u` has. -/
def Keeps (I : RealInterpretation) (t u : Expr) : Prop :=
  ∀ r, I.value? t = some r → I.value? u = some r

/-- An arc of its own function is taken of an angle in the range of the arc. -/
structure PrincipalAngle (I : RealInterpretation) (t : Expr) : Prop where
  of_arcsin : ∀ a x, t = arcsin (sin a) → I.value? a = some x →
    x ∈ Set.Icc (-(Real.pi / 2)) (Real.pi / 2)
  of_arccos : ∀ a x, t = arccos (cos a) → I.value? a = some x → x ∈ Set.Icc 0 Real.pi
  of_arctan : ∀ a x, t = arctan (tan a) → I.value? a = some x →
    x ∈ Set.Ioo (-(Real.pi / 2)) (Real.pi / 2)
  of_arccot : ∀ a x, t = arccot (cot a) → I.value? a = some x → x ∈ Set.Ioo 0 Real.pi

theorem value?_double (ha : I.value? a = some x) :
    I.value? (product (int 2) a) = some (2 * x) := by
  rw [value?_binary (I.value?_int 2) ha, operator, Int.cast_ofNat]

theorem value?_square (ha : I.value? a = some x) :
    I.value? (Expr.power a (int 2)) = some (x ^ 2) := by
  rw [value?_binary ha (I.value?_int 2), operator, Int.cast_ofNat, I.power_two]

theorem value?_rightAngle : I.value? rightAngle = some (Real.pi / 2) := by
  have hpi : I.value? (var "pi") = some Real.pi := by rw [value?, I.assignment_pi]
  rw [rightAngle, value?_binary hpi (I.value?_int 2)]
  simp [operator]

theorem value?_sin (ha : I.value? a = some x) : I.value? (sin a) = some (Real.sin x) :=
  value?_apply ha .sin

theorem value?_cos (ha : I.value? a = some x) : I.value? (cos a) = some (Real.cos x) :=
  value?_apply ha .cos

theorem value?_halfSinDouble (ha : I.value? a = some x) :
    I.value? (halfSinDouble a) = some (Real.sin x * Real.cos x) := by
  have hhalf : I.value? half = some (((1 / 2 : ℚ)) : ℝ) := I.value?_ofRat (1 / 2)
  rw [halfSinDouble, value?_binary hhalf (value?_sin (value?_double ha)), operator,
    Option.some.injEq, Real.sin_two_mul]
  push_cast
  ring

theorem exists_of_value?_sameOperand {f g : Elementary} {y z : ℝ}
    (hy : I.value? (apply f a) = some y) (hz : I.value? (apply g b) = some z)
    (hsame : (a == b) = true) :
    ∃ x, I.value? a = some x ∧ I.function f x = some y ∧ I.function g x = some z := by
  obtain ⟨x, hx, hy⟩ := exists_of_value?_apply hy
  rw [value?_apply ((value?_eq_of_beq hsame).symm.trans hx)] at hz
  exact ⟨x, hx, hy, hz⟩

/-- The value of an operator between functions of the same tree. -/
theorem exists_of_value?_functions {op : Operator} {f g : Elementary}
    (h : I.value? (binary op (apply f a) (apply g b)) = some r) (hsame : (a == b) = true) :
    ∃ x y z, I.value? a = some x ∧ I.function f x = some y ∧ I.function g x = some z ∧
      I.operator op y z = some r := by
  obtain ⟨y, z, hy, hz, hr⟩ := exists_of_value?_binary h
  obtain ⟨x, hx, hfx, hgx⟩ := exists_of_value?_sameOperand hy hz hsame
  exact ⟨x, y, z, hx, hfx, hgx, hr⟩

theorem exists_of_value?_square (h : I.value? (Expr.power a (int 2)) = some r) :
    ∃ x, I.value? a = some x ∧ x ^ 2 = r := by
  obtain ⟨x, -, hx, -⟩ := exists_of_value?_binary h
  rw [value?_square hx, Option.some.injEq] at h
  exact ⟨x, hx, h⟩

/-- The value of an operator between the squares of functions of the same tree. -/
theorem exists_of_value?_squares {op : Operator} {f g : Elementary}
    (h : I.value? (binary op (Expr.power (apply f a) (int 2)) (Expr.power (apply g b) (int 2))) =
      some r) (hsame : (a == b) = true) :
    ∃ x y z, I.value? a = some x ∧ I.function f x = some y ∧ I.function g x = some z ∧
      I.operator op (y ^ 2) (z ^ 2) = some r := by
  obtain ⟨_, _, hleft, hright, hr⟩ := exists_of_value?_binary h
  obtain ⟨y, hy, rfl⟩ := exists_of_value?_square hleft
  obtain ⟨z, hz, rfl⟩ := exists_of_value?_square hright
  obtain ⟨x, hx, hfx, hgx⟩ := exists_of_value?_sameOperand hy hz hsame
  exact ⟨x, y, z, hx, hfx, hgx, hr⟩

theorem sinTimesCos_keeps (h : sinTimesCos t = some u) : I.Keeps t u := by
  intro r hr
  unfold sinTimesCos at h
  split at h
  case h_3 => cases h
  all_goals
    split_ifs at h with hsame
    cases h
    obtain ⟨x, y, z, hx, hy, hz, hr⟩ := exists_of_value?_functions hr hsame
    rw [value?_halfSinDouble hx, ← hr]
    cases hy
    cases hz
  · rfl
  · rw [operator, mul_comm]

theorem complementaryArcs_keeps (h : complementaryArcs t = some u) : I.Keeps t u := by
  intro r hr
  unfold complementaryArcs at h
  split at h
  case h_5 => cases h
  all_goals
    split_ifs at h with hsame
    cases h
    obtain ⟨x, y, z, hx, hy, hz, hr⟩ := exists_of_value?_functions hr hsame
    rw [value?_rightAngle, ← hr, operator, Option.some.injEq]
  · obtain ⟨-, rfl⟩ := I.function_arcsin.mp hy
    obtain ⟨-, rfl⟩ := I.function_arccos.mp hz
    rw [Real.arccos_eq_pi_div_two_sub_arcsin]
    ring
  · obtain ⟨-, rfl⟩ := I.function_arccos.mp hy
    obtain ⟨-, rfl⟩ := I.function_arcsin.mp hz
    rw [Real.arccos_eq_pi_div_two_sub_arcsin]
    ring
  · cases hy
    cases hz
    ring
  · cases hy
    cases hz
    ring

theorem inverseCancellation_keeps (hrange : I.PrincipalAngle t)
    (h : inverseCancellation t = some u) : I.Keeps t u := by
  intro r hr
  unfold inverseCancellation at h
  split at h
  case h_9 => cases h
  all_goals
    cases h
    obtain ⟨y, hy, hr⟩ := exists_of_value?_apply hr
    obtain ⟨x, hx, hy⟩ := exists_of_value?_apply hy
    rw [hx, Option.some.injEq]
  -- An arc of its function needs the range of the arc; a function of its arc is the identity
  -- wherever the arc has a value.
  case h_1 =>
    cases hy
    obtain ⟨-, rfl⟩ := I.function_arcsin.mp hr
    exact (Real.arcsin_sin' (hrange.of_arcsin _ x rfl hx)).symm
  case h_2 =>
    cases hy
    obtain ⟨-, rfl⟩ := I.function_arccos.mp hr
    obtain ⟨hlower, hupper⟩ := hrange.of_arccos _ x rfl hx
    exact (Real.arccos_cos hlower hupper).symm
  case h_3 =>
    obtain ⟨-, rfl⟩ := I.function_tan.mp hy
    cases hr
    obtain ⟨hlower, hupper⟩ := hrange.of_arctan _ x rfl hx
    exact (Real.arctan_tan hlower hupper).symm
  case h_4 =>
    obtain ⟨-, rfl⟩ := I.function_cot.mp hy
    cases hr
    exact (arccot_cot (hrange.of_arccot _ x rfl hx)).symm
  case h_5 =>
    obtain ⟨⟨hlower, hupper⟩, rfl⟩ := I.function_arcsin.mp hy
    cases hr
    exact (Real.sin_arcsin hlower hupper).symm
  case h_6 =>
    obtain ⟨⟨hlower, hupper⟩, rfl⟩ := I.function_arccos.mp hy
    cases hr
    exact (Real.cos_arccos hlower hupper).symm
  case h_7 =>
    cases hy
    obtain ⟨-, rfl⟩ := I.function_tan.mp hr
    exact (Real.tan_arctan x).symm
  case h_8 =>
    cases hy
    obtain ⟨-, rfl⟩ := I.function_cot.mp hr
    exact (cot_arccot x).symm

theorem sumOfSquares_keeps {template : Template}
    (hmem : template ∈ [sinSquaredPlusCosSquared, cosSquaredPlusSinSquared])
    (h : template t = some u) : I.Keeps t u := by
  intro r hr
  simp only [List.mem_cons, List.not_mem_nil, or_false] at hmem
  obtain rfl | rfl := hmem
  all_goals
    simp only [sinSquaredPlusCosSquared, cosSquaredPlusSinSquared] at h
    split at h
    case h_2 => cases h
    obtain ⟨a, b, ha, hb, hsame, rfl⟩ := sameAngle_eq_some h
  · obtain rfl := sinSquared?_eq_some ha
    obtain rfl := cosSquared?_eq_some hb
    obtain ⟨x, y, z, -, hy, hz, hr⟩ := exists_of_value?_squares hr hsame
    cases hy
    cases hz
    rw [I.value?_int, ← hr, operator, Real.sin_sq_add_cos_sq, Int.cast_one]
  · obtain rfl := cosSquared?_eq_some ha
    obtain rfl := sinSquared?_eq_some hb
    obtain ⟨x, y, z, -, hy, hz, hr⟩ := exists_of_value?_squares hr hsame
    cases hy
    cases hz
    rw [I.value?_int, ← hr, operator, Real.cos_sq_add_sin_sq, Int.cast_one]

theorem differenceOfSquares_keeps {template : Template}
    (hmem : template ∈ [sinSquaredMinusCosSquared, cosSquaredMinusSinSquared])
    (h : template t = some u) : I.Keeps t u := by
  intro r hr
  simp only [List.mem_cons, List.not_mem_nil, or_false] at hmem
  obtain rfl | rfl := hmem
  all_goals
    simp only [sinSquaredMinusCosSquared, cosSquaredMinusSinSquared] at h
    split at h
    case h_2 => cases h
    obtain ⟨a, b, ha, hb, hsame, rfl⟩ := sameAngle_eq_some h
  · obtain rfl := sinSquared?_eq_some ha
    obtain rfl := cosSquared?_eq_some hb
    obtain ⟨x, y, z, hx, hy, hz, hr⟩ := exists_of_value?_squares hr hsame
    cases hy
    cases hz
    rw [negate, value?_binary (I.value?_int (-1)) (value?_cos (value?_double hx)), ← hr, operator,
      operator, Option.some.injEq, Real.cos_two_mul']
    push_cast
    ring
  · obtain rfl := cosSquared?_eq_some ha
    obtain rfl := sinSquared?_eq_some hb
    obtain ⟨x, y, z, hx, hy, hz, hr⟩ := exists_of_value?_squares hr hsame
    cases hy
    cases hz
    rw [value?_cos (value?_double hx), ← hr, operator, Real.cos_two_mul']

theorem trigonometric_keeps (hrange : I.PrincipalAngle t) : I.Keeps t (Rules.trigonometric t) := by
  refine Template.rewrite_of_forall (fun _ h => h) fun template hmem u hu => ?_
  simp only [trigonometricFamily, List.mem_cons, List.not_mem_nil, or_false] at hmem
  obtain rfl | rfl | rfl | rfl | rfl | rfl | rfl := hmem
  · exact sinTimesCos_keeps hu
  · exact complementaryArcs_keeps hu
  · exact inverseCancellation_keeps hrange hu
  · exact sumOfSquares_keeps (by simp) hu
  · exact sumOfSquares_keeps (by simp) hu
  · exact differenceOfSquares_keeps (by simp) hu
  · exact differenceOfSquares_keeps (by simp) hu

/-! ## Expansions -/

theorem eq_of_value?_half {c : Expr} {y : ℝ} (hhalf : isHalf c = true)
    (hy : I.value? c = some y) : y = 1 / 2 := by
  unfold isHalf at hhalf
  split at hhalf
  case h_2 => cases hhalf
  case h_1 c =>
    obtain hexact | hreal := Bool.or_eq_true_iff.mp hhalf
    · have hsame : (num c == num (.ofRat (1 / 2))) = true := hexact
      rw [value?_eq_of_beq hsame, I.value?_ofRat, Option.some.injEq] at hy
      rw [← hy]
      push_cast
      rfl
    · rw [value?, Number.toRat?_eq_of_same hreal] at hy
      cases hy

theorem exists_of_value?_double {two : Expr} (htwo : two.isInt 2 = true)
    (h : I.value? (product two a) = some r) : ∃ x, I.value? a = some x ∧ 2 * x = r := by
  rw [isInt_iff.mp htwo] at h
  obtain ⟨-, x, -, hx, -⟩ := exists_of_value?_binary h
  rw [value?_double hx, Option.some.injEq] at h
  exact ⟨x, hx, h⟩

theorem expandHalfSinDouble_keeps (h : expandHalfSinDouble t = some u) : I.Keeps t u := by
  intro r hr
  unfold expandHalfSinDouble at h
  split at h
  case h_2 => cases h
  case h_1 c two a =>
    split_ifs at h with hmatch
    cases h
    obtain ⟨hhalf, htwo⟩ := Bool.and_eq_true_iff.mp hmatch
    obtain ⟨y, z, hy, hz, hr⟩ := exists_of_value?_binary hr
    obtain ⟨_, hdouble, hz⟩ := exists_of_value?_apply hz
    obtain ⟨x, hx, rfl⟩ := exists_of_value?_double htwo hdouble
    cases hz
    rw [value?_binary (value?_sin hx) (value?_cos hx), ← hr, operator, operator, Option.some.injEq,
      eq_of_value?_half hhalf hy, Real.sin_two_mul]
    ring

theorem expandCosDouble_keeps (h : expandCosDouble t = some u) : I.Keeps t u := by
  intro r hr
  unfold expandCosDouble at h
  split at h
  case h_2 => cases h
  case h_1 two a =>
    split_ifs at h with htwo
    cases h
    obtain ⟨_, hdouble, hr⟩ := exists_of_value?_apply hr
    obtain ⟨x, hx, rfl⟩ := exists_of_value?_double htwo hdouble
    rw [value?_binary (value?_square (value?_cos hx)) (value?_square (value?_sin hx)), ← hr,
      operator, function, Real.cos_two_mul']

theorem expandSinSum_keeps (h : expandSinSum t = some u) : I.Keeps t u := by
  intro r hr
  unfold expandSinSum at h
  split at h
  case h_3 => cases h
  all_goals
    cases h
    obtain ⟨_, hangle, hr⟩ := exists_of_value?_apply hr
    obtain ⟨x, y, hx, hy, hxy⟩ := exists_of_value?_binary hangle
    cases hxy
    rw [value?_binary (value?_binary (value?_sin hx) (value?_cos hy) .product)
      (value?_binary (value?_sin hy) (value?_cos hx) .product), ← hr]
    simp only [operator, function, Option.some.injEq]
  · rw [Real.sin_add]
    ring
  · rw [Real.sin_sub]
    ring

theorem expandTrigonometric_keeps (t : Expr) : I.Keeps t (expandTrigonometric t) := by
  refine Template.rewrite_of_forall (fun _ h => h) fun template hmem u hu => ?_
  simp only [List.mem_cons, List.not_mem_nil, or_false] at hmem
  obtain rfl | rfl := hmem
  · exact expandHalfSinDouble_keeps hu
  · exact expandCosDouble_keeps hu

theorem expandAngleSums_keeps (t : Expr) : I.Keeps t (expandAngleSums t) := by
  refine Template.rewrite_of_forall (fun _ h => h) fun template hmem u hu => ?_
  rw [List.mem_singleton.mp hmem] at hu
  exact expandSinSum_keeps hu

/-- Wherever a tree has a real value, the trigonometric rules and expansions give a tree of the same
value, if an arc of its own function is taken of a principal angle. -/
theorem trigonometric_rules_keep_value (hr : I.value? t = some r) (hrange : I.PrincipalAngle t) :
    ∀ rule ∈ [Rules.trigonometric, expandTrigonometric, expandAngleSums],
      I.value? (rule t) = some r := by
  intro rule hrule
  simp only [List.mem_cons, List.not_mem_nil, or_false] at hrule
  obtain rfl | rfl | rfl := hrule
  · exact trigonometric_keeps hrange r hr
  · exact expandTrigonometric_keeps t r hr
  · exact expandAngleSums_keeps t r hr

/-- `arccot (cot x)` at `x = 2`, an angle in the range of the arc cotangent that is in none of
those of the arc sine and the arc tangent. -/
theorem trigonometric_rules_keep_value_obtuse :
    let I := RealInterpretation.trigonometric fun _ => 2
    let t := arccot (cot (var "x"))
    (I.value? t = some 2 ∧ I.PrincipalAngle t) ∧
      Rules.trigonometric t = var "x" ∧ I.value? (Rules.trigonometric t) = some 2 := by
  intro I t
  have hx : I.value? (var "x") = some 2 := by simp [I, value?, RealInterpretation.trigonometric]
  have hangle : (2 : ℝ) ∈ Set.Ioo 0 Real.pi :=
    ⟨two_pos, lt_trans (by norm_num) Real.pi_gt_three⟩
  have hcot : I.value? (cot (var "x")) = some (Real.cot 2) := by
    rw [value?_apply hx]
    exact I.function_cot.mpr ⟨(Real.sin_pos_of_mem_Ioo hangle).ne', rfl⟩
  have hvalue : I.value? t = some 2 := by
    rw [value?_apply hcot, function, arccot_cot hangle]
  have hrange : I.PrincipalAngle t := by
    refine ⟨by simp [t], by simp [t], by simp [t], fun a x ha hvalue => ?_⟩
    obtain rfl : var "x" = a := by simpa [t] using ha
    obtain rfl : 2 = x := Option.some.inj (hx.symm.trans hvalue)
    exact hangle
  exact ⟨⟨hvalue, hrange⟩, rfl,
    trigonometric_rules_keep_value hvalue hrange Rules.trigonometric (by simp)⟩

end RealInterpretation

end SymbolicAlgebra
