import Mathlib.Tactic.NormNum
import SymbolicAlgebra.Proofs.Rational.Interpretation
import SymbolicAlgebra.Proofs.Rules.Exponentials

/-!
# The split of a linear angle

Wherever a tree that is written as `c * x + b` has a rational value, so have its slope and its
offset, and the value is the slope times the value of `x` plus the offset. So the closed form of a
sine or cosine is over powers with the right exponents and phases.
-/

namespace SymbolicAlgebra

namespace Interpretation

open SymbolicAlgebra.Expr SymbolicAlgebra.Rules

variable (I : Interpretation) {x t a b p : Expr} {c : Number}

theorem negated_spec (ha : I.Defined a) :
    I.Defined (negated a) ∧ I.value (negated a) = -I.value a := by
  unfold negated
  split
  · exact Number.isExact_neg ha
  · exact ⟨⟨rfl, ha⟩, by simp [negate]⟩

theorem multiple_spec (h : Multiple x c p) (hp : I.Defined p) :
    c.isExact = true ∧ I.value p = c.toRat * I.value x := by
  cases h with
  | one => exact ⟨rfl, by simp⟩
  | left c => exact ⟨hp.1, rfl⟩
  | right c => exact ⟨hp.2, mul_comm _ _⟩

/-- The slope and the offset of a tree that is written as `c * x + b`. -/
theorem linear_spec (h : Linear x c b t) (ht : I.Defined t) :
    (c.isExact = true ∧ I.Defined b) ∧ I.value t = c.toRat * I.value x + I.value b := by
  cases h with
  | multiple hp =>
    obtain ⟨hc, hvalue⟩ := I.multiple_spec hp ht
    exact ⟨⟨hc, rfl⟩, by simp [hvalue]⟩
  | sumLeft b hp =>
    obtain ⟨hp', hb⟩ := ht
    obtain ⟨hc, hvalue⟩ := I.multiple_spec hp hp'
    exact ⟨⟨hc, hb⟩, by rw [value_sum, hvalue]⟩
  | sumRight b hp =>
    obtain ⟨hb, hp'⟩ := ht
    obtain ⟨hc, hvalue⟩ := I.multiple_spec hp hp'
    exact ⟨⟨hc, hb⟩, by rw [value_sum, hvalue, add_comm]⟩
  | differenceLeft b hp =>
    obtain ⟨hp', hb⟩ := ht
    obtain ⟨hc, hvalue⟩ := I.multiple_spec hp hp'
    obtain ⟨hnegated, hoffset⟩ := I.negated_spec hb
    exact ⟨⟨hc, hnegated⟩, by rw [value_difference, hvalue, hoffset, sub_eq_add_neg]⟩
  | @differenceRight c p b hp =>
    obtain ⟨hb, hp'⟩ := ht
    obtain ⟨hc, hvalue⟩ := I.multiple_spec hp hp'
    obtain ⟨hexact, hslope⟩ := Number.isExact_neg hc
    refine ⟨⟨hexact, hb⟩, ?_⟩
    rw [value_difference, hvalue, hslope, neg_mul, neg_add_eq_sub]

/-- `a` and `b` are slope and offset of `t` at every rational valuation. -/
def IsSplit (x t a b : Expr) : Prop :=
  ∀ I : Interpretation, I.Defined t →
    (I.Defined a ∧ I.Defined b) ∧ I.value t = I.value a * I.value x + I.value b

theorem isSplit_of_linear (h : Linear x c b t) : IsSplit x t (num c) b :=
  fun I ht => I.linear_spec h ht

/-- The split of a tree has a literal slope and the value of the tree, and every sum or difference
of a multiple of the variable and another tree is split, in either order. So is such an angle when
its sine or cosine is written over powers of another tree. -/
theorem linearParts?_split (x : String) :
    (∀ t a b, linearParts? (var x) t = some (a, b) →
      (∃ c, a = num c) ∧ IsSplit (var x) t a b) ∧
    ∀ b c, ∀ p ∈ [var x, product (num c) (var x), product (var x) (num c)],
      ∀ t ∈ [p, sum p b, sum b p, difference p b, difference b p],
        ∃ d r, linearParts? (var x) t = some (num d, r) ∧ IsSplit (var x) t (num d) r ∧
          ∀ y,
            exponentialSubstitution (var x) y (sin t) =
              difference (product (power y (num d)) (quotient (phase r) twoI))
                (quotient (product (power y (num d.neg)) (phase (negated r))) twoI) ∧
            exponentialSubstitution (var x) y (cos t) =
              sum (product (power y (num d)) (quotient (phase r) (int 2)))
                (quotient (product (power y (num d.neg)) (phase (negated r))) (int 2)) := by
  have hsplit : ∀ t a b, linearParts? (var x) t = some (a, b) →
      (∃ c, a = num c) ∧ IsSplit (var x) t a b := by
    intro t a b h
    obtain ⟨c, rfl, hlinear⟩ := linear_of_linearParts? h
    exact ⟨⟨c, rfl⟩, isSplit_of_linear hlinear⟩
  refine ⟨hsplit, fun b c p hp t ht => ?_⟩
  obtain ⟨e, hmultiple⟩ : ∃ e, Multiple (var x) e p := by
    simp only [List.mem_cons, List.not_mem_nil, or_false] at hp
    obtain rfl | rfl | rfl := hp
    · exact ⟨1, .one⟩
    · exact ⟨c, .left c⟩
    · exact ⟨c, .right c⟩
  obtain ⟨e, s, hlinear⟩ : ∃ e s, Linear (var x) e s t := by
    simp only [List.mem_cons, List.not_mem_nil, or_false] at ht
    obtain rfl | rfl | rfl | rfl | rfl := ht
    · exact ⟨_, _, .multiple hmultiple⟩
    · exact ⟨_, _, .sumLeft b hmultiple⟩
    · exact ⟨_, _, .sumRight b hmultiple⟩
    · exact ⟨_, _, .differenceLeft b hmultiple⟩
    · exact ⟨_, _, .differenceRight b hmultiple⟩
  -- The split that is found may be another one than `e` and `s`, so its value is not read off `t`.
  obtain ⟨⟨a, r⟩, hparts⟩ := Option.isSome_iff_exists.mp (isSome_linearParts? hlinear)
  obtain ⟨⟨d, rfl⟩, hvalue⟩ := hsplit t a r hparts
  refine ⟨d, r, hparts, hvalue, fun y => ⟨?_, ?_⟩⟩
  · simp [exponentialSubstitution, Template.rewrite, Template.first, exponentialTemplate, hparts,
      exponentialSin, negated]
  · simp [exponentialSubstitution, Template.rewrite, Template.first, exponentialTemplate, hparts,
      exponentialCos, negated]

/-- `sin y - 2 * x` at `x = y = 3`, with `a + 1` for `sin a`. -/
theorem linearParts?_split_negated :
    let I : Interpretation := { arithmetic fun _ => 3 with apply := fun _ a => some (a + 1) }
    let t := difference (sin (var "y")) (product (int 2) (var "x"))
    (linearParts? (var "x") t = some (int (-2), sin (var "y")) ∧ I.Defined t ∧
        I.value t = -2 * 3 + 4) ∧
      exponentialSubstitution (var "x") (var "t") (sin t) =
        exponentialSin (var "t") (int (-2)) (sin (var "y")) := by
  intro I t
  have hparts : linearParts? (var "x") t = some (int (-2), sin (var "y")) := rfl
  have hdef : I.Defined t := ⟨⟨trivial, rfl⟩, rfl, trivial⟩
  obtain ⟨hsplit, hforms⟩ := linearParts?_split "x"
  obtain ⟨-, hvalue⟩ := (hsplit t _ _ hparts).2 I hdef
  obtain ⟨d, r, hfound, -, hclosed⟩ := hforms (sin (var "y")) (.integer 2)
    (product (int 2) (var "x")) (by simp) t (by simp [t])
  rw [hparts] at hfound
  cases hfound
  refine ⟨⟨hparts, hdef, hvalue.trans ?_⟩, (hclosed (var "t")).1⟩
  simp only [value, I, arithmetic, Number.toRat_integer, Option.getD_some]
  norm_num

end Interpretation

end SymbolicAlgebra
