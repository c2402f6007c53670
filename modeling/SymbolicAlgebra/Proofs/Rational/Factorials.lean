import Mathlib.Data.Nat.Factorial.Basic
import Mathlib.Tactic.Ring
import SymbolicAlgebra.Proofs.Rational.Ordering
import SymbolicAlgebra.Proofs.Rules.Vocabulary

/-!
# Factorials of natural numbers

Where the factorial of a natural number is the usual one, the rules of factorials keep the value of
a product or quotient of factorials of natural numbers. The factors between two factorials are the
rising factorial over the smaller one.
-/

namespace SymbolicAlgebra

open SymbolicAlgebra.Expr SymbolicAlgebra.Rules

theorem Number.toRat_of_toInt? {a : Number} {k : ℤ} (h : a.toInt? = some k) : a.toRat = k := by
  cases a <;> cases h
  rfl

namespace Interpretation

variable (I : Interpretation) {t u b n d : Expr} {c : Number} {k : ℤ} {count : ℕ}

/-- The factorial is the usual one where its argument is a natural number. -/
def UsualFactorial : Prop := ∀ n : ℕ, I.apply .factorial n = some (n.factorial : ℚ)

theorem offset_spec (t : Expr) :
    (I.Defined t ↔ I.Defined (offset t).1 ∧ (offset t).2.isExact = true) ∧
      I.value t = I.value (offset t).1 + (offset t).2.toRat := by
  unfold offset
  split
  · exact ⟨Iff.rfl, rfl⟩
  · exact ⟨by simp [Number.isExact], by simp⟩

theorem shifted_spec (hb : I.Defined b) (hc : c.isExact = true) :
    I.Defined (shifted b c) ∧ I.value (shifted b c) = I.value b + c.toRat := by
  unfold shifted
  split_ifs with hzero
  · rw [(Number.isZero_iff hc).mp hzero, add_zero]
    exact ⟨hb, rfl⟩
  · exact ⟨⟨hb, hc⟩, rfl⟩

/-- Over a natural number the factors are the successors of that number. -/
theorem risingFactors_spec (hb : I.Defined b) (hc : c.isExact = true) {m : ℕ}
    (hm : I.value b + c.toRat = m) (count : ℕ) :
    (∀ x ∈ risingFactors b c count, I.Defined x) ∧
      ((risingFactors b c count).map I.value).prod = ((m + 1).ascFactorial count : ℚ) := by
  have hfactor : ∀ k : ℕ, I.Defined (shifted b (c.add (.integer (k + 1)))) ∧
      I.value (shifted b (c.add (.integer (k + 1)))) = m + (k + 1) := by
    intro k
    obtain ⟨hexact, hvalue⟩ := Number.isExact_add hc (Number.isExact_integer (k + 1))
    obtain ⟨hdef, hshifted⟩ := I.shifted_spec hb hexact
    refine ⟨hdef, ?_⟩
    rw [hshifted, hvalue, ← add_assoc, hm]
    simp
  refine ⟨fun x hx => ?_, ?_⟩
  · obtain ⟨k, -, rfl⟩ := List.mem_map.mp hx
    exact (hfactor k).1
  · induction count with
    | zero => simp [risingFactors]
    | succ count ih =>
      rw [risingFactors, List.range_succ, List.map_append, List.map_append, List.prod_append]
      rw [risingFactors] at ih
      rw [ih, Nat.ascFactorial_succ, List.map_singleton, List.map_singleton, List.prod_singleton,
        (hfactor count).2]
      push_cast
      ring

theorem folds_product : Chain.Folds I.Defined I.value product :=
  ⟨fun ha hb => ⟨ha, hb⟩, fun _ _ => rfl⟩

theorem hung_risingFactors (hu : Chain.Hung product (risingFactors b c count) u)
    (hb : I.Defined b) (hc : c.isExact = true) {m : ℕ} (hm : I.value b + c.toRat = m) :
    I.Defined u ∧ I.value u = (m + 1).ascFactorial count := by
  obtain ⟨hdef, hprod⟩ := I.risingFactors_spec hb hc hm count
  obtain ⟨hdefu, hvalue⟩ := I.folds_product.hung hu hdef
  exact ⟨hdefu, hvalue.trans hprod⟩

variable {I}

theorem UsualFactorial.value (h : I.UsualFactorial) {m : ℕ} (hn : I.value n = m) :
    I.value (factorial n) = m.factorial := by
  rw [Interpretation.value, hn, h m, Option.getD_some]

theorem UsualFactorial.defined (h : I.UsualFactorial) {m : ℕ} (hdef : I.Defined n)
    (hn : I.value n = m) : I.Defined (factorial n) := by
  refine ⟨hdef, ?_⟩
  rw [hn, h m, Option.isSome_some]

theorem factorialTimesNext_refines (hfactorial : I.UsualFactorial)
    (hnatural : ∀ a, factorial a ∈ t.children → ∃ m : ℕ, I.value a = m)
    (h : factorialTimesNext t = some u) : I.Refines t u := by
  unfold factorialTimesNext at h
  split at h
  case h_2 => cases h
  case h_1 n d =>
    simp only at h
    split_ifs at h with hnext
    cases h
    obtain ⟨hbase, hsucc⟩ := Bool.and_eq_true_iff.mp hnext
    obtain ⟨m, hm⟩ := hnatural n (by simp [children])
    rintro ⟨⟨hn, -⟩, hd⟩
    obtain ⟨hdefn, hvaluen⟩ := I.offset_spec n
    obtain ⟨hdefd, hvalued⟩ := I.offset_spec d
    have hadd := (Number.isExact_add (hdefn.mp hn).2 (Number.isExact_integer 1)).2
    have hoffset := (Number.isExact_eq_of_same hsucc).2
    have hd' : I.value d = (m + 1 : ℕ) := by
      have : (offset n).2.add 1 = (offset n).2.add (.integer 1) := rfl
      rw [this, hadd] at hoffset
      rw [hvalued, ← hoffset, ← (I.eq_of_beq hbase).2, ← add_assoc, ← hvaluen, hm]
      simp
    refine ⟨hfactorial.defined hd hd', ?_⟩
    rw [hfactorial.value hd', value_product, hfactorial.value hm, hd', Nat.factorial_succ]
    push_cast
    ring

theorem refines_of_unrolled (hfactorial : I.UsualFactorial) {l m : ℕ} (hm : I.value n = m)
    (hl : I.value d = l) (h : Unrolled n d k u) :
    I.Refines (quotient (factorial n) (factorial d)) u := by
  rintro ⟨⟨hn, -⟩, ⟨hd, -⟩, -⟩
  obtain ⟨hdefn, hvaluen⟩ := I.offset_spec n
  obtain ⟨hdefd, hvalued⟩ := I.offset_spec d
  obtain ⟨hbase, hexactn⟩ := hdefn.mp hn
  obtain ⟨-, hexactd⟩ := hdefd.mp hd
  have hbases := (I.eq_of_beq h.base).2
  have hdistance : (m : ℚ) - l = k := by
    rw [← Number.toRat_of_toInt? h.distance, (Number.isExact_sub hexactn hexactd).2, ← hm, ← hl,
      hvaluen, hvalued, hbases]
    ring
  rw [value_quotient, hfactorial.value hm, hfactorial.value hl]
  -- For either sign the factors rise from the smaller argument, `l` or `m`, to the larger one.
  obtain ⟨hpos, hung⟩ | ⟨hneg, v, hung, rfl⟩ := h.result
  · rw [hvalued, ← hbases] at hl
    obtain rfl : m = l + k.natAbs := by
      have : (m : ℤ) - l = k := by exact_mod_cast hdistance
      omega
    obtain ⟨hdef, hvalue⟩ := I.hung_risingFactors hung hbase hexactd hl
    refine ⟨hdef, ?_⟩
    rw [hvalue, ← Nat.factorial_mul_ascFactorial]
    push_cast
    field_simp
  · rw [hvaluen] at hm
    obtain rfl : l = m + k.natAbs := by
      have : (m : ℤ) - l = k := by exact_mod_cast hdistance
      omega
    obtain ⟨hdef, hvalue⟩ := I.hung_risingFactors hung hbase hexactn hm
    have hne : ((m + 1).ascFactorial k.natAbs : ℚ) ≠ 0 := by positivity
    refine ⟨⟨rfl, hdef, hvalue ▸ hne⟩, ?_⟩
    rw [value_quotient, hvalue, ← Nat.factorial_mul_ascFactorial, value_num,
      Number.toRat_integer]
    push_cast
    field_simp

theorem collapseFactorialMultiplications_refines (hfactorial : I.UsualFactorial)
    (hnatural : ∀ a, factorial a ∈ t.children → ∃ m : ℕ, I.value a = m) :
    I.Refines t (collapseFactorialMultiplications t) := by
  refine Template.rewrite_of_forall (fun h => ⟨h, rfl⟩) fun template hmem u hu => ?_
  rw [List.mem_singleton.mp hmem] at hu
  exact factorialTimesNext_refines hfactorial hnatural hu

theorem expandFactorialDivisions_refines (hfactorial : I.UsualFactorial)
    (hnatural : ∀ a, factorial a ∈ t.children → ∃ m : ℕ, I.value a = m) :
    I.Refines t (expandFactorialDivisions t) := by
  refine Template.rewrite_of_forall (fun h => ⟨h, rfl⟩) fun template hmem u hu => ?_
  rw [List.mem_singleton.mp hmem] at hu
  obtain ⟨n, d, k, rfl, hunrolled⟩ := unrolled_of_factorialQuotient hu
  obtain ⟨m, hm⟩ := hnatural n (by simp [children])
  obtain ⟨l, hl⟩ := hnatural d (by simp [children])
  exact refines_of_unrolled hfactorial hm hl hunrolled

/-- On factorials of natural numbers the rules of factorials keep the value of a tree. They rewrite
a factorial times the next number, and a quotient of factorials over one base whose arguments are
less than twenty apart is left with no factorials but those of the base. -/
theorem factorial_rules_keep_value (hfactorial : I.UsualFactorial) :
    (∀ t, I.Defined t → (∀ a, factorial a ∈ t.children → ∃ m : ℕ, I.value a = m) →
      ∀ rule ∈ [collapseFactorialMultiplications, expandFactorialDivisions],
        I.Defined (rule t) ∧ I.value (rule t) = I.value t) ∧
    ∀ b n d p q, Shifted b p n → Shifted b q d →
      (q = p + 1 →
        collapseFactorialMultiplications (product (factorial n) d) = factorial d) ∧
      ∀ k : ℤ, p - q = k → k ≠ 0 → |k| < 20 → ∀ V : Vocabulary, b.Within V →
        (expandFactorialDivisions (quotient (factorial n) (factorial d))).Within V := by
  refine ⟨fun t hdef hnatural rule hrule => ?_, fun b n d p q hn hd => ⟨?_, ?_⟩⟩
  · simp only [List.mem_cons, List.not_mem_nil, or_false] at hrule
    obtain rfl | rfl := hrule
    · exact collapseFactorialMultiplications_refines hfactorial hnatural hdef
    · exact expandFactorialDivisions_refines hfactorial hnatural hdef
  · rintro rfl
    exact collapseFactorialMultiplications_of_shifted hn hd
  · intro k hk hne hnear V hb
    have hnear : k.natAbs < maxUnroll := by
      rw [Int.abs_eq_natAbs] at hnear
      exact_mod_cast hnear
    exact within_expandFactorialDivisions_of_shifted hn hd hk hne hnear hb

/-- `(x + 2/3)! / (x + 11/3)!` at `x = 4/3`, which is `2! / 5!`, and `(x - 1)! * x`. -/
theorem factorial_rules_keep_value_rationalOffsets :
    let I : Interpretation :=
      { arithmetic fun _ => 4 / 3 with
        apply := fun f a => if f = .factorial then some (a.num.toNat.factorial : ℚ) else none }
    let x := var "x"
    let t := quotient (factorial (sum x (num (.ofRat (2 / 3)))))
      (factorial (sum x (num (.ofRat (11 / 3)))))
    let V : Vocabulary := ⟨fun name => name = "x", fun _ => False, fun _ => False⟩
    I.UsualFactorial ∧ I.Defined t ∧ (∀ a, factorial a ∈ t.children → ∃ m : ℕ, I.value a = m) ∧
      (I.Defined (expandFactorialDivisions t) ∧ I.value (expandFactorialDivisions t) = 1 / 60) ∧
      (expandFactorialDivisions t).Within V ∧
      collapseFactorialMultiplications (product (factorial (sum x (num (.ofRat (-1))))) x) =
        factorial x := by
  intro I x t V
  have hI : I.UsualFactorial := fun n => by simp [I]
  have hn : I.value (sum x (num (.ofRat (2 / 3)))) = (2 : ℕ) := by
    rw [value_sum, value_num, Number.toRat_ofRat]
    norm_num [I, x, arithmetic]
  have hd : I.value (sum x (num (.ofRat (11 / 3)))) = (5 : ℕ) := by
    rw [value_sum, value_num, Number.toRat_ofRat]
    norm_num [I, x, arithmetic]
  have hdef : I.Defined t := by
    refine ⟨hI.defined ⟨trivial, Number.isExact_ofRat _⟩ hn,
      hI.defined ⟨trivial, Number.isExact_ofRat _⟩ hd, ?_⟩
    rw [hI.value hd]
    positivity
  have hnatural : ∀ a, factorial a ∈ t.children → ∃ m : ℕ, I.value a = m := by
    intro a ha
    simp only [t, children, List.mem_cons, apply.injEq, true_and, List.not_mem_nil, or_false] at ha
    obtain rfl | rfl := ha
    · exact ⟨2, hn⟩
    · exact ⟨5, hd⟩
  have hbare : Shifted x 0 x := .bare fun _ _ => by simp [x]
  obtain ⟨hkeeps, hforms⟩ := factorial_rules_keep_value hI
  obtain ⟨hdefined, hvalue⟩ := hkeeps t hdef hnatural expandFactorialDivisions (by simp)
  refine ⟨hI, hdef, hnatural, ⟨hdefined, hvalue.trans ?_⟩, ?_, ?_⟩
  · have htwo : Nat.factorial 2 = 2 := rfl
    have hfive : Nat.factorial 5 = 120 := rfl
    rw [value_quotient, hI.value hn, hI.value hd, htwo, hfive]
    norm_num
  · exact (hforms x _ _ _ _ (.sum _) (.sum _)).2 (-3) (by norm_num) (by decide) (by decide) V
      (by simp [x, V])
  · exact (hforms x _ _ _ _ (.sum (-1)) hbare).1 (by norm_num)

end Interpretation

end SymbolicAlgebra
