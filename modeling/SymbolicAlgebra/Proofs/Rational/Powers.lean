import Mathlib.Tactic.FieldSimp
import SymbolicAlgebra.Proofs.Expr.Arithmetic
import SymbolicAlgebra.Proofs.Rational.Arithmetic
import SymbolicAlgebra.Proofs.Rules.Exactness

/-!
# The rules of powers as identities

`PowerDefined a k` says that the power of `a` with an exponent of value `k` is defined. The laws of
exponents hold for such powers, also over a base of value zero. The one rule that may lose a value
is `a ^ n / b ^ n` to `(a / b) ^ n`, for `n` of value zero over a `b` of value zero.
-/

namespace SymbolicAlgebra.Interpretation

open SymbolicAlgebra.Expr SymbolicAlgebra.Rules

variable (I : Interpretation) {t u a b n m p q : Expr} {k l : ℤ}

def PowerDefined (a : Expr) (k : ℤ) : Prop :=
  I.Defined a ∧ (I.value a ≠ 0 ∨ 0 ≤ k) ∨ I.zerothPower ∧ k = 0

theorem defined_power_iff :
    I.Defined (power a n) ↔ I.Defined n ∧ ∃ k : ℤ, I.value n = k ∧ I.PowerDefined a k := by
  rw [defined_power]
  constructor
  · rintro ⟨hn, hden, hbase⟩
    have hvalue : I.value n = (I.value n).num := (Rat.coe_int_num_of_den_eq_one hden).symm
    rw [hvalue, Int.cast_nonneg_iff, Int.cast_eq_zero] at hbase
    exact ⟨hn, _, hvalue, hbase⟩
  · rintro ⟨hn, k, hvalue, hbase⟩
    rw [hvalue, Int.cast_nonneg_iff, Int.cast_eq_zero]
    exact ⟨hn, Rat.den_intCast k, hbase⟩

theorem value_power_of_value (h : I.value n = k) : I.value (power a n) = I.value a ^ k := by
  rw [value_power, h, Rat.num_intCast]

namespace PowerDefined

variable {I}

theorem one (h : I.Defined a) : I.PowerDefined a 1 := Or.inl ⟨h, Or.inr zero_le_one⟩

theorem defined (h : I.PowerDefined a k) (hk : k ≠ 0) :
    I.Defined a ∧ (I.value a ≠ 0 ∨ 0 ≤ k) := by
  obtain h | h := h
  · exact h
  · exact absurd h.2 hk

theorem of_beq (hsame : (a == b) = true) (h : I.PowerDefined a k) : I.PowerDefined b k := by
  obtain ⟨hdef, hvalue⟩ := I.eq_of_beq hsame
  rwa [PowerDefined, ← hdef, ← hvalue]

theorem add (hk : I.PowerDefined a k) (hl : I.PowerDefined a l) :
    I.PowerDefined a (k + l) ∧ I.value a ^ (k + l) = I.value a ^ k * I.value a ^ l := by
  by_cases hzero : I.value a = 0
  · by_cases hk0 : k = 0
    · subst hk0
      rw [zero_add, zpow_zero, one_mul]
      exact ⟨hl, rfl⟩
    · by_cases hl0 : l = 0
      · subst hl0
        rw [add_zero, zpow_zero, mul_one]
        exact ⟨hk, rfl⟩
      · obtain ⟨hdef, hk⟩ := hk.defined hk0
        obtain ⟨-, hl⟩ := hl.defined hl0
        have hk := hk.resolve_left (not_not_intro hzero)
        have hl := hl.resolve_left (not_not_intro hzero)
        exact ⟨Or.inl ⟨hdef, Or.inr (by omega)⟩, zpow_add' (Or.inr (Or.inl (by omega)))⟩
  · refine ⟨?_, zpow_add₀ hzero k l⟩
    rw [PowerDefined] at *
    grind

theorem sub (hk : I.PowerDefined a k) (hl : I.PowerDefined a l) (hne : I.value a ^ l ≠ 0) :
    I.PowerDefined a (k - l) ∧ I.value a ^ (k - l) = I.value a ^ k / I.value a ^ l := by
  by_cases hzero : I.value a = 0
  · have hl0 : l = 0 := by
      by_contra hl0
      exact hne (by rw [hzero, zero_zpow l hl0])
    subst hl0
    rw [sub_zero, zpow_zero, div_one]
    exact ⟨hk, rfl⟩
  · refine ⟨?_, zpow_sub₀ hzero k l⟩
    rw [PowerDefined] at *
    grind

theorem product (ha : I.PowerDefined a k) (hb : I.PowerDefined b k) :
    I.PowerDefined (product a b) k ∧
      I.value (Expr.product a b) ^ k = I.value a ^ k * I.value b ^ k := by
  refine ⟨?_, mul_zpow _ _ k⟩
  rw [PowerDefined, value_product, defined_product] at *
  grind

theorem of_product (h : I.PowerDefined (Expr.product a b) k) :
    I.PowerDefined a k ∧ I.PowerDefined b k := by
  rw [PowerDefined, value_product, defined_product] at h
  rw [PowerDefined, PowerDefined]
  grind

theorem quotient (ha : I.PowerDefined a k) (hb : I.PowerDefined b k)
    (hne : I.value b ^ k ≠ 0) (hzero : I.zerothPower ∨ I.value b ≠ 0) :
    I.PowerDefined (quotient a b) k ∧
      I.value (Expr.quotient a b) ^ k = I.value a ^ k / I.value b ^ k := by
  refine ⟨?_, div_zpow _ _ k⟩
  rw [PowerDefined, value_quotient, defined_quotient] at *
  by_cases hk : k = 0
  · grind
  · have hb0 : I.value b ≠ 0 := by
      intro hb0
      exact hne (by rw [hb0, zero_zpow k hk])
    have := div_ne_zero_iff (a := I.value a) (b := I.value b)
    grind

theorem mul (h : I.PowerDefined a k) (hne : I.value a ^ k ≠ 0 ∨ 0 ≤ l) :
    I.PowerDefined a (k * l) := by
  obtain ⟨hdef, hbase⟩ | ⟨hlazy, rfl⟩ := h
  · refine Or.inl ⟨hdef, ?_⟩
    by_cases hzero : I.value a = 0
    · have hk := hbase.resolve_left (not_not_intro hzero)
      obtain rfl | hk0 := eq_or_ne k 0
      · exact Or.inr (zero_mul l).ge
      · rw [hzero, zero_zpow k hk0] at hne
        exact Or.inr (mul_nonneg hk (hne.resolve_left (not_not_intro rfl)))
    · exact Or.inl hzero
  · exact Or.inr ⟨hlazy, zero_mul l⟩

end PowerDefined

theorem plus_spec (ha : I.Defined a) (hb : I.Defined b) :
    I.Defined (plus a b) ∧ I.value (plus a b) = I.value a + I.value b := by
  unfold plus
  split
  · exact Number.isExact_add ha hb
  · exact ⟨⟨ha, hb⟩, rfl⟩

theorem minus_spec (ha : I.Defined a) (hb : I.Defined b) :
    I.Defined (minus a b) ∧ I.value (minus a b) = I.value a - I.value b := by
  unfold minus
  split
  · exact Number.isExact_sub ha hb
  · exact ⟨⟨ha, hb⟩, rfl⟩

theorem times_spec (ha : I.Defined a) (hb : I.Defined b) :
    I.Defined (times a b) ∧ I.value (times a b) = I.value a * I.value b := by
  unfold times
  split
  · exact Number.isExact_mul ha hb
  · exact ⟨⟨ha, hb⟩, rfl⟩

theorem literalPower_spec {c d : Number} (hexact : (literalPower c d).isExact = true)
    (hword : d.isLeastWord = false) (hd : d.toRat = k) (hc : I.PowerDefined (num c) k) :
    I.Defined (literalPower c d) ∧ I.value (literalPower c d) = c.toRat ^ k := by
  unfold literalPower at hexact ⊢
  split_ifs at hexact ⊢ with hpow
  · obtain ⟨-, e, rfl, -, hvalue⟩ := Number.isExact_pow hexact
    obtain rfl : e = k := Int.cast_injective hd
    exact ⟨hexact, (hvalue hword).2⟩
  · obtain ⟨-, hdexact⟩ := Bool.and_eq_true_iff.mp hexact
    exact ⟨I.defined_power_iff.mpr ⟨hdexact, k, hd, hc⟩, I.value_power_of_value hd⟩

/-- A power over the base `a`, whose value is the power with exponent `k`. -/
structure PowerOf (t a n : Expr) (k : ℤ) : Prop where
  exponent : I.Defined n
  value_exponent : I.value n = k
  base : I.PowerDefined a k
  value : I.value t = I.value a ^ k

theorem powerOf_power (h : I.Defined (power a n)) : ∃ k, I.PowerOf (power a n) a n k := by
  obtain ⟨hn, k, hk, hbase⟩ := I.defined_power_iff.mp h
  exact ⟨k, hn, hk, hbase, I.value_power_of_value hk⟩

theorem powerOf_one (h : I.Defined t) : I.PowerOf t t (int 1) 1 :=
  ⟨rfl, by simp, PowerDefined.one h, (zpow_one _).symm⟩

theorem powerOf_baseAndExponent (h : I.Defined t) :
    ∃ k, I.PowerOf t (baseAndExponent t).1 (baseAndExponent t).2 k := by
  unfold baseAndExponent
  split
  · exact I.powerOf_power h
  · exact ⟨1, I.powerOf_one h⟩

namespace PowerOf

variable {I}

theorem of_beq (hsame : (a == b) = true) (h : I.PowerOf t a n k) : I.PowerOf t b n k :=
  ⟨h.exponent, h.value_exponent, h.base.of_beq hsame, by rw [h.value, (I.eq_of_beq hsame).2]⟩

theorem defined_power (h : I.PowerOf t a n k) : I.Defined (power a n) :=
  I.defined_power_iff.mpr ⟨h.exponent, k, h.value_exponent, h.base⟩

theorem value_power (h : I.PowerOf t a n k) : I.value (power a n) = I.value t := by
  rw [I.value_power_of_value h.value_exponent, h.value]

theorem mul (hp : I.PowerOf p a n k) (hq : I.PowerOf q a m l) :
    I.PowerOf (product p q) a (plus n m) (k + l) := by
  obtain ⟨hdef, hvalue⟩ := I.plus_spec hp.exponent hq.exponent
  obtain ⟨hbase, hpow⟩ := hp.base.add hq.base
  refine ⟨hdef, ?_, hbase, ?_⟩
  · rw [hvalue, hp.value_exponent, hq.value_exponent, Int.cast_add]
  · rw [value_product, hp.value, hq.value, hpow]

theorem mul_swap (hp : I.PowerOf p a n k) (hq : I.PowerOf q a m l) :
    I.PowerOf (product q p) a (plus n m) (k + l) :=
  { hp.mul hq with value := by rw [← (hp.mul hq).value, value_product, value_product, mul_comm] }

theorem div (hp : I.PowerOf p a n k) (hq : I.PowerOf q a m l) (hne : I.value q ≠ 0) :
    I.PowerOf (quotient p q) a (minus n m) (k - l) := by
  obtain ⟨hdef, hvalue⟩ := I.minus_spec hp.exponent hq.exponent
  obtain ⟨hbase, hpow⟩ := hp.base.sub hq.base (hq.value ▸ hne)
  refine ⟨hdef, ?_, hbase, ?_⟩
  · rw [hvalue, hp.value_exponent, hq.value_exponent, Int.cast_sub]
  · rw [value_quotient, hp.value, hq.value, hpow]

end PowerOf

/-- What has a power as its value refines to it. -/
theorem refines_power (h : I.Defined t → ∃ k, I.PowerOf t a n k) : I.Refines t (power a n) := by
  intro hdef
  obtain ⟨k, hk⟩ := h hdef
  exact ⟨hk.defined_power, hk.value_power⟩

theorem productOver_refines {template : Template}
    (hmem : template ∈ [powerTimesBase, baseTimesPower, productOverBase])
    (h : template t = some u) : I.Refines t u := by
  simp only [List.mem_cons, List.not_mem_nil, or_false] at hmem
  obtain rfl | rfl | rfl := hmem
  all_goals
    simp only [powerTimesBase, baseTimesPower, productOverBase] at h
    split at h
    case h_2 => cases h
    split_ifs at h with hsame
    cases h
    refine I.refines_power fun hdef => ?_
    obtain ⟨hp, hq⟩ := hdef
  · obtain ⟨k, hk⟩ := I.powerOf_power hp
    exact ⟨k + 1, hk.mul ((I.powerOf_one hq).of_beq (BEq.symm hsame))⟩
  · obtain ⟨k, hk⟩ := I.powerOf_power hq
    exact ⟨k + 1, hk.mul_swap ((I.powerOf_one hp).of_beq (BEq.symm hsame))⟩
  · obtain ⟨k, hk⟩ := I.powerOf_power hp
    obtain ⟨l, hl⟩ := I.powerOf_power hq
    exact ⟨k + l, hk.mul (hl.of_beq (BEq.symm hsame))⟩

theorem quotientOver_refines {template : Template}
    (hmem : template ∈ [quotientOverBase, baseOverPower, powerOverBase])
    (h : template t = some u) : I.Refines t u := by
  simp only [List.mem_cons, List.not_mem_nil, or_false] at hmem
  obtain rfl | rfl | rfl := hmem
  all_goals
    simp only [quotientOverBase, baseOverPower, powerOverBase] at h
    split at h
    case h_2 => cases h
    split_ifs at h with hsame
    cases h
    refine I.refines_power fun hdef => ?_
    obtain ⟨hp, hq, hne⟩ := hdef
  · obtain ⟨k, hk⟩ := I.powerOf_power hp
    obtain ⟨l, hl⟩ := I.powerOf_power hq
    exact ⟨k - l, hk.div (hl.of_beq (BEq.symm hsame)) hne⟩
  · obtain ⟨k, hk⟩ := I.powerOf_power hq
    exact ⟨1 - k, ((I.powerOf_one hp).of_beq (BEq.symm hsame)).div hk hne⟩
  · obtain ⟨k, hk⟩ := I.powerOf_power hp
    exact ⟨k - 1, hk.div ((I.powerOf_one hq).of_beq (BEq.symm hsame)) hne⟩

theorem productOverExponent_refines (h : productOverExponent t = some u) : I.Refines t u := by
  unfold productOverExponent at h
  split at h
  · split_ifs at h with hsame
    cases h
    refine I.refines_power fun hdef => ?_
    obtain ⟨hp, hq⟩ := hdef
    obtain ⟨k, hk⟩ := I.powerOf_power hp
    obtain ⟨l, hl⟩ := I.powerOf_power hq
    have hexponents := (I.eq_of_beq hsame).2
    rw [hk.value_exponent, hl.value_exponent, Int.cast_inj] at hexponents
    subst hexponents
    obtain ⟨hbase, hvalue⟩ := hk.base.product hl.base
    refine ⟨k, hk.exponent, hk.value_exponent, hbase, ?_⟩
    rw [value_product, hk.value, hl.value, hvalue]
  · cases h

theorem quotientOverExponent_refines (h : quotientOverExponent t = some u)
    (hzero : ∀ p b m, t = quotient p (power b m) → I.zerothPower ∨ I.value b ≠ 0) :
    I.Refines t u := by
  unfold quotientOverExponent at h
  split at h
  · split_ifs at h with hsame
    cases h
    refine I.refines_power fun hdef => ?_
    obtain ⟨hp, hq, hne⟩ := hdef
    obtain ⟨k, hk⟩ := I.powerOf_power hp
    obtain ⟨l, hl⟩ := I.powerOf_power hq
    have hexponents := (I.eq_of_beq hsame).2
    rw [hk.value_exponent, hl.value_exponent, Int.cast_inj] at hexponents
    subst hexponents
    obtain ⟨hbase, hvalue⟩ :=
      hk.base.quotient hl.base (hl.value ▸ hne) (hzero _ _ _ rfl)
    refine ⟨k, hk.exponent, hk.value_exponent, hbase, ?_⟩
    rw [value_quotient, hk.value, hl.value, hvalue]
  · cases h

theorem powerOfPower_refines (h : powerOfPower t = some u)
    (hexponent : ∀ a n m, t = power (power a n) m → I.zerothPower → I.Defined n) :
    I.Refines t u := by
  unfold powerOfPower at h
  split at h
  case h_1 a n m =>
    cases h
    refine I.refines_power fun hdef => ?_
    obtain ⟨l, hl⟩ := I.powerOf_power hdef
    obtain ⟨hinner, hne⟩ | ⟨hlazy, rfl⟩ := hl.base
    · obtain ⟨k, hk⟩ := I.powerOf_power hinner
      obtain ⟨htimes, hvalue⟩ := I.times_spec hk.exponent hl.exponent
      refine ⟨k * l, htimes, ?_, ?_, ?_⟩
      · rw [hvalue, hk.value_exponent, hl.value_exponent, Int.cast_mul]
      · exact hk.base.mul (hk.value ▸ hne)
      · rw [hl.value, hk.value, zpow_mul]
    · obtain ⟨htimes, hvalue⟩ := I.times_spec (hexponent a n m rfl hlazy) hl.exponent
      refine ⟨0, htimes, ?_, Or.inr ⟨hlazy, rfl⟩, ?_⟩
      · rw [hvalue, hl.value_exponent, Int.cast_zero, mul_zero]
      · rw [hl.value, zpow_zero, zpow_zero]
  case h_2 => cases h

theorem absorbedIntoPower_spec {r s : Expr} (h : absorbedIntoPower a n r s = some u)
    (hpower : I.Defined (power a n)) (hr : I.Defined r) (hs : I.Defined s) :
    I.Defined u ∧ I.value u = I.value (power a n) * (I.value r * I.value s) := by
  obtain ⟨k, hk⟩ := I.powerOf_power hpower
  unfold absorbedIntoPower at h
  split_ifs at h with hsame hsame
  · cases h
    have hmul := hk.mul ((I.powerOf_one hr).of_beq hsame)
    refine ⟨⟨hmul.defined_power, hs⟩, ?_⟩
    rw [value_product, hmul.value_power, value_product, mul_assoc]
  · cases h
    have hmul := hk.mul ((I.powerOf_one hs).of_beq hsame)
    refine ⟨⟨hmul.defined_power, hr⟩, ?_⟩
    rw [value_product, hmul.value_power, value_product, mul_assoc, mul_comm (I.value s)]

theorem absorbing_refines {template : Template}
    (hmem : template ∈ [powerTimesProduct, productTimesPower])
    (h : template t = some u) : I.Refines t u := by
  simp only [List.mem_cons, List.not_mem_nil, or_false] at hmem
  obtain rfl | rfl := hmem
  · unfold powerTimesProduct at h
    split at h
    · exact fun ⟨hpower, hr, hs⟩ => I.absorbedIntoPower_spec h hpower hr hs
    · cases h
  · unfold productTimesPower at h
    split at h
    · rintro ⟨⟨hr, hs⟩, hpower⟩
      obtain ⟨hdef, hvalue⟩ := I.absorbedIntoPower_spec h hpower hr hs
      exact ⟨hdef, by rw [hvalue, value_product, value_product, mul_comm]⟩
    · cases h

theorem powerOfLiteralProduct_refines (h : powerOfLiteralProduct t = some u)
    (hexact : u.isExact = true)
    (hword : ∀ c d, literalsRaised t = some (c, d) → d.isLeastWord = false) : I.Refines t u := by
  unfold powerOfLiteralProduct at h
  split at h
  case h_1 c a d =>
    cases h
    intro hdef
    obtain ⟨k, hk⟩ := I.powerOf_power hdef
    obtain ⟨hc, ha⟩ := hk.base.of_product
    obtain ⟨hdefc, hvaluec⟩ := I.literalPower_spec (Bool.and_eq_true_iff.mp hexact).1
      (hword c d rfl) hk.value_exponent hc
    have hpower : I.PowerOf (power a (num d)) a (num d) k :=
      ⟨hk.exponent, hk.value_exponent, ha, I.value_power_of_value hk.value_exponent⟩
    refine ⟨⟨hdefc, hpower.defined_power⟩, ?_⟩
    rw [value_product, hvaluec, hpower.value, hk.value, value_product, mul_zpow, value_num]
  case h_2 => cases h

theorem reciprocal_refines (h : reciprocal t = some u) : I.Refines t u := by
  unfold reciprocal at h
  split at h
  · split_ifs at h with hint
    cases h
    rw [isInt_iff.mp hint]
    intro hdef
    obtain ⟨hbase, hne⟩ := (I.defined_power_int _ (by decide)).mp hdef
    refine ⟨⟨rfl, hbase, hne.resolve_right (by decide)⟩, ?_⟩
    rw [value_power_int, zpow_neg_one, value_quotient, value_num, Number.toRat_integer,
      Int.cast_one, one_div]
  · cases h

/-- `(c / a) ^ d` times a power of `a`. -/
theorem literalQuotientTimes_spec {c d e : Number} (hexact : (literalPower c d).isExact = true)
    (hword : d.isLeastWord = false)
    (hdef : I.Defined (power (quotient (num c) a) (num d))) (hq : I.PowerOf q a (num e) l) :
    I.Defined (product (literalPower c d) (power a (num (e.sub d)))) ∧
      I.value (product (literalPower c d) (power a (num (e.sub d)))) =
        I.value (product (power (quotient (num c) a) (num d)) q) := by
  obtain ⟨k, hk⟩ := I.powerOf_power hdef
  obtain ⟨hsub, hexponent⟩ := Number.isExact_sub hq.exponent hk.exponent
  rw [← value_num I, ← value_num I, ← value_num I, hq.value_exponent, hk.value_exponent,
    ← Int.cast_sub] at hexponent
  have hbases : I.PowerDefined (num c) k ∧ I.PowerDefined a (l - k) ∧
      c.toRat ^ k * I.value a ^ (l - k) = (c.toRat / I.value a) ^ k * I.value a ^ l := by
    by_cases hzero : k = 0
    · subst hzero
      rw [sub_zero, zpow_zero, zpow_zero]
      refine ⟨?_, hq.base, rfl⟩
      obtain ⟨⟨hc, -⟩, -⟩ | hlazy := hk.base
      · exact Or.inl ⟨hc, Or.inr le_rfl⟩
      · exact Or.inr hlazy
    · obtain ⟨⟨hc, ha, hne⟩, hquotient⟩ := hk.base.defined hzero
      rw [value_quotient, div_ne_zero_iff] at hquotient
      refine ⟨Or.inl ⟨hc, hquotient.imp_left And.left⟩, Or.inl ⟨ha, Or.inl hne⟩, ?_⟩
      rw [div_zpow, zpow_sub₀ hne]
      field_simp
  obtain ⟨hc, ha, hvalue⟩ := hbases
  obtain ⟨hdefc, hvaluec⟩ := I.literalPower_spec hexact hword hk.value_exponent hc
  refine ⟨⟨hdefc, I.defined_power_iff.mpr ⟨hsub, l - k, hexponent, ha⟩⟩, ?_⟩
  rw [value_product, hvaluec, I.value_power_of_value hexponent, value_product, hk.value, hq.value,
    value_quotient, value_num, hvalue]

theorem literalQuotientTimesBase_refines (h : literalQuotientTimesBase t = some u)
    (hexact : u.isExact = true)
    (hword : ∀ c d, literalsRaised t = some (c, d) → d.isLeastWord = false) : I.Refines t u := by
  unfold literalQuotientTimesBase at h
  split at h
  · split_ifs at h with hsame
    cases h
    intro ⟨hdef, hq⟩
    exact I.literalQuotientTimes_spec (Bool.and_eq_true_iff.mp hexact).1 (hword _ _ rfl) hdef
      ((I.powerOf_one hq).of_beq hsame)
  · cases h

theorem literalQuotientTimesPower_refines (h : literalQuotientTimesPower t = some u)
    (hexact : u.isExact = true)
    (hword : ∀ c d, literalsRaised t = some (c, d) → d.isLeastWord = false) : I.Refines t u := by
  unfold literalQuotientTimesPower at h
  split at h
  · split_ifs at h with hsame
    cases h
    intro ⟨hdef, hq⟩
    obtain ⟨l, hl⟩ := I.powerOf_power hq
    exact I.literalQuotientTimes_spec (Bool.and_eq_true_iff.mp hexact).1 (hword _ _ rfl) hdef
      (hl.of_beq hsame)
  · cases h

theorem nestedQuotient_refines (h : nestedQuotient t = some u) : I.Refines t u := by
  unfold nestedQuotient at h
  split at h
  · simp only at h
    split_ifs at h with hsame
    cases h
    rintro ⟨⟨ha, hinner, hne⟩, hq, hne'⟩
    obtain ⟨k, hk⟩ := I.powerOf_baseAndExponent hinner
    obtain ⟨l, hl⟩ := I.powerOf_baseAndExponent hq
    have hmul := hk.mul (hl.of_beq (BEq.symm hsame))
    have hvalue := hmul.value_power
    rw [value_product] at hvalue
    refine ⟨⟨ha, hmul.defined_power, ?_⟩, ?_⟩
    · rw [hvalue]
      exact mul_ne_zero hne hne'
    · rw [value_quotient, hvalue, value_quotient, value_quotient, div_div]
  · cases h

/-- A literal to the power of a logarithm is rewritten just if the logarithm is to that base. -/
theorem powerOfLog_refines (h : powerOfLog t = some u)
    (hlog : ∀ c a, t ≠ power (num c) (Expr.log (num c) a)) : I.Refines t u := by
  unfold powerOfLog at h
  split at h
  case h_1 c base a =>
    split_ifs at h with hsame
    rintro ⟨⟨hbase, -, -⟩, -⟩
    change base.same (num c) = true at hsame
    cases base <;> simp only [same, Bool.false_eq_true] at hsame
    rw [Number.eq_of_same hbase hsame] at hlog
    exact absurd rfl (hlog c a)
  case h_2 => cases h

/-- Wherever a tree is defined, its rewrite by the rules of powers has the same value, if the rules
write no inexact literal and raise none to the least word, the tree is no power of a literal to a
logarithm to that base, and no exponent is dropped that may be undefined and no zeroth power of a
zero divisor. -/
theorem powers_refines (t : Expr) (hexact : (powers t).isExact = true)
    (hword : ∀ c d, RaisesLiteral t c d → d.isLeastWord = false)
    (hlog : ∀ c a, t ≠ power (num c) (Expr.log (num c) a))
    (hexponent : ∀ a n m, t = power (power a n) m → I.zerothPower → I.Defined n)
    (hzero : ∀ p b m, t = quotient p (power b m) → I.zerothPower ∨ I.value b ≠ 0) :
    I.Refines t (powers t) := by
  -- The literals are raised by the template that gives the result, not by any that matches.
  refine Template.rewrite_of_forall (R := fun _ u => u = powers t → I.Refines t u)
    (fun _ h => ⟨h, rfl⟩) (fun template hmem u hu hresult => ?_) rfl
  rw [← hresult] at hexact
  have hraised : template ∈ literalPowerFamily → ∀ c d, literalsRaised t = some (c, d) →
      d.isLeastWord = false := fun hliteral c d hcd =>
    hword c d ⟨hcd, template, hliteral, hresult ▸ hu⟩
  simp only [powerFamily, List.mem_cons, List.not_mem_nil, or_false] at hmem
  obtain rfl | rfl | rfl | rfl | rfl | rfl | rfl | rfl | rfl | rfl | rfl | rfl | rfl | rfl | rfl |
    rfl | rfl | rfl := hmem
  · unfold powerBeforeVariable at hu
    split at hu
    · grind [Refines]
    · cases hu
  · exact I.productOver_refines (by simp) hu
  · exact I.productOver_refines (by simp) hu
  · exact I.productOver_refines (by simp) hu
  · exact I.quotientOver_refines (by simp) hu
  · exact I.powerOfPower_refines hu hexponent
  · exact I.productOverExponent_refines hu
  · exact I.quotientOverExponent_refines hu hzero
  · exact I.quotientOver_refines (by simp) hu
  · exact I.quotientOver_refines (by simp) hu
  · exact I.powerOfLog_refines hu hlog
  · exact I.absorbing_refines (by simp) hu
  · exact I.absorbing_refines (by simp) hu
  · exact I.powerOfLiteralProduct_refines hu hexact (hraised (by simp [literalPowerFamily]))
  · exact I.reciprocal_refines hu
  · exact I.literalQuotientTimesBase_refines hu hexact (hraised (by simp [literalPowerFamily]))
  · exact I.literalQuotientTimesPower_refines hu hexact (hraised (by simp [literalPowerFamily]))
  · exact I.nestedQuotient_refines hu

theorem invertNegativePowers_refines (t : Expr) : I.Refines t (invertNegativePowers t) := by
  refine Template.rewrite_of_forall (fun h => ⟨h, rfl⟩) fun template hmem u hu => ?_
  rw [List.mem_singleton.mp hmem] at hu
  unfold negativePower at hu
  split at hu
  case h_1 base n =>
    intro hdef
    split_ifs at hu with hone hneg
    · cases hu
      subst hone
      obtain ⟨hbase, hne⟩ := (I.defined_power_int base (by decide)).mp hdef
      refine ⟨⟨rfl, hbase, hne.resolve_right (by decide)⟩, ?_⟩
      simp
    · cases hu
      obtain ⟨hbase, hne⟩ := (I.defined_power_int base (by omega)).mp hdef
      have hne : I.value base ≠ 0 := hne.resolve_right (by omega)
      refine ⟨⟨rfl, (I.defined_power_int base (by omega)).mpr ⟨hbase, Or.inl hne⟩, ?_⟩, ?_⟩
      · rw [value_power_int]
        exact zpow_ne_zero _ hne
      · rw [value_quotient, value_power_int, value_power_int, zpow_neg]
        simp
  case h_2 => cases hu

end SymbolicAlgebra.Interpretation
