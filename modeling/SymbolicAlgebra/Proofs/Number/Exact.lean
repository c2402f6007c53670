import Mathlib.Algebra.Order.Ring.Rat
import Mathlib.Data.Rat.Defs
import SymbolicAlgebra.Expr.Equality
import SymbolicAlgebra.Number.Functions
import SymbolicAlgebra.Program.Opcode

/-!
# The exact tiers as rationals

An exact number is `ofRat` of exactly one rational. On exact numbers the operations are those of the
rationals, division by zero and powers out of range apart, and a result is only ever exact if both
operands are. An exact power is that of the rationals, unless its exponent is the least word.
-/

namespace SymbolicAlgebra

namespace Number

/-- The rational value; zero for an inexact number. -/
def toRat (a : Number) : ℚ := a.toRat?.getD 0

@[simp, grind =] theorem toRat_integer (n : ℤ) : (integer n).toRat = n := rfl

@[simp] theorem toRat_rational (q : ℚ) (h : q.den ≠ 1) : (rational q h).toRat = q := rfl

@[simp] theorem toRat_zero : (0 : Number).toRat = 0 := rfl

@[simp] theorem toRat_one : (1 : Number).toRat = 1 := rfl

@[simp, grind =] theorem isExact_integer (n : ℤ) : (integer n).isExact = true := rfl

@[simp] theorem toRat?_ofRat (q : ℚ) : (ofRat q).toRat? = some q := by
  unfold ofRat
  by_cases h : q.den = 1
  · rw [dif_pos h]
    exact congrArg some (Rat.coe_int_num_of_den_eq_one h)
  · rw [dif_neg h]
    rfl

@[simp] theorem toRat_ofRat (q : ℚ) : (ofRat q).toRat = q := by simp [toRat]

@[simp] theorem isExact_ofRat (q : ℚ) : (ofRat q).isExact = true := by
  unfold ofRat
  split_ifs <;> rfl

@[simp] theorem ofRat_intCast (n : ℤ) : ofRat n = integer n := rfl

theorem isExact_iff {a : Number} : a.isExact = true ↔ ∃ q, a = ofRat q := by
  constructor
  · intro h
    cases a with
    | integer n => exact ⟨n, rfl⟩
    | rational q hq => exact ⟨q, by rw [ofRat, dif_neg hq]⟩
    | real x => cases h
    | complex z => cases h
  · rintro ⟨q, rfl⟩
    exact isExact_ofRat q

theorem ofRat_toRat {a : Number} (h : a.isExact = true) : ofRat a.toRat = a := by
  obtain ⟨q, rfl⟩ := isExact_iff.mp h
  rw [toRat_ofRat]

theorem toRat?_eq_none {a : Number} (h : a.isExact = false) : a.toRat? = none := by
  cases a with
  | integer n => cases h
  | rational q hq => cases h
  | real x => rfl
  | complex z => rfl

@[simp] theorem add_ofRat (p q : ℚ) : (ofRat p).add (ofRat q) = ofRat (p + q) := by simp [add]

@[simp] theorem sub_ofRat (p q : ℚ) : (ofRat p).sub (ofRat q) = ofRat (p - q) := by simp [sub]

@[simp] theorem mul_ofRat (p q : ℚ) : (ofRat p).mul (ofRat q) = ofRat (p * q) := by simp [mul]

theorem div_ofRat (p : ℚ) {q : ℚ} (h : q ≠ 0) : (ofRat p).div (ofRat q) = ofRat (p / q) := by
  simp [div, h]

@[simp] theorem neg_ofRat (q : ℚ) : (ofRat q).neg = ofRat (-q) := by
  unfold ofRat
  by_cases h : q.den = 1
  · simp [h, neg]
  · simp [h, neg]

section Operations

variable {a b : Number} (ha : a.isExact = true) (hb : b.isExact = true)

include ha in
theorem isExact_neg : a.neg.isExact = true ∧ a.neg.toRat = -a.toRat := by
  obtain ⟨p, rfl⟩ := isExact_iff.mp ha
  simp

include ha hb

theorem isExact_add : (a.add b).isExact = true ∧ (a.add b).toRat = a.toRat + b.toRat := by
  obtain ⟨p, rfl⟩ := isExact_iff.mp ha
  obtain ⟨q, rfl⟩ := isExact_iff.mp hb
  simp

theorem isExact_sub : (a.sub b).isExact = true ∧ (a.sub b).toRat = a.toRat - b.toRat := by
  obtain ⟨p, rfl⟩ := isExact_iff.mp ha
  obtain ⟨q, rfl⟩ := isExact_iff.mp hb
  simp

theorem isExact_mul : (a.mul b).isExact = true ∧ (a.mul b).toRat = a.toRat * b.toRat := by
  obtain ⟨p, rfl⟩ := isExact_iff.mp ha
  obtain ⟨q, rfl⟩ := isExact_iff.mp hb
  simp

theorem isExact_div (h : b.toRat ≠ 0) :
    (a.div b).isExact = true ∧ (a.div b).toRat = a.toRat / b.toRat := by
  obtain ⟨p, rfl⟩ := isExact_iff.mp ha
  obtain ⟨q, rfl⟩ := isExact_iff.mp hb
  rw [toRat_ofRat] at h
  simp [div_ofRat p h]

end Operations

theorem isZero_iff {a : Number} (h : a.isExact = true) : a.isZero = true ↔ a.toRat = 0 := by
  cases a with
  | integer n => simp [isZero]
  | rational q hq => simp [isZero]
  | real x => cases h
  | complex z => cases h

theorem isInteger_iff {a : Number} : a.isInteger = true ↔ ∃ n, a = integer n := by
  cases a <;> simp [isInteger]

theorem isInteger_add {a b : Number} (ha : a.isInteger = true) (hb : b.isInteger = true) :
    (a.add b).isInteger = true := by
  obtain ⟨m, rfl⟩ := isInteger_iff.mp ha
  obtain ⟨n, rfl⟩ := isInteger_iff.mp hb
  rw [← ofRat_intCast, ← ofRat_intCast, add_ofRat, ← Int.cast_add]
  rfl

theorem isInteger_sub {a b : Number} (ha : a.isInteger = true) (hb : b.isInteger = true) :
    (a.sub b).isInteger = true := by
  obtain ⟨m, rfl⟩ := isInteger_iff.mp ha
  obtain ⟨n, rfl⟩ := isInteger_iff.mp hb
  rw [← ofRat_intCast, ← ofRat_intCast, sub_ofRat, ← Int.cast_sub]
  rfl

theorem isInteger_mul {a b : Number} (ha : a.isInteger = true) (hb : b.isInteger = true) :
    (a.mul b).isInteger = true := by
  obtain ⟨m, rfl⟩ := isInteger_iff.mp ha
  obtain ⟨n, rfl⟩ := isInteger_iff.mp hb
  rw [← ofRat_intCast, ← ofRat_intCast, mul_ofRat, ← Int.cast_mul]
  rfl

@[simp] theorem isExact_widened (onReal : Float → Float → Float)
    (onComplex : ComplexFloat → ComplexFloat → ComplexFloat) (a b : Number) :
    (widened onReal onComplex a b).isExact = false := by
  unfold widened
  split
  · rfl
  · unfold ofComplex
    split_ifs <;> rfl

@[simp] theorem isExact_inexactPow (a b : Number) : (inexactPow a b).isExact = false := by
  have hcomplex : ∀ z, (ofComplex z).isExact = false := by
    intro z
    unfold ofComplex
    split_ifs <;> rfl
  unfold inexactPow
  split
  · split_ifs
    · rfl
    · exact hcomplex _
  · exact hcomplex _

/-! ## Powers -/

/-- The word that is its own absolute value. -/
def leastWord : ℤ := -9223372036854775808

theorem toInt_abs (w : Int64) :
    w.abs.toInt = if w.toInt = leastWord then leastWord else w.toInt.natAbs := by
  have hleast : w.toBitVec = BitVec.intMin 64 ↔ w.toInt = leastWord := by
    rw [← BitVec.toInt_inj]
    rfl
  change w.toBitVec.abs.toInt = _
  rw [BitVec.toInt_abs_eq_ite]
  by_cases h : w.toBitVec = BitVec.intMin 64
  · rw [if_pos h, if_pos (hleast.mp h)]
    rfl
  · rw [if_neg h, if_neg (mt hleast.mpr h), BitVec.msb_eq_toInt]
    change (if decide (w.toInt < 0) = true then -w.toInt else w.toInt) = _
    simp only [decide_eq_true_eq]
    split_ifs <;> omega

section Word

variable {e : ℤ} (hfits : Decimal.fitsWord e = true)

include hfits

theorem toInt_ofInt : (Int64.ofInt e).toInt = e := by
  obtain ⟨hlo, hhi⟩ : -9223372036854775808 ≤ e ∧ e ≤ 9223372036854775807 := by
    simpa [Decimal.fitsWord] using hfits
  exact Int64.toInt_ofInt_of_le (by omega) (by omega)

theorem hasExactPower_ofInt (q : ℚ) :
    hasExactPower q (.ofInt e) = true ↔
      (e = leastWord ∨ e.natAbs ≤ maxExactExponent) ∧ ¬ (q = 0 ∧ e < 0) := by
  have hneg : Int64.ofInt e < 0 ↔ e < 0 := by
    rw [Int64.lt_iff_toInt_lt, toInt_ofInt hfits]
    rfl
  simp only [hasExactPower, Bool.and_eq_true, decide_eq_true_eq, Bool.not_eq_true',
    decide_eq_false_iff_not, ← Bool.decide_and, hneg, toInt_abs, toInt_ofInt hfits]
  refine and_congr_left fun _ => ?_
  have hleast : leastWord = -9223372036854775808 := rfl
  split_ifs <;> omega

/-- The low half of an exponent in range is the exponent itself. -/
theorem toInt_toInt32_ofInt (hrange : e.natAbs ≤ maxExactExponent) :
    (Int64.ofInt e).toInt32.toInt = e := by
  have hmax : maxExactExponent = 4096 := rfl
  rw [Int64.toInt_toInt32, toInt_ofInt hfits]
  exact Int.bmod_eq_of_le (by omega) (by omega)

end Word

/-- Over a base other than zero, an exponent in range gives the exact power, and the least word,
whose low half is zero, gives one. -/
theorem pow_integer (q : ℚ) (e : ℤ) :
    (ofRat q).pow (integer e) =
      if q = 0 ∧ e < 0 then inexactPow (ofRat q) (integer e)
      else if e = leastWord then ofRat 1
      else if e.natAbs ≤ maxExactExponent then ofRat (q ^ e)
      else inexactPow (ofRat q) (integer e) := by
  by_cases hfits : Decimal.fitsWord e = true
  · simp only [pow, toRat?_ofRat, toWord?, toInt?, Option.filter_some, hfits, if_true,
      Option.map_some, hasExactPower_ofInt hfits]
    split_ifs with hpower hbase hleast hrange hbase hleast hrange
    · exact absurd hbase hpower.2
    · have hlow : (Int64.ofInt leastWord).toInt32.toInt = 0 := by decide
      rw [hleast, hlow, zpow_zero]
    · rw [toInt_toInt32_ofInt hfits hrange]
    · exact absurd hpower.1 (not_or.mpr ⟨hleast, hrange⟩)
    · rfl
    · exact absurd ⟨Or.inl hleast, hbase⟩ hpower
    · exact absurd ⟨Or.inr hrange, hbase⟩ hpower
    · rfl
  · have hword : (integer e).toWord? = none := by simp [toWord?, toInt?, hfits]
    have hbounds : e ≠ leastWord ∧ maxExactExponent < e.natAbs := by
      have hleast : leastWord = -9223372036854775808 := rfl
      have hmax : maxExactExponent = 4096 := rfl
      simp only [Decimal.fitsWord, Bool.and_eq_true, decide_eq_true_eq] at hfits
      omega
    simp only [pow, toRat?_ofRat, hword, if_neg hbounds.1, if_neg (Nat.not_le_of_lt hbounds.2),
      ite_self]

def isLeastWord (a : Number) : Bool := a.toInt? == some leastWord

theorem isLeastWord_iff {a : Number} : a.isLeastWord = true ↔ a = integer leastWord := by
  cases a <;> simp [isLeastWord, toInt?]

/-- An exact power has an integer exponent, in range or the least word. -/
theorem isExact_pow {a b : Number} (h : (a.pow b).isExact = true) :
    a.isExact = true ∧ ∃ e : ℤ, b = integer e ∧ (a.toRat ≠ 0 ∨ 0 ≤ e) ∧
      (b.isLeastWord = false →
        e.natAbs ≤ maxExactExponent ∧ (a.pow b).toRat = a.toRat ^ e) := by
  by_cases ha : a.isExact = true
  · refine ⟨ha, ?_⟩
    obtain ⟨p, rfl⟩ := isExact_iff.mp ha
    cases b with
    | integer e =>
      by_cases hbase : p = 0 ∧ e < 0
      · rw [pow_integer, if_pos hbase, isExact_inexactPow] at h
        cases h
      · refine ⟨e, rfl, by simpa [or_iff_not_imp_left] using hbase, fun hother => ?_⟩
        have hleast : e ≠ leastWord := by
          rintro rfl
          cases hother
        rw [pow_integer, if_neg hbase, if_neg hleast] at h ⊢
        split_ifs at h ⊢ with hrange
        · exact ⟨hrange, by rw [toRat_ofRat, toRat_ofRat]⟩
        · rw [isExact_inexactPow] at h
          cases h
    | rational q hq => simp [pow, toWord?, toInt?] at h
    | real x => simp [pow, toWord?, toInt?] at h
    | complex z => simp [pow, toWord?, toInt?] at h
  · rw [Bool.not_eq_true] at ha
    simp [pow, toRat?_eq_none ha] at h

theorem operands_exact {op : Operator} {a b : Number} (h : (op.value a b).isExact = true) :
    a.isExact = true ∧ b.isExact = true := by
  by_cases ha : a.isExact = true
  · by_cases hb : b.isExact = true
    · exact ⟨ha, hb⟩
    · rw [Bool.not_eq_true] at hb
      obtain ⟨p, rfl⟩ := isExact_iff.mp ha
      cases op with
      | power =>
        obtain ⟨-, e, rfl, -⟩ := isExact_pow h
        cases hb
      | _ => simp [Operator.value, add, sub, mul, div, toRat?_eq_none hb] at h
  · rw [Bool.not_eq_true] at ha
    cases op with
    | power =>
      rw [(isExact_pow h).1] at ha
      cases ha
    | _ => simp [Operator.value, add, sub, mul, div, toRat?_eq_none ha] at h

/-- A quotient is exact only over a divisor other than zero. -/
theorem toRat_ne_zero_of_isExact_div {a b : Number} (h : (a.div b).isExact = true) :
    b.toRat ≠ 0 := by
  have hquotient : (Operator.quotient.value a b).isExact = true := h
  obtain ⟨ha, hb⟩ := operands_exact hquotient
  obtain ⟨p, rfl⟩ := isExact_iff.mp ha
  obtain ⟨q, rfl⟩ := isExact_iff.mp hb
  rintro hzero
  rw [toRat_ofRat] at hzero
  simp [div, hzero] at h

theorem isExact_eq_of_same {a b : Number} (h : (a == b) = true) :
    a.isExact = b.isExact ∧ a.toRat = b.toRat := by
  change a.same b = true at h
  unfold same at h
  split at h
  · simp_all
  · simp_all [isExact]
  · exact ⟨rfl, rfl⟩
  · exact ⟨rfl, rfl⟩
  · cases h

theorem eq_of_same {a b : Number} (ha : a.isExact = true) (h : (a == b) = true) : a = b := by
  obtain ⟨hexact, hvalue⟩ := isExact_eq_of_same h
  have hb : b.isExact = true := hexact ▸ ha
  rw [← ofRat_toRat ha, hvalue, ofRat_toRat hb]

end Number

end SymbolicAlgebra
