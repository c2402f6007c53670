import SymbolicAlgebra.Proofs.Number.Exact
import SymbolicAlgebra.Proofs.Number.Zeros

/-!
# Where powers leave the exact numbers

A power of an exact number with an integer exponent is computed with doubles beyond the greatest
exact exponent, and for a negative power of zero. The latter is never finite, whatever the exponent,
since no negative integer is rounded to a zero. So a finite power is exact just if its exponent is
in range.
-/

namespace SymbolicAlgebra

namespace Binary64

open Float.Model

/-- NaN or with a minus sign. -/
def HasMinus : UnpackedFloat → Prop
  | .notANumber => True
  | .infinity s => s = .negative
  | .zero s => s = .negative
  | .finite s _ _ _ => s = .negative

theorem hasMinus_unpack {b : BitVec Format.binary64.numBits} (h : signWeight ≤ b.toNat) :
    HasMinus (UnpackedFloat.unpack .binary64 b) := by
  have hbit : UnpackedFloat.unpackSign b = 1#1 := by
    have hlt : b.toNat < 2 ^ 64 := b.isLt
    have hweight : signWeight = 2 ^ 63 := rfl
    apply BitVec.eq_of_toNat_eq
    rw [UnpackedFloat.unpackSign_def, BitVec.extractLsb'_toNat, Nat.shiftRight_eq_div_pow]
    change b.toNat / 2 ^ 63 % 2 ^ 1 = 1
    omega
  have hsign : UnpackedFloat.Sign.ofBitVec (UnpackedFloat.unpackSign b) = .negative := by
    rw [hbit]
    rfl
  unfold UnpackedFloat.unpack
  dsimp only
  split_ifs <;> simp [HasMinus, hsign]

theorem not_zero_lt {x : Float} (h : HasMinus x.toModel.unpack) : ¬ 0 < x := by
  have hlt : 0 < x ↔ UnpackedFloat.lt (.zero .positive) x.toModel.unpack = true := by
    change decide ((0 : Float).toModel < x.toModel) = true ↔ _
    rw [decide_eq_true_eq]
    rfl
  rw [hlt]
  cases hx : x.toModel.unpack with
  | notANumber => exact Bool.false_ne_true
  | infinity s =>
    rw [hx] at h
    cases h
    exact Bool.false_ne_true
  | zero s => exact Bool.false_ne_true
  | finite s m e hm =>
    rw [hx] at h
    cases h
    exact Bool.false_ne_true

/-- The bits of a double, if they do not stand for NaN. -/
theorem ofBits_cases (u : UInt64) : Float.ofBits u = nan ∨ (Float.ofBits u).toBits = u := by
  have hbits : (Float.ofBits u).toBits.toBitVec = UnpackedFloat.pack .binary64
      (UnpackedFloat.unpack .binary64 u.toBitVec) := rfl
  rw [UnpackedFloat.pack_unpack] at hbits
  split_ifs at hbits
  · left
    apply Float.toBits_inj.mp
    apply UInt64.toBitVec_inj.mp
    rw [hbits]
    rfl
  · right
    exact UInt64.toBitVec_inj.mp hbits

section SignBit

variable {u : UInt64}

theorem hasMinus_ofBits (h : signWeight < u.toNat) : HasMinus (Float.ofBits u).toModel.unpack := by
  have hunpack : (Float.ofBits u).toModel.unpack =
      UnpackedFloat.unpack .binary64 (Float.ofBits u).toBits.toBitVec := rfl
  rcases ofBits_cases u with hnan | hbits
  · rw [hnan]
    trivial
  · rw [hunpack, hbits]
    exact hasMinus_unpack (Nat.le_of_lt h)

theorem ofBits_ne_zero (h : signWeight < u.toNat) : ¬ (Float.ofBits u == 0) = true := by
  rcases ofBits_cases u with hnan | hbits
  · rw [hnan]
    exact Bool.eq_false_iff.mp (Float.nan_beq_eq_false 0)
  rw [beq_zero_iff, isZero_iff]
  rintro (hzero | hzero)
  · rw [← hbits, hzero] at h
    exact absurd h (by decide)
  · rw [← hbits, hzero] at h
    exact absurd h (by decide)

end SignBit

/-- A zero has no finite power with a negative exponent. -/
theorem isFinite_zeroPow {zero y : Float} (hzero : IsZero zero) (hne : ¬ (y == 0) = true)
    (hminus : HasMinus y.toModel.unpack) : (zeroPow zero y).isFinite = false := by
  rw [zeroPow, if_neg hne, if_neg (not_zero_lt hminus)]
  split_ifs
  · exact isFinite_div_zero hzero 1
  · rfl
  · rfl

theorem minExponent_lt_unitExponent {n : ℕ} : minExponent < unitExponent n 1 := by
  have hlog : Nat.log2 1 = 0 := by decide
  simp only [unitExponent, hlog, minExponent]
  split_ifs <;> omega

/-- A negative integer is rounded to a double below zero. -/
theorem exists_ofInt_eq_ofBits {n : ℤ} (hn : n < 0) :
    ∃ u : UInt64, ofInt n = Float.ofBits u ∧ signWeight < u.toNat := by
  have hzero : n.natAbs ≠ 0 := by omega
  have hexponent := minExponent_lt_unitExponent (n := n.natAbs)
  have hsign : signWeight = 2 ^ 63 := rfl
  have hinfinity : infinityBits = 2047 * 2 ^ 52 := rfl
  simp only [ofInt, ofRatio, hn, decide_true, if_true, if_neg hzero]
  refine ⟨_, rfl, ?_⟩
  generalize hbits : (unitExponent n.natAbs 1 - minExponent).toNat * fractionWeight +
    roundScaled n.natAbs 1 (unitExponent n.natAbs 1) = bits
  have hpos : 0 < bits := by
    have hweight : 0 < fractionWeight := by decide
    have hunits : 0 < (unitExponent n.natAbs 1 - minExponent).toNat := by omega
    have := Nat.mul_pos hunits hweight
    omega
  rw [Nat.toUInt64, UInt64.toNat_ofNat']
  split_ifs <;> omega

end Binary64

namespace Number

/-- A power of exact numbers that is computed with doubles and finite: the exponent is an integer
out of the range of exact powers. -/
def LeavesExact (a b : Number) : Prop :=
  ∃ e : ℤ, b = integer e ∧ e ≠ leastWord ∧ maxExactExponent < e.natAbs ∧
    (a.pow b).isFinite = true

theorem isFinite_zero_pow_of_neg {e : ℤ} (he : e < 0) :
    ((integer 0).pow (integer e)).isFinite = false := by
  obtain ⟨u, hu, hsign⟩ := Binary64.exists_ofInt_eq_ofBits he
  have hzero : Binary64.ofInt 0 = 0 := rfl
  have hpow : (ofRat 0).pow (integer e) = real (Binary64.zeroPow 0 (Float.ofBits u)) := by
    rw [pow_integer, if_pos ⟨rfl, he⟩, ← Int.cast_zero, ofRat_intCast]
    simp only [inexactPow, toFloat?, hzero, hu]
    rfl
  change ((ofRat 0).pow (integer e)).isFinite = false
  rw [hpow]
  exact Binary64.isFinite_zeroPow ⟨.positive, rfl⟩ (Binary64.ofBits_ne_zero hsign)
    (Binary64.hasMinus_ofBits hsign)

section LeavesExact

variable {a b : Number}

theorem LeavesExact.isInteger (h : a.LeavesExact b) : b.isInteger = true := by
  obtain ⟨e, rfl, -⟩ := h
  rfl

theorem LeavesExact.isFinite (h : a.LeavesExact b) : (a.pow b).isFinite = true := by
  obtain ⟨e, -, -, -, hfinite⟩ := h
  exact hfinite

/-- A finite power of an exact number is exact, unless it leaves the exact numbers. -/
theorem isExact_pow_iff (ha : a.isExact = true) (hb : b.isInteger = true)
    (hfinite : (a.pow b).isFinite = true) : (a.pow b).isExact = true ↔ ¬ a.LeavesExact b := by
  obtain ⟨e, rfl⟩ := isInteger_iff.mp hb
  have hleaves : a.LeavesExact (integer e) ↔ e ≠ leastWord ∧ maxExactExponent < e.natAbs := by
    constructor
    · rintro ⟨e', he, hother, hout, -⟩
      obtain rfl := integer.inj he
      exact ⟨hother, hout⟩
    · rintro ⟨hother, hout⟩
      exact ⟨e, rfl, hother, hout, hfinite⟩
  obtain ⟨q, rfl⟩ := isExact_iff.mp ha
  have hbase : ¬ (q = 0 ∧ e < 0) := by
    rintro ⟨rfl, he⟩
    have hzero : ofRat 0 = integer 0 := rfl
    rw [hzero, isFinite_zero_pow_of_neg he] at hfinite
    cases hfinite
  rw [hleaves, pow_integer, if_neg hbase]
  split_ifs with hleast hrange
  · simp [hleast]
  · simp [hrange]
  · simp [hleast, hrange]

end LeavesExact

end Number

end SymbolicAlgebra
