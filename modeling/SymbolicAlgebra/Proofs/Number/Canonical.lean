import Mathlib.Tactic.NormNum
import SymbolicAlgebra.Proofs.Rational.Range

/-!
# Exact numbers stand for rationals

Each rational is represented by one exact number: by an integer, or by a fraction in lowest terms
over a denominator above one. On represented operands the operations represent what the rational
operations give, so however exact numbers came about, they are equal just if their rationals are.
-/

namespace SymbolicAlgebra.Number

/-- The number is the canonical one of the rational. -/
inductive Represents : Number → ℚ → Prop
  | integer (n : ℤ) : Represents (.integer n) n
  | fraction (n : ℤ) (d : ℕ) (hd : 1 < d) (hcoprime : n.natAbs.Coprime d) :
      Represents (.rational ⟨n, d, Nat.ne_zero_of_lt hd, hcoprime⟩ hd.ne') (n / d)

variable {a b : Number} {p q : ℚ}

theorem represents_ofRat (q : ℚ) : Represents (ofRat q) q := by
  unfold ofRat
  split_ifs with h
  · have hq : (q.num : ℚ) = q := Rat.coe_int_num_of_den_eq_one h
    have hrepresents := Represents.integer q.num
    rwa [hq] at hrepresents
  · have hd : 1 < q.den := Nat.lt_of_le_of_ne q.pos (Ne.symm h)
    have hrepresents := Represents.fraction q.num q.den hd q.reduced
    rwa [Rat.num_div_den] at hrepresents

/-- A rational has just one canonical number. -/
theorem represents_iff : Represents a q ↔ a = ofRat q := by
  constructor
  · intro h
    cases h with
    | integer n => exact (ofRat_intCast n).symm
    | fraction n d hd hcoprime =>
      have hq : (n / d : ℚ) = ⟨n, d, Nat.ne_zero_of_lt hd, hcoprime⟩ := Rat.num_div_den ⟨n, d, _, _⟩
      rw [hq, ofRat, dif_neg]
  · rintro rfl
    exact represents_ofRat q

theorem isExact_iff_represents : a.isExact = true ↔ ∃ q, Represents a q := by
  simp only [represents_iff, isExact_iff]

@[simp] theorem abs_ofRat (q : ℚ) : (ofRat q).abs = ofRat |q| := by
  by_cases h : q.den = 1
  · have hq : (q.num : ℚ) = q := Rat.coe_int_num_of_den_eq_one h
    rw [← hq, ofRat_intCast, abs, ← Int.cast_abs, ofRat_intCast, Int.abs_eq_natAbs]
  · rw [ofRat, dif_neg h, abs]
    split_ifs with hneg
    · have hden : (-q).den ≠ 1 := by rwa [Rat.den_neg_eq_den]
      rw [abs_of_neg (Rat.num_neg.mp hneg), ofRat, dif_neg hden]
    · rw [abs_of_nonneg (not_lt.mp (mt Rat.num_neg.mpr hneg)), ofRat, dif_neg h]

theorem beq_ofRat_iff : (ofRat p == ofRat q) = true ↔ p = q := by
  constructor
  · intro h
    rw [← toRat_ofRat p, eq_of_same (isExact_ofRat p) h, toRat_ofRat]
  · rintro rfl
    exact BEq.rfl

/-- The exact numbers are the canonical numbers of the rationals. So are the quotients of integers,
and whatever the operations give on such numbers, division by zero and powers out of range apart.
Two of them are equal just if they stand for the same rational. -/
theorem represents_operations :
    (∀ a, a.isExact = true ↔ ∃ q, Represents a q) ∧
      (∀ q, Represents (ofRat q) q) ∧
      (∀ n d : ℤ, d ≠ 0 → Represents (ofRatio n d) (n / d)) ∧
      ∀ a b p q, Represents a p → Represents b q →
        Represents (a.add b) (p + q) ∧ Represents (a.sub b) (p - q) ∧
          Represents (a.mul b) (p * q) ∧ Represents a.neg (-p) ∧ Represents a.abs |p| ∧
          (q ≠ 0 → Represents (a.div b) (p / q)) ∧
          (∀ e : ℤ, |e| ≤ 4096 → (p ≠ 0 ∨ 0 ≤ e) → Represents (a.pow (.integer e)) (p ^ e)) ∧
          ((a == b) = true ↔ p = q) := by
  refine ⟨fun _ => isExact_iff_represents, represents_ofRat, fun n d hd => ?_, ?_⟩
  · rw [ofRatio, if_neg hd]
    exact represents_ofRat _
  · simp only [represents_iff]
    rintro _ _ p q rfl rfl
    refine ⟨add_ofRat p q, sub_ofRat p q, mul_ofRat p q, neg_ofRat p, abs_ofRat p, div_ofRat p,
      fun e he hbase => ?_, beq_ofRat_iff⟩
    have hrange : e.natAbs ≤ maxExactExponent := by
      rw [Int.abs_eq_natAbs] at he
      exact_mod_cast he
    exact pow_ofRat hrange hbase

/-- A quotient over a negative integer, its opposite and an odd negative power of it. -/
theorem represents_operations_opposite :
    let a := ofRatio 4 (-6)
    let b := ofRatio 2 3
    Represents a (-2 / 3) ∧ Represents b (2 / 3) ∧ Represents (a.add b) 0 ∧
      Represents (a.div b) (-1) ∧ Represents (a.pow (integer (-3))) (-27 / 8) ∧
      (a == b) = false := by
  intro a b
  obtain ⟨-, -, hratio, hoperations⟩ := represents_operations
  have hp : ((4 : ℤ) / (-6 : ℤ) : ℚ) = -2 / 3 := by norm_num
  have hq : ((2 : ℤ) / (3 : ℤ) : ℚ) = 2 / 3 := by norm_num
  have ha : Represents a (-2 / 3) := hp ▸ hratio 4 (-6) (by decide)
  have hb : Represents b (2 / 3) := hq ▸ hratio 2 3 (by decide)
  obtain ⟨hadd, -, -, -, -, hdiv, hpow, hsame⟩ := hoperations a b _ _ ha hb
  have hsum : (-2 / 3 + 2 / 3 : ℚ) = 0 := by norm_num
  have hquotient : (-2 / 3 / (2 / 3) : ℚ) = -1 := by norm_num
  have hpower : (-2 / 3 : ℚ) ^ (-3 : ℤ) = -27 / 8 := by norm_num
  have hne : ¬ (-2 / 3 : ℚ) = 2 / 3 := by norm_num
  exact ⟨ha, hb, hsum ▸ hadd, hquotient ▸ hdiv (by norm_num),
    hpower ▸ hpow (-3) (by decide) (Or.inl (by norm_num)), Bool.eq_false_iff.mpr (mt hsame.mp hne)⟩

end SymbolicAlgebra.Number
