import Mathlib
import SymbolicAlgebra.Expr.Equality
import SymbolicAlgebra.Number.Arithmetic

/-!
# The sign of a zero

Same numbers are equal but for the signs of zeros: there is one NaN, and the two zeros are the only
different doubles that count as the same. A sum, a difference, a product and a quotient by a given
divisor show the sign of a zero in nothing but the sign of a zero, and so do complex powers, since
lengths and arguments do not show it at all.
-/

namespace SymbolicAlgebra

namespace Binary64

open Float.Model

def IsZero (x : Float) : Prop := ∃ s, x.toModel.unpack = .zero s

theorem isZero_iff {x : Float} : IsZero x ↔ x = 0 ∨ x = -0 := by
  constructor
  · rintro ⟨s, hs⟩
    have hbits := (UnpackedFloat.unpack_eq_zero_iff_of_valid x.toModel.valid).mp hs
    cases s
    · exact Or.inr (Float.toBits_inj.mp (UInt64.toBitVec_inj.mp hbits))
    · exact Or.inl (Float.toBits_inj.mp (UInt64.toBitVec_inj.mp hbits))
  · rintro (rfl | rfl)
    · exact ⟨.positive, rfl⟩
    · exact ⟨.negative, rfl⟩

theorem beq_zero_iff {x : Float} : (x == 0) = true ↔ IsZero x := by
  have hzero : (0 : Float) ≠ Float.nan := by decide
  have hnegative : (-0 : Float) ≠ Float.nan := by decide
  rw [Float.beq_iff_ne_nan_and_eq, isZero_iff]
  grind

theorem isZero_pack (s : UnpackedFloat.Sign) : IsZero ⟨pack (.zero s)⟩ := by
  cases s
  · exact ⟨.negative, rfl⟩
  · exact ⟨.positive, rfl⟩

theorem bits_of_isZero {x : Float} (h : IsZero x) :
    x.toBits.toNat % fractionWeight = 0 ∧ x.toBits.toNat / fractionWeight % 2048 = 0 := by
  obtain rfl | rfl := isZero_iff.mp h
  · exact ⟨rfl, rfl⟩
  · exact ⟨rfl, rfl⟩

theorem key_eq (x : Float) : key x = if x == 0 then 0 else x.toBits := by
  unfold key
  split_ifs with hnan hzero
  · rw [Float.isNaN_eq_decide_eq_nan, decide_eq_true_eq] at hnan
    rw [hnan, Float.nan_beq_eq_false] at hzero
    cases hzero
  · rw [Float.isNaN_eq_decide_eq_nan, decide_eq_true_eq] at hnan
    rw [hnan]
    rfl
  · rfl
  · rfl

theorem isZero_of_toBits {x : Float} (h : x.toBits = 0) : IsZero x :=
  isZero_iff.mpr (Or.inl (Float.toBits_inj.mp h))

theorem same_iff_eq_or {x y : Float} : same x y = true ↔ x = y ∨ IsZero x ∧ IsZero y := by
  rw [same_iff, key_eq, key_eq, ← beq_zero_iff, ← beq_zero_iff]
  constructor
  · intro h
    split_ifs at h with hx hy hy
    · exact Or.inr ⟨hx, hy⟩
    · exact absurd (beq_zero_iff.mpr (isZero_of_toBits h.symm)) hy
    · exact absurd (beq_zero_iff.mpr (isZero_of_toBits h)) hx
    · exact Or.inl (Float.toBits_inj.mp h)
  · rintro (rfl | ⟨hx, hy⟩)
    · rfl
    · rw [if_pos hx, if_pos hy]

/-! ## What the sign of a zero changes -/

section Same

variable {x x' y y' : Float} (hx : same x x' = true)

include hx

theorem apply_eq_of_same {α : Type} (f : Float → α)
    (hzero : ∀ {y y'}, IsZero y → IsZero y' → f y = f y') : f x = f x' := by
  obtain rfl | ⟨hx, hx'⟩ := same_iff_eq_or.mp hx
  · rfl
  · exact hzero hx hx'

theorem apply_unpack_eq_of_same {α : Type} (f : UnpackedFloat → α)
    (hzero : ∀ s s', f (.zero s) = f (.zero s')) : f x.toModel.unpack = f x'.toModel.unpack :=
  apply_eq_of_same hx (fun x => f x.toModel.unpack) fun ⟨s, hs⟩ ⟨s', hs'⟩ => by
    rw [hs, hs', hzero s s']

theorem isFinite_eq_of_same : x.isFinite = x'.isFinite :=
  apply_unpack_eq_of_same hx UnpackedFloat.isFinite fun _ _ => rfl

theorem isNaN_eq_of_same : x.isNaN = x'.isNaN :=
  apply_unpack_eq_of_same hx UnpackedFloat.isNaN fun _ _ => rfl

theorem isInf_eq_of_same : x.isInf = x'.isInf :=
  apply_unpack_eq_of_same hx UnpackedFloat.isInf fun _ _ => rfl

theorem beq_eq_of_same : (x == y) = (x' == y) :=
  apply_unpack_eq_of_same hx (fun u => u.compare y.toModel.unpack == some .eq) fun s s' => by
    cases y.toModel.unpack with
    | infinity s => cases s <;> rfl
    | finite s m e h => cases s <;> rfl
    | _ => rfl

theorem zero_le_iff_of_same : 0 ≤ x ↔ 0 ≤ x' := by
  have hle : ∀ y : Float, 0 ≤ y ↔ UnpackedFloat.le (.zero .positive) y.toModel.unpack = true := by
    intro y
    change decide ((0 : Float).toModel ≤ y.toModel) = true ↔ _
    rw [decide_eq_true_eq]
    rfl
  rw [hle, hle, apply_unpack_eq_of_same hx (UnpackedFloat.le (.zero .positive)) fun _ _ => rfl]

theorem eq_of_same_of_ne_zero (hne : (x == 0) = false) : x = x' := by
  obtain rfl | ⟨hzero, -⟩ := same_iff_eq_or.mp hx
  · rfl
  · rw [beq_zero_iff.mpr hzero] at hne
    cases hne

theorem mantissa_eq_of_same : (parts x).mantissa = (parts x').mantissa := by
  have hzero : ∀ {y}, IsZero y → (parts y).mantissa = 0 := by
    intro y hy
    obtain ⟨hfraction, hbiased⟩ := bits_of_isZero hy
    simp_all [parts, fractionWeight]
  exact apply_eq_of_same hx (fun x => (parts x).mantissa) fun h h' =>
    (hzero h).trans (hzero h').symm

theorem exponent_eq_of_same : (parts x).exponent = (parts x').exponent := by
  have hzero : ∀ {y}, IsZero y → (parts y).exponent = minExponent := by
    intro y hy
    have hbiased := (bits_of_isZero hy).2
    simp_all [parts, fractionWeight]
  exact apply_eq_of_same hx (fun x => (parts x).exponent) fun h h' =>
    (hzero h).trans (hzero h').symm

theorem mul_self_eq_of_same : x * x = x' * x' :=
  apply_unpack_eq_of_same hx (fun u => (⟨pack (UnpackedFloat.mul .binary64 u u)⟩ : Float))
    fun s s' => by cases s <;> cases s' <;> rfl

end Same

/-- Equal, or both zero. -/
def Alike (u v : UnpackedFloat) : Prop := u = v ∨ (∃ s, u = .zero s) ∧ ∃ s, v = .zero s

theorem Alike.refl (u : UnpackedFloat) : Alike u u := Or.inl rfl

theorem alike_zero (s s' : UnpackedFloat.Sign) : Alike (.zero s) (.zero s') :=
  Or.inr ⟨⟨s, rfl⟩, s', rfl⟩

theorem same_pack {u v : UnpackedFloat} (h : Alike u v) : same ⟨pack u⟩ ⟨pack v⟩ = true := by
  obtain rfl | ⟨⟨s, rfl⟩, s', rfl⟩ := h
  · exact same_iff_eq_or.mpr (Or.inl rfl)
  · exact same_iff_eq_or.mpr (Or.inr ⟨isZero_pack s, isZero_pack s'⟩)

/-- An operation that gives alike results for the two zeros on the left. -/
theorem same_left {f : UnpackedFloat → UnpackedFloat → UnpackedFloat} {x x' : Float}
    (hf : ∀ s s' v, Alike (f (.zero s) v) (f (.zero s') v)) (hx : same x x' = true)
    (v : UnpackedFloat) :
    same ⟨pack (f x.toModel.unpack v)⟩ ⟨pack (f x'.toModel.unpack v)⟩ = true := by
  refine same_pack ?_
  obtain rfl | ⟨⟨s, hs⟩, s', hs'⟩ := same_iff_eq_or.mp hx
  · exact Alike.refl _
  · rw [hs, hs']
    exact hf s s' v

theorem same_trans {x y z : Float} (h : same x y = true) (h' : same y z = true) :
    same x z = true := by
  rw [same_iff] at *
  exact h.trans h'

theorem same_op {f : UnpackedFloat → UnpackedFloat → UnpackedFloat} {x x' y y' : Float}
    (hleft : ∀ s s' v, Alike (f (.zero s) v) (f (.zero s') v))
    (hright : ∀ s s' u, Alike (f u (.zero s)) (f u (.zero s'))) (hx : same x x' = true)
    (hy : same y y' = true) :
    same ⟨pack (f x.toModel.unpack y.toModel.unpack)⟩
      ⟨pack (f x'.toModel.unpack y'.toModel.unpack)⟩ = true :=
  same_trans (same_left hleft hx _) (same_left (f := fun v u => f u v) hright hy _)

section Operations

variable {x x' y y' : Float} (hx : same x x' = true)

include hx

theorem same_div (n : Float) : same (x / n) (x' / n) = true := by
  refine same_left (f := UnpackedFloat.div .binary64) (fun s s' v => ?_) hx _
  cases v <;> first | exact alike_zero _ _ | exact Alike.refl _

variable (hy : same y y' = true)

include hy

theorem same_add : same (x + y) (x' + y') = true := by
  refine same_op (f := UnpackedFloat.add .binary64) (fun s s' v => ?_) (fun s s' u => ?_) hx hy
  · cases v with
    | zero t => cases s <;> cases s' <;> cases t <;> exact alike_zero _ _
    | _ => exact Alike.refl _
  · cases u with
    | zero t => cases s <;> cases s' <;> cases t <;> exact alike_zero _ _
    | _ => exact Alike.refl _

theorem same_sub : same (x - y) (x' - y') = true := by
  refine same_op (f := UnpackedFloat.sub .binary64) (fun s s' v => ?_) (fun s s' u => ?_) hx hy
  · cases v with
    | zero t => cases s <;> cases s' <;> cases t <;> exact alike_zero _ _
    | _ => exact Alike.refl _
  · cases u with
    | zero t => cases s <;> cases s' <;> cases t <;> exact alike_zero _ _
    | _ => exact Alike.refl _

theorem same_mul : same (x * y) (x' * y') = true := by
  refine same_op (f := UnpackedFloat.mul .binary64) (fun s s' v => ?_) (fun s s' u => ?_) hx hy
  · cases v <;> first | exact alike_zero _ _ | exact Alike.refl _
  · cases u <;> first | exact alike_zero _ _ | exact Alike.refl _

end Operations

section Zero

variable {x x' : Float} (hx : IsZero x)

include hx

theorem isFinite_of_isZero : x.isFinite = true := by
  obtain ⟨s, hs⟩ := hx
  exact congrArg UnpackedFloat.isFinite hs

theorem zero_le_of_isZero : 0 ≤ x := by
  have hzero : same x 0 = true := same_iff_eq_or.mpr (Or.inr ⟨hx, .positive, rfl⟩)
  exact (zero_le_iff_of_same hzero).mpr (by decide)

theorem isFinite_div_zero (y : Float) : (y / x).isFinite = false := by
  obtain ⟨s, hs⟩ := hx
  change UnpackedFloat.isFinite (Float.Model.unpack (pack
    (UnpackedFloat.div .binary64 y.toModel.unpack x.toModel.unpack))) = false
  have hnan : (Float.Model.unpack (pack .notANumber)).isFinite = false := rfl
  have hinfinity : ∀ s, (Float.Model.unpack (pack (.infinity s))).isFinite = false := by
    intro s
    cases s <;> rfl
  rw [hs]
  cases y.toModel.unpack with
  | notANumber => exact hnan
  | infinity s' => exact hinfinity (s' / s)
  | zero s' => exact hnan
  | finite s' m e hm => exact hinfinity (s' / s)

/-- A negative odd power of a zero is an infinity of its sign. -/
theorem same_zeroPow (hx' : IsZero x') (y : Float) :
    same (zeroPow x y) (zeroPow x' y) = true ∨
      (zeroPow x y).isFinite = false ∧ (zeroPow x' y).isFinite = false := by
  have hself : ∀ z, same z z = true := fun _ => same_iff_eq_or.mpr (Or.inl rfl)
  unfold zeroPow
  split_ifs
  · exact Or.inl (hself _)
  · exact Or.inl (same_iff_eq_or.mpr (Or.inr ⟨hx, hx'⟩))
  · exact Or.inl (hself _)
  · exact Or.inr ⟨isFinite_div_zero hx 1, isFinite_div_zero hx' 1⟩
  · exact Or.inl (hself _)
  · exact Or.inl (hself _)

end Zero

end Binary64

namespace ComplexFloat

open Binary64

variable {z z' w w' : ComplexFloat} (hz : z.same z' = true)

include hz

theorem same_re : Binary64.same z.re z'.re = true := (Bool.and_eq_true_iff.mp hz).1

theorem same_im : Binary64.same z.im z'.im = true := (Bool.and_eq_true_iff.mp hz).2

theorem normSq_eq_of_same : z.normSq = z'.normSq := by
  rw [normSq, normSq, mul_self_eq_of_same (same_re hz), mul_self_eq_of_same (same_im hz)]

theorem norm_eq_of_same : z.norm = z'.norm := by
  have hre := same_re hz
  have him := same_im hz
  simp only [norm, hypot, isInf_eq_of_same hre, isInf_eq_of_same him, isNaN_eq_of_same hre,
    isNaN_eq_of_same him, mantissa_eq_of_same hre, mantissa_eq_of_same him,
    exponent_eq_of_same hre, exponent_eq_of_same him]

section Nonreal

variable (hne : (z.im == 0) = false)

include hne

/-- Beside an imaginary part other than zero the sign of a zero real part does not count. -/
theorem arg_eq_of_same : z.arg = z'.arg := by
  have him : z.im = z'.im := eq_of_same_of_ne_zero (same_im hz) hne
  have hre := same_re hz
  unfold arg
  rw [← him, ← beq_eq_of_same hre, hne]
  by_cases hzero : (z.re == 0) = true
  · simp [hzero]
  · have hzero := Bool.not_eq_true _ ▸ hzero
    rw [eq_of_same_of_ne_zero hre hzero]

theorem pow_eq_of_same (w : ComplexFloat) : z.pow w = z'.pow w := by
  simp only [pow, log, norm_eq_of_same hz, arg_eq_of_same hz hne]

end Nonreal

variable (hw : w.same w' = true)

include hw

theorem same_add : (z.add w).same (z'.add w') = true :=
  Bool.and_eq_true_iff.mpr ⟨Binary64.same_add (same_re hz) (same_re hw),
    Binary64.same_add (same_im hz) (same_im hw)⟩

theorem same_sub : (z.sub w).same (z'.sub w') = true :=
  Bool.and_eq_true_iff.mpr ⟨Binary64.same_sub (same_re hz) (same_re hw),
    Binary64.same_sub (same_im hz) (same_im hw)⟩

theorem same_mul : (z.mul w).same (z'.mul w') = true := by
  refine Bool.and_eq_true_iff.mpr ⟨Binary64.same_sub ?_ ?_, Binary64.same_add ?_ ?_⟩
  · exact Binary64.same_mul (same_re hz) (same_re hw)
  · exact Binary64.same_mul (same_im hz) (same_im hw)
  · exact Binary64.same_mul (same_re hz) (same_im hw)
  · exact Binary64.same_mul (same_im hz) (same_re hw)

theorem same_div : (z.div w).same (z'.div w') = true := by
  simp only [div, normSq_eq_of_same hw]
  refine Bool.and_eq_true_iff.mpr ⟨Binary64.same_div (Binary64.same_add ?_ ?_) _,
    Binary64.same_div (Binary64.same_sub ?_ ?_) _⟩
  · exact Binary64.same_mul (same_re hz) (same_re hw)
  · exact Binary64.same_mul (same_im hz) (same_im hw)
  · exact Binary64.same_mul (same_im hz) (same_re hw)
  · exact Binary64.same_mul (same_re hz) (same_im hw)

end ComplexFloat

namespace Number

variable {a a' b b' : Number}

theorem same_cases (h : (a == a') = true) : a = a' ∨
    (∃ x x', a = real x ∧ a' = real x' ∧ Binary64.same x x' = true) ∨
      ∃ z hz z' hz', a = complex z hz ∧ a' = complex z' hz' ∧ z.same z' = true := by
  change a.same a' = true at h
  cases a <;> cases a' <;> simp_all [same]

theorem same_ofComplex {z w : ComplexFloat} (h : z.same w = true) :
    (ofComplex z == ofComplex w) = true := by
  have him := Binary64.beq_eq_of_same (y := 0) (ComplexFloat.same_im h)
  unfold ofComplex
  split_ifs with hz hw hw
  · exact ComplexFloat.same_re h
  · exact absurd (him.symm.trans hz) hw
  · exact absurd (him.trans hw) hz
  · exact h

section Same

variable (ha : (a == a') = true)

include ha

theorem toRat?_eq_of_same : a.toRat? = a'.toRat? := by
  obtain rfl | ⟨x, x', rfl, rfl, -⟩ | ⟨z, hz, z', hz', rfl, rfl, -⟩ := same_cases ha <;> rfl

theorem toInt?_eq_of_same : a.toInt? = a'.toInt? := by
  obtain rfl | ⟨x, x', rfl, rfl, -⟩ | ⟨z, hz, z', hz', rfl, rfl, -⟩ := same_cases ha <;> rfl

theorem isFinite_eq_of_same : a.isFinite = a'.isFinite := by
  obtain rfl | ⟨x, x', rfl, rfl, h⟩ | ⟨z, hz, z', hz', rfl, rfl, h⟩ := same_cases ha
  · rfl
  · exact Binary64.isFinite_eq_of_same h
  · simp only [isFinite, ComplexFloat.isFinite, Binary64.isFinite_eq_of_same
      (ComplexFloat.same_re h), Binary64.isFinite_eq_of_same (ComplexFloat.same_im h)]

theorem isZero_eq_of_same : a.isZero = a'.isZero := by
  obtain rfl | ⟨x, x', rfl, rfl, h⟩ | ⟨z, hz, z', hz', rfl, rfl, h⟩ := same_cases ha
  · rfl
  · exact Binary64.beq_eq_of_same h
  · simp only [isZero, ComplexFloat.isZero, Binary64.beq_eq_of_same (ComplexFloat.same_re h),
      Binary64.beq_eq_of_same (ComplexFloat.same_im h)]

theorem same_toComplex : a.toComplex.same a'.toComplex = true := by
  obtain rfl | ⟨x, x', rfl, rfl, h⟩ | ⟨z, hz, z', hz', rfl, rfl, h⟩ := same_cases ha
  · simp [ComplexFloat.same, Binary64.same]
  · exact Bool.and_eq_true_iff.mpr ⟨h, by simp [ComplexFloat.ofReal, toComplex, Binary64.same]⟩
  · exact h

theorem same_toFloat? : (a.toFloat? = none ∧ a'.toFloat? = none) ∨
    ∃ x x', a.toFloat? = some x ∧ a'.toFloat? = some x' ∧ Binary64.same x x' = true := by
  obtain rfl | ⟨x, x', rfl, rfl, h⟩ | ⟨z, hz, z', hz', rfl, rfl, h⟩ := same_cases ha
  · cases hx : a.toFloat? with
    | none => exact Or.inl ⟨rfl, rfl⟩
    | some x => exact Or.inr ⟨x, x, rfl, rfl, by simp [Binary64.same]⟩
  · exact Or.inr ⟨x, x', rfl, rfl, h⟩
  · exact Or.inl ⟨rfl, rfl⟩

section Operations

variable (hb : (b == b') = true)

include hb

theorem same_widened {onReal : Float → Float → Float}
    {onComplex : ComplexFloat → ComplexFloat → ComplexFloat}
    (hreal : ∀ {x x' y y'}, Binary64.same x x' = true → Binary64.same y y' = true →
      b.toFloat? = some y → b'.toFloat? = some y' →
      Binary64.same (onReal x y) (onReal x' y') = true)
    (hcomplex : ∀ {z z' w w'}, z.same z' = true → w.same w' = true →
      (onComplex z w).same (onComplex z' w') = true) :
    (widened onReal onComplex a b == widened onReal onComplex a' b') = true := by
  have hgeneral := same_ofComplex (hcomplex (same_toComplex ha) (same_toComplex hb))
  unfold widened
  obtain ⟨ha, ha'⟩ | ⟨x, x', ha, ha', hx⟩ := same_toFloat? ha
  · simpa only [ha, ha'] using hgeneral
  · obtain ⟨hb, hb'⟩ | ⟨y, y', hb, hb', hy⟩ := same_toFloat? hb
    · simpa only [ha, ha', hb, hb'] using hgeneral
    · simp only [ha, ha', hb, hb']
      exact hreal hx hy hb hb'

theorem same_add : (a.add b == a'.add b') = true := by
  unfold add
  rw [← toRat?_eq_of_same ha, ← toRat?_eq_of_same hb]
  split
  · exact BEq.rfl
  · exact same_widened ha hb (fun hx hy _ _ => Binary64.same_add hx hy) ComplexFloat.same_add

theorem same_sub : (a.sub b == a'.sub b') = true := by
  unfold sub
  rw [← toRat?_eq_of_same ha, ← toRat?_eq_of_same hb]
  split
  · exact BEq.rfl
  · exact same_widened ha hb (fun hx hy _ _ => Binary64.same_sub hx hy) ComplexFloat.same_sub

theorem same_mul : (a.mul b == a'.mul b') = true := by
  unfold mul
  rw [← toRat?_eq_of_same ha, ← toRat?_eq_of_same hb]
  split
  · exact BEq.rfl
  · exact same_widened ha hb (fun hx hy _ _ => Binary64.same_mul hx hy) ComplexFloat.same_mul

/-- A divisor that is a zero would show its sign. -/
theorem same_div (hne : b.isZero = false) : (a.div b == a'.div b') = true := by
  have hwidened : (widened (· / ·) .div a b == widened (· / ·) .div a' b') = true := by
    refine same_widened ha hb (fun {x x' y y'} hx hy hfloat hfloat' => ?_) ComplexFloat.same_div
    have hdivisor : y = y' := by
      obtain rfl | ⟨y, y', rfl, rfl, h⟩ | ⟨w, hw, w', hw', rfl, rfl, -⟩ := same_cases hb
      · exact Option.some.inj (hfloat.symm.trans hfloat')
      · cases hfloat
        cases hfloat'
        exact Binary64.eq_of_same_of_ne_zero hy hne
      · cases hfloat
    rw [← hdivisor]
    exact Binary64.same_div hx y
  unfold div
  rw [← toRat?_eq_of_same ha, ← toRat?_eq_of_same hb]
  split
  · split
    · exact hwidened
    · exact BEq.rfl
  · exact hwidened

end Operations

omit ha in
theorem pow_zero_integer {x : Float} (hx : Binary64.IsZero x) (n : Int) :
    (real x).pow (integer n) = real (Binary64.zeroPow x (Binary64.ofInt n)) := by
  simp [pow, toRat?, inexactPow, toFloat?, Binary64.zero_le_of_isZero hx, Binary64.pow,
    Binary64.beq_zero_iff.mpr hx]

/-- The power of a zero shows its sign only where it is infinite. -/
theorem same_pow (n : Int) : (a.pow (integer n) == a'.pow (integer n)) = true ∨
    a.isFinite = true ∧ (a.pow (integer n)).isFinite = false ∧
      (a'.pow (integer n)).isFinite = false := by
  obtain rfl | ⟨x, x', rfl, rfl, h⟩ | ⟨z, hz, z', hz', rfl, rfl, h⟩ := same_cases ha
  · exact Or.inl BEq.rfl
  · obtain rfl | ⟨hx, hx'⟩ := Binary64.same_iff_eq_or.mp h
    · exact Or.inl BEq.rfl
    · rw [pow_zero_integer hx, pow_zero_integer hx']
      exact (Binary64.same_zeroPow hx hx' _).imp id fun hpow =>
        ⟨Binary64.isFinite_of_isZero hx, hpow⟩
  · left
    simp only [pow, toRat?, inexactPow, toFloat?, toComplex,
      ComplexFloat.pow_eq_of_same h hz]
    exact BEq.rfl

end Same

end Number

end SymbolicAlgebra
