import Mathlib.Algebra.CharZero.Infinite
import Mathlib.Algebra.Polynomial.Roots
import SymbolicAlgebra.Proofs.Polynomial.Evaluation

/-!
# Canonical coefficient lists

Canonical lists with the same value at every rational are equal, since they denote the same
polynomial over the rationals.
-/

section

open scoped Polynomial

namespace SymbolicAlgebra.Polynomial

variable {p q : List Number} {c : Number}

theorem trim_cons (c : Number) (p : List Number) :
    trim (c :: p) = if trim p = [] ∧ c.isZero = true then [] else c :: trim p := by
  unfold trim
  rw [List.reverse_cons, List.dropWhile_append]
  by_cases hp : p.reverse.dropWhile Number.isZero = []
  · by_cases hc : c.isZero = true <;> simp [hp, hc]
  · simp [hp]

theorem Canonical.of_cons (h : Canonical (c :: p)) :
    c.isExact = true ∧ Canonical p ∧ (p = [] → c.toRat ≠ 0) := by
  obtain ⟨hexact, htrim⟩ := h
  rw [exact_cons] at hexact
  rw [trim_cons] at htrim
  split_ifs at htrim with hzero
  have hp : trim p = p := (List.cons.inj htrim).2
  refine ⟨hexact.1, ⟨hexact.2, hp⟩, ?_⟩
  rintro rfl hc
  exact hzero ⟨rfl, (Number.isZero_iff hexact.1).mpr hc⟩

/-- The polynomial over the rationals with these coefficients. -/
noncomputable def toRatPolynomial : List Number → ℚ[X]
  | [] => 0
  | c :: p => .C c.toRat + .X * toRatPolynomial p

theorem eval_toRatPolynomial (x : ℚ) (p : List Number) :
    (toRatPolynomial p).eval x = valueAt x p := by
  induction p with
  | nil => simp [toRatPolynomial]
  | cons c p ih => simp [toRatPolynomial, ih]

theorem coeff_toRatPolynomial_cons (c : Number) (p : List Number) :
    (toRatPolynomial (c :: p)).coeff 0 = c.toRat ∧
      ∀ n, (toRatPolynomial (c :: p)).coeff (n + 1) = (toRatPolynomial p).coeff n := by
  simp [toRatPolynomial]

theorem Canonical.eq_nil (hp : Canonical p) (h : toRatPolynomial p = 0) : p = [] := by
  induction p with
  | nil => rfl
  | cons c p ih =>
    obtain ⟨-, hcanonical, hlead⟩ := hp.of_cons
    obtain ⟨hc, hrest⟩ := coeff_toRatPolynomial_cons c p
    rw [h, Polynomial.coeff_zero] at hc
    have hzero : toRatPolynomial p = 0 := by
      ext n
      rw [← hrest, h, Polynomial.coeff_zero, Polynomial.coeff_zero]
    exact absurd hc.symm (hlead (ih hcanonical hzero))

theorem Canonical.eq_of_toRatPolynomial (hp : Canonical p) (hq : Canonical q)
    (h : toRatPolynomial p = toRatPolynomial q) : p = q := by
  induction p generalizing q with
  | nil => exact (hq.eq_nil h.symm).symm
  | cons c p ih =>
    cases q with
    | nil => exact hp.eq_nil h
    | cons d q =>
      obtain ⟨hcexact, hp, -⟩ := hp.of_cons
      obtain ⟨hdexact, hq, -⟩ := hq.of_cons
      obtain ⟨hc, hprest⟩ := coeff_toRatPolynomial_cons c p
      obtain ⟨hd, hqrest⟩ := coeff_toRatPolynomial_cons d q
      have hhead : c = d := by
        rw [← Number.ofRat_toRat hcexact, ← hc, h, hd, Number.ofRat_toRat hdexact]
      have htail : toRatPolynomial p = toRatPolynomial q := by
        ext n
        rw [← hprest, h, hqrest]
      rw [hhead, ih hp hq htail]

/-- The values of a canonical list determine it. -/
theorem Canonical.eq_of_valueAt (hp : Canonical p) (hq : Canonical q)
    (h : ∀ x, valueAt x p = valueAt x q) : p = q :=
  hp.eq_of_toRatPolynomial hq (Polynomial.funext fun x => by
    rw [eval_toRatPolynomial, eval_toRatPolynomial, h])

end SymbolicAlgebra.Polynomial

end
