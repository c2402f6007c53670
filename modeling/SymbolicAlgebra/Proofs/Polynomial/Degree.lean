import Mathlib.Data.Nat.Notation
import Mathlib.Tactic.SplitIfs
import SymbolicAlgebra.Polynomial
import SymbolicAlgebra.Proofs.Chain

/-!
# Degrees of coefficient lists

Products and powers have a coefficient list as long as their degree stays within `maxDegree`, and no
list that is read from a tree is longer. Long division leaves a remainder shorter than the divisor.
-/

namespace SymbolicAlgebra

namespace Polynomial

variable {p q r : Polynomial} {n d : ℕ}

/-- Zero for the empty list too. -/
def degree (p : Polynomial) : ℕ := p.length - 1

theorem length_trim_le (h : p.length ≤ n) : (trim p).length ≤ n := by
  rw [← List.length_reverse] at h
  rw [trim, List.length_reverse]
  exact Nat.le_trans (List.dropWhile_sublist _).length_le h

theorem length_zipTerms (f : Number → Number → Number) (p q : Polynomial) :
    (zipTerms f p q).length = max p.length q.length := by
  fun_induction zipTerms f p q with
  | case1 => rfl
  | case2 a p ih => simp [ih]
  | case3 b q ih => simp [ih]
  | case4 a p b q ih => simp [ih, Nat.add_max_add_right]

theorem length_addMultiple (factor : Number) (q total : List Number) :
    (addMultiple factor q total).length = total.length := by
  fun_induction addMultiple factor q total with
  | case1 b q c total ih => rw [List.length_cons, ih, List.length_cons]
  | case2 => rfl

theorem length_addProduct (q p : Polynomial) (total : List Number) :
    (addProduct q p total).length = total.length := by
  induction p generalizing total with
  | nil => rfl
  | cons a p ih =>
    rw [← length_addMultiple a q total, addProduct]
    cases addMultiple a q total with
    | nil => rfl
    | cons c rest => rw [List.length_cons, ih, List.length_cons]

theorem length_multiply? (h : multiply? p q = some r) :
    r.length ≤ p.length + q.length - 1 ∧ r.length ≤ maxDegree + 1 := by
  unfold multiply? at h
  split_ifs at h with hempty hdegree
  · cases h
    exact ⟨Nat.zero_le _, Nat.zero_le _⟩
  · cases h
    rw [length_addProduct, List.length_replicate]
    omega

theorem exists_multiply? (h : p.length + q.length ≤ maxDegree + 2) :
    ∃ r, multiply? p q = some r := by
  unfold multiply?
  split_ifs with hempty hdegree
  · exact ⟨_, rfl⟩
  · omega
  · exact ⟨_, rfl⟩

theorem length_power?_le (h : power? p n = some r) : r.length ≤ maxDegree + 1 := by
  cases n with
  | zero =>
    cases h
    decide
  | succ n =>
    obtain ⟨q, -, hr⟩ := Option.bind_eq_some_iff.mp h
    exact (length_multiply? hr).2

/-- A power of degree in range has a list. -/
theorem exists_power? (hp : p.length ≤ d + 1) (hdegree : n * d ≤ maxDegree) :
    ∃ r, power? p n = some r ∧ r.length ≤ n * d + 1 := by
  induction n with
  | zero => exact ⟨[1], rfl, by simp⟩
  | succ n ih =>
    rw [Nat.succ_mul] at hdegree ⊢
    obtain ⟨q, hq, hlength⟩ := ih (by omega)
    obtain ⟨r, hr⟩ := exists_multiply? (p := q) (q := p) (by omega)
    refine ⟨r, Option.bind_eq_some_iff.mpr ⟨q, hq, hr⟩, ?_⟩
    have := (length_multiply? hr).1
    omega

/-! ## Reading -/

theorem length_ofExpr?_le {name : String} {t : Expr} (h : ofExpr? name t = some p) :
    p.length ≤ maxDegree + 1 := by
  have hconstant : ∀ {t : Expr} {p : Polynomial}, (constant? name t).map trim = some p →
      p.length ≤ maxDegree + 1 := by
    intro t p ht
    obtain ⟨q, hq, rfl⟩ := Option.map_eq_some_iff.mp ht
    unfold constant? at hq
    split_ifs at hq
    obtain ⟨value, -, rfl⟩ := Option.map_eq_some_iff.mp hq
    exact length_trim_le (by simp)
  induction t generalizing p with
  | num c =>
    cases h
    exact length_trim_le (by simp)
  | var x =>
    rw [ofExpr?] at h
    split_ifs at h
    · cases h
      decide
    · exact hconstant h
  | binary op a b iha ihb =>
    cases op with
    | sum | difference =>
      obtain ⟨q, hq, hrest⟩ := Option.bind_eq_some_iff.mp h
      obtain ⟨r, hr, rfl⟩ := Option.map_eq_some_iff.mp hrest
      have hmax := length_zipTerms (p := q) (q := r)
      exact length_trim_le (hmax _ ▸ Nat.max_le.mpr ⟨iha hq, ihb hr⟩)
    | product =>
      obtain ⟨q, -, hrest⟩ := Option.bind_eq_some_iff.mp h
      obtain ⟨r, -, hproduct⟩ := Option.bind_eq_some_iff.mp hrest
      obtain ⟨s, hs, rfl⟩ := Option.map_eq_some_iff.mp hproduct
      exact length_trim_le (length_multiply? hs).2
    | quotient =>
      simp only [ofExpr?] at h
      split_ifs at h
      · exact hconstant h
      · obtain ⟨c, -, hrest⟩ := Option.bind_eq_some_iff.mp h
        obtain ⟨q, hq, rfl⟩ := Option.map_eq_some_iff.mp hrest
        exact length_trim_le (by rw [List.length_map]; exact iha hq)
    | power =>
      obtain ⟨n, -, hrest⟩ := Option.bind_eq_some_iff.mp h
      obtain ⟨q, -, hpower⟩ := Option.bind_eq_some_iff.mp hrest
      obtain ⟨r, hr, rfl⟩ := Option.map_eq_some_iff.mp hpower
      exact length_trim_le (length_power?_le hr)
  | _ => exact hconstant h

/-! ## Writing -/

theorem mem_termsFrom {name : String} {x : Expr} {p : Polynomial} {k : ℕ}
    (hx : x ∈ termsFrom name k p) : ∃ j c, j < k + p.length ∧ x = term name j c := by
  induction p generalizing k with
  | nil => simp [termsFrom] at hx
  | cons c p ih =>
    rw [List.length_cons, ← Nat.add_assoc, Nat.add_right_comm]
    rw [termsFrom] at hx
    split_ifs at hx
    · exact ih hx
    · obtain rfl | hx := List.mem_cons.mp hx
      · exact ⟨k, c, by omega, rfl⟩
      · exact ih hx

/-- A property of all terms that sums keep holds of the written polynomial. -/
theorem toExpr_keeps {P : Expr → Prop} {name : String} {p : Polynomial} (hzero : P (.int 0))
    (hsum : ∀ {a b}, P a → P b → P (.sum a b))
    (hterm : ∀ k < p.length, ∀ c, P (term name k c)) : P (toExpr name p) := by
  unfold toExpr
  cases hlinear : Chain.linear Expr.sum (termsFrom name 0 p).reverse with
  | none => exact hzero
  | some t =>
    refine (Chain.hung_linear hlinear).keeps hsum fun x hx => ?_
    obtain ⟨k, c, hk, rfl⟩ := mem_termsFrom (List.mem_reverse.mp hx)
    exact hterm k (by omega) c

theorem length_ofExpr?_monomial {name : String} {k : ℕ}
    (h : ofExpr? name (monomial name k) = some p) : p.length ≤ k + 1 := by
  unfold monomial at h
  split at h
  · cases h
    exact length_trim_le (by simp)
  · rw [ofExpr?, if_pos rfl] at h
    cases h
    exact Nat.le_refl 2
  · obtain ⟨n, hn, hrest⟩ := Option.bind_eq_some_iff.mp h
    have hdegree : k ≤ maxDegree ∧ k = n := by
      unfold degreeExponent? at hn
      grind
    obtain ⟨hdegree, rfl⟩ := hdegree
    obtain ⟨q, hq, hpower⟩ := Option.bind_eq_some_iff.mp hrest
    obtain ⟨r, hr, rfl⟩ := Option.map_eq_some_iff.mp hpower
    rw [ofExpr?, if_pos rfl] at hq
    cases hq
    obtain ⟨r', hr', hlength⟩ := exists_power? (p := [0, 1]) (n := k) (d := 1) (Nat.le_refl 2)
      (by omega)
    obtain rfl : r' = r := Option.some.inj (hr'.symm.trans hr)
    exact length_trim_le (by omega)

theorem length_ofExpr?_term {name : String} {k : ℕ} {c : Number}
    (h : ofExpr? name (term name k c) = some p) : p.length ≤ k + 1 := by
  unfold term at h
  split_ifs at h
  · cases h
    exact length_trim_le (by simp)
  · exact length_ofExpr?_monomial h
  · obtain ⟨q, hq, hproduct⟩ := Option.bind_eq_some_iff.mp h
    obtain ⟨r, hr, rfl⟩ := Option.map_eq_some_iff.mp hproduct
    have hliteral : (trim [c]).length ≤ 1 := length_trim_le (Nat.le_refl 1)
    have hmonomial := length_ofExpr?_monomial hq
    have hlength := (length_multiply? hr).1
    exact length_trim_le (by omega)

/-- Nothing longer is read from a written list, whatever numbers it has. -/
theorem length_ofExpr?_toExpr {name : String} (h : ofExpr? name (toExpr name r) = some p) :
    p.length ≤ r.length := by
  suffices hall : ∀ q, ofExpr? name (toExpr name r) = some q → q.length ≤ r.length from hall p h
  refine toExpr_keeps (P := fun t => ∀ q, ofExpr? name t = some q → q.length ≤ r.length) ?_ ?_ ?_
  · intro q hq
    cases hq
    exact Nat.zero_le _
  · intro a b ha hb s hs
    obtain ⟨p, hp, hrest⟩ := Option.bind_eq_some_iff.mp hs
    obtain ⟨q, hq, rfl⟩ := Option.map_eq_some_iff.mp hrest
    exact length_trim_le (length_zipTerms .add p q ▸ Nat.max_le.mpr ⟨ha p hp, hb q hq⟩)
  · intro k hk c q hq
    exact Nat.le_trans (length_ofExpr?_term hq) hk

/-! ## Long division -/

theorem length_subtractMultiple (factor : Number) (p q : List Number) :
    (subtractMultiple factor p q).length = q.length := by
  fun_induction subtractMultiple factor p q with
  | case1 a p b q ih => rw [List.length_cons, ih, List.length_cons]
  | case2 => rfl

/-- Each step takes the leading coefficient off. -/
theorem length_divisionSteps (lead : Number) (rest : List Number) (h : n ≤ p.length) :
    (divisionSteps lead rest n p).1.length = n ∧
      (divisionSteps lead rest n p).2.length = p.length - n := by
  induction n generalizing p with
  | zero => exact ⟨rfl, rfl⟩
  | succ n ih =>
    cases p with
    | nil => cases h
    | cons a p =>
      have hlength := length_subtractMultiple (a.div lead) rest p
      obtain ⟨hquotient, hremainder⟩ := ih (p := subtractMultiple (a.div lead) rest p)
        (hlength ▸ Nat.le_of_succ_le_succ h)
      simp only [divisionSteps]
      exact ⟨congrArg Nat.succ hquotient, by rw [hremainder, hlength, List.length_cons]; omega⟩

theorem isSome_divide?_iff {p q : Polynomial} :
    (divide? p q).isSome = true ↔ 1 ≤ degree q ∧ degree q ≤ degree p := by
  unfold divide? degree
  split
  case h_1 lead next rest hreverse =>
    have hlength : q.length = rest.length + 2 := by
      rw [← List.length_reverse, hreverse, List.length_cons, List.length_cons]
    split_ifs with hshort
    · simp only [Option.isSome_none, Bool.false_eq_true, false_iff]
      omega
    · simp only [Option.isSome_some, true_iff]
      omega
  case h_2 hother =>
    have hlength : q.reverse.length < 2 := by
      cases hreverse : q.reverse with
      | nil => decide
      | cons lead tail =>
        cases tail with
        | nil => exact Nat.lt_succ_self 1
        | cons next rest => exact absurd hreverse (hother lead next rest)
    rw [List.length_reverse] at hlength
    simp only [Option.isSome_none, Bool.false_eq_true, false_iff]
    omega

theorem length_divide? {p q quotient remainder : Polynomial}
    (h : divide? p q = some (quotient, remainder)) :
    quotient.length ≤ p.length ∧ remainder.length < q.length := by
  obtain ⟨hone, hdegree⟩ := isSome_divide?_iff.mp (Option.isSome_iff_exists.mpr ⟨_, h⟩)
  unfold degree at hone hdegree
  have hle : q.length ≤ p.length := by omega
  unfold divide? at h
  split at h
  case h_1 lead next rest hreverse =>
    rw [if_neg (Nat.not_lt_of_le hle)] at h
    cases h
    obtain ⟨hquotient, hremainder⟩ := length_divisionSteps lead (next :: rest) (p := p.reverse)
      (n := p.length - q.length + 1) (by rw [List.length_reverse]; omega)
    rw [List.length_reverse] at hremainder
    constructor
    · exact length_trim_le (by rw [List.length_reverse]; omega)
    · refine Nat.lt_of_le_of_lt (length_trim_le (n := q.length - 1) ?_) (by omega)
      rw [List.length_reverse, hremainder]
      omega
  case h_2 => cases h

end Polynomial

open SymbolicAlgebra.Polynomial

theorem Divider.univariate_eq_some_iff {n d q r : Expr} {name : String} :
    univariate.divide? n d name = some (q, r) ↔
      ∃ p p' quotient remainder, ofExpr? name n = some p ∧ ofExpr? name d = some p' ∧
        Polynomial.divide? p p' = some (quotient, remainder) ∧ q = toExpr name quotient ∧
          r = toExpr name remainder := by
  simp only [univariate, Option.bind_eq_bind, Option.bind_eq_some_iff, Option.pure_def,
    Option.some.injEq, Prod.mk.injEq]
  constructor
  · rintro ⟨p, hp, p', hp', ⟨quotient, remainder⟩, hdivision, rfl, rfl⟩
    exact ⟨p, p', quotient, remainder, hp, hp', hdivision, rfl, rfl⟩
  · rintro ⟨p, p', quotient, remainder, hp, hp', hdivision, rfl, rfl⟩
    exact ⟨p, hp, p', hp', (quotient, remainder), hdivision, rfl, rfl⟩

end SymbolicAlgebra
