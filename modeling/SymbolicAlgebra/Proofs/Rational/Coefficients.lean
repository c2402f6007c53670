import Mathlib.Algebra.BigOperators.Fin
import SymbolicAlgebra.Proofs.Rational.Writing

/-!
# Coefficient lists as a canonical form

The list that a rational tree is read as has the values of the tree at every point, so trees with the
same values are read as the same list. A tree is read if it has a syntactic degree, that is, if no
intermediate degree is too great and every divisor is a number.
-/

namespace SymbolicAlgebra

open SymbolicAlgebra.Expr SymbolicAlgebra.Polynomial

theorem Polynomial.valueAt_eq_sum (x : ℚ) (p : List Number) :
    valueAt x p = ∑ i : Fin p.length, (p.get i).toRat * x ^ (i : ℕ) := by
  induction p with
  | nil => rfl
  | cons c p ih =>
    rw [valueAt_cons, ih, Finset.mul_sum]
    refine Eq.trans ?_ (Fin.sum_univ_succ _).symm
    congr 1
    · simp
    · refine Finset.sum_congr rfl fun i _ => ?_
      rw [Fin.val_succ, pow_succ]
      simp only [List.get_eq_getElem, Fin.val_succ, List.getElem_cons_succ]
      ring

/-! ## Trees without variables -/

namespace Expr

variable {t : Expr}

/-- Literals and operators only. -/
def isClosed (t : Expr) : Bool := t.isRationalOver fun _ => false

theorem isRationalOver_of_isClosed (allowed : String → Bool) (h : t.isClosed = true) :
    t.isRationalOver allowed = true :=
  isRationalOver_mono (fun _ _ hfalse => by cases hfalse) h

theorem contains_var_of_isClosed (h : t.isClosed = true) (name : String) :
    t.contains (var name) = false := by
  rw [Bool.eq_false_iff, ne_eq, contains_var]
  intro hmem
  cases allowed_of_mem_preorder h hmem

theorem exists_valueIn_of_isClosed (env : Environment) (h : t.isClosed = true) :
    ∃ v, t.valueIn env = some v := by
  induction t with
  | num c => exact ⟨c, rfl⟩
  | binary op a b iha ihb =>
    obtain ⟨ha, hb⟩ := isRationalOver_binary h
    obtain ⟨x, hx⟩ := iha ha
    obtain ⟨y, hy⟩ := ihb hb
    exact ⟨_, by simp only [valueIn, hx, hy]; rfl⟩
  | _ => cases h

end Expr

namespace Polynomial

/-- The degree before any terms cancel, of a tree in which the variable is the only one, every
exponent a literal within the greatest degree and every divisor without variables. No product or
power is of a greater degree. -/
inductive HasSyntacticDegree (name : String) : Expr → ℕ → Prop
  | num (c : Number) : HasSyntacticDegree name (num c) 0
  | var : HasSyntacticDegree name (var name) 1
  | sum {a b : Expr} {m n : ℕ} : HasSyntacticDegree name a m → HasSyntacticDegree name b n →
      HasSyntacticDegree name (sum a b) (max m n)
  | difference {a b : Expr} {m n : ℕ} : HasSyntacticDegree name a m →
      HasSyntacticDegree name b n → HasSyntacticDegree name (difference a b) (max m n)
  | product {a b : Expr} {m n : ℕ} : HasSyntacticDegree name a m →
      HasSyntacticDegree name b n → m + n ≤ maxDegree →
      HasSyntacticDegree name (product a b) (m + n)
  | quotient {a b : Expr} {m : ℕ} : HasSyntacticDegree name a m → b.isClosed = true →
      HasSyntacticDegree name (quotient a b) m
  | power {a : Expr} {m k : ℕ} : HasSyntacticDegree name a m → k ≤ maxDegree →
      k * m ≤ maxDegree → HasSyntacticDegree name (power a (int k)) (k * m)

end Polynomial

namespace Interpretation

variable {I : Interpretation} {t b : Expr} {name : String}

theorem exists_divisor? (hclosed : b.isClosed = true) (hrange : I.DefinedInRange b)
    (hne : I.value b ≠ 0) : ∃ d, divisor? b = some d := by
  obtain ⟨v, hv⟩ := exists_valueIn_of_isClosed (.ofArguments .standard [] []) hclosed
  have hrational := isRationalOver_of_isClosed unreserved hclosed
  obtain ⟨hexact, hword⟩ := I.isExact_of_valueIn hrational hrange hv
  rw [(I.inRange_of_valueIn hrational hv hexact hword).2, ne_eq, ← Number.isZero_iff hexact] at hne
  exact ⟨v, Option.filter_eq_some_iff.mpr ⟨value?_eq_some_iff.mpr hv, by simpa using hne⟩⟩

/-- A tree with a syntactic degree is read as a list of at most that degree. -/
theorem exists_ofExpr?_of_hasSyntacticDegree {n : ℕ} (h : HasSyntacticDegree name t n)
    (hrange : I.DefinedInRange t) : ∃ p, ofExpr? name t = some p ∧ p.length ≤ n + 1 := by
  induction h with
  | num c => exact ⟨trim [c], rfl, length_trim_le (by simp)⟩
  | var => exact ⟨[0, 1], by rw [ofExpr?, if_pos rfl], by simp⟩
  | sum _ _ iha ihb =>
    obtain ⟨ha, hb⟩ := hrange.operands
    obtain ⟨p, hp, hplength⟩ := iha ha
    obtain ⟨q, hq, hqlength⟩ := ihb hb
    have hlength := length_zipTerms .add p q
    exact ⟨trim (zipTerms .add p q), by simp [ofExpr?, hp, hq], length_trim_le (by omega)⟩
  | difference _ _ iha ihb =>
    obtain ⟨ha, hb⟩ := hrange.operands
    obtain ⟨p, hp, hplength⟩ := iha ha
    obtain ⟨q, hq, hqlength⟩ := ihb hb
    have hlength := length_zipTerms .sub p q
    exact ⟨trim (zipTerms .sub p q), by simp [ofExpr?, hp, hq], length_trim_le (by omega)⟩
  | product _ _ hdegree iha ihb =>
    obtain ⟨ha, hb⟩ := hrange.operands
    obtain ⟨p, hp, hplength⟩ := iha ha
    obtain ⟨q, hq, hqlength⟩ := ihb hb
    obtain ⟨r, hr⟩ := exists_multiply? (p := p) (q := q) (by omega)
    have hrlength := (length_multiply? hr).1
    exact ⟨trim r, by simp [ofExpr?, hp, hq, hr], length_trim_le (by omega)⟩
  | quotient _ hclosed iha =>
    obtain ⟨ha, hb, hne⟩ := I.definedInRange_quotient.mp hrange
    obtain ⟨p, hp, hplength⟩ := iha ha
    obtain ⟨d, hd⟩ := exists_divisor? hclosed hb hne
    refine ⟨trim (p.map (·.div d)), ?_, length_trim_le (by rwa [List.length_map])⟩
    simp [ofExpr?, contains_var_of_isClosed hclosed, hd, hp]
  | power _ hk hdegree iha =>
    obtain ⟨p, hp, hplength⟩ := iha hrange.operands.1
    obtain ⟨r, hr, hrlength⟩ := exists_power? hplength hdegree
    refine ⟨trim r, ?_, length_trim_le hrlength⟩
    simp [ofExpr?, degreeExponent?, hk, hp, hr]

/-- Trees that are read as polynomials have the same list exactly if they have the same values. -/
theorem ofExpr?_eq_iff {K : Interpretation} {u : Expr} {p q : Polynomial}
    (ht : t.isRationalOver (unreservedOr name) = true) (htrange : I.DefinedInRange t)
    (hu : u.isRationalOver (unreservedOr name) = true) (hurange : K.DefinedInRange u)
    (hp : ofExpr? name t = some p) (hq : ofExpr? name u = some q) :
    p = q ↔ ∀ x : ℚ, (arithmetic fun _ => x).value t = (arithmetic fun _ => x).value u := by
  have hpvalue : ∀ x, (arithmetic fun _ => x).value t = valueAt x p := fun x =>
    (htrange.readsAs ht hp (arithmetic fun _ => x)).value
  have hqvalue : ∀ x, (arithmetic fun _ => x).value u = valueAt x q := fun x =>
    (hurange.readsAs hu hq (arithmetic fun _ => x)).value
  constructor
  · rintro rfl x
    rw [hpvalue, hqvalue]
  · intro hsame
    refine (htrange.readsAs ht hp I).canonical.eq_of_valueAt
      (hurange.readsAs hu hq I).canonical fun x => ?_
    rw [← hpvalue, ← hqvalue, hsame]

/-- A list that a tree is read as is exact, within the greatest degree and without trailing zeros,
and it has the value of the tree at every point, so it is the same for trees that have the same
values. Every tree with a syntactic degree is read. -/
theorem ofExpr?_canonical {I : Interpretation} {t : Expr} {name : String}
    (hrational : t.isRationalOver (unreservedOr name) = true) (hrange : I.DefinedInRange t) :
    (∀ p, ofExpr? name t = some p →
      ((∀ c ∈ p, c.isExact = true) ∧ p.length ≤ maxDegree + 1 ∧ ∀ c ∈ p.getLast?, c.toRat ≠ 0) ∧
      (∀ J : Interpretation, J.DefinedInRange t ∧
        J.value t = ∑ i : Fin p.length, (p.get i).toRat * J.assignment name ^ (i : ℕ)) ∧
      ∀ (K : Interpretation) (u : Expr) (q : Polynomial),
        u.isRationalOver (unreservedOr name) = true → K.DefinedInRange u →
        ofExpr? name u = some q →
        (p = q ↔ ∀ x : ℚ, (arithmetic fun _ => x).value t = (arithmetic fun _ => x).value u)) ∧
    ∀ n, HasSyntacticDegree name t n → ∃ p, ofExpr? name t = some p := by
  refine ⟨fun p hp => ⟨⟨?_, length_ofExpr?_le hp, ?_⟩, fun J => ?_, ?_⟩, fun n hdegree => ?_⟩
  · exact (hrange.readsAs hrational hp I).canonical.exact
  · intro c hc
    obtain ⟨q, rfl⟩ := List.getLast?_eq_some_iff.mp hc
    exact (hrange.readsAs hrational hp I).canonical.toRat_ne_zero
  · have hreads := hrange.readsAs hrational hp J
    exact ⟨hreads.inRange, hreads.value.trans (valueAt_eq_sum _ p)⟩
  · exact fun K u q hu hurange hq => ofExpr?_eq_iff hrational hrange hu hurange hp hq
  · obtain ⟨p, hp, -⟩ := exists_ofExpr?_of_hasSyntacticDegree hdegree hrange
    exact ⟨p, hp⟩

/-- `((e + 1) ^ 2 - e ^ 2) / 2 ^ 3` and `1 / 4 * e + 1 / 8`, in the variable `e`. -/
theorem ofExpr?_canonical_cancelled :
    let I := arithmetic fun _ => 0
    let e := var "e"
    let t := quotient (difference (power (sum e (int 1)) (int 2)) (power e (int 2)))
      (power (int 2) (int 3))
    let u := sum (product (num (.ofRat (1 / 4))) e) (num (.ofRat (1 / 8)))
    let p : Polynomial := [.ofRat (1 / 8), .ofRat (1 / 4)]
    (t.isRationalOver (unreservedOr "e") = true ∧ I.DefinedInRange t ∧
        HasSyntacticDegree "e" t 2) ∧
      (u.isRationalOver (unreservedOr "e") = true ∧ I.DefinedInRange u) ∧
      (ofExpr? "e" t = some p ∧ ofExpr? "e" u = some p) ∧
      ∀ J : Interpretation, J.DefinedInRange t ∧ J.value t =
        ∑ i : Fin p.length, (p.get i).toRat * J.assignment "e" ^ (i : ℕ) := by
  intro I e t u p
  have ht : t.isRationalOver (unreservedOr "e") = true := by decide
  have hu : u.isRationalOver (unreservedOr "e") = true := by decide
  have hpower : ∀ {a : Expr}, I.DefinedInRange a → ∀ k : ℕ, k ≤ 3 →
      I.DefinedInRange (power a (int k)) := fun ha k hk =>
    I.definedInRange_power_natCast ha (hk.trans (by decide))
  have hbase : I.DefinedInRange (sum e (int 1)) := by simp [e]
  have hdivisor : I.value (power (int 2) (int 3)) ≠ 0 := by simp
  have htrange : I.DefinedInRange t :=
    I.definedInRange_quotient.mpr ⟨I.definedInRange_difference.mpr
      ⟨hpower hbase 2 (by decide), hpower (I.definedInRange_var _) 2 (by decide)⟩,
      hpower ((I.definedInRange_num _).mpr rfl) 3 le_rfl, hdivisor⟩
  have hurange : I.DefinedInRange u := by simp [u, e]
  have hdegree : HasSyntacticDegree "e" t 2 := by
    have hleft : HasSyntacticDegree "e" (power (sum e (int 1)) (int 2)) 2 :=
      .power (m := 1) (k := 2) (.sum .var (.num _)) (by decide) (by decide)
    have hright : HasSyntacticDegree "e" (power e (int 2)) 2 :=
      .power (m := 1) (k := 2) .var (by decide) (by decide)
    exact .quotient (.difference hleft hright) rfl
  have hq : ofExpr? "e" u = some p := by
    have hwritten : toExpr "e" p = u := by with_unfolding_all rfl
    have hexact : Exact p := by simp [p]
    rw [← hwritten, ofExpr?_toExpr "e" hexact (by decide)]
    with_unfolding_all rfl
  obtain ⟨hread, hexists⟩ := ofExpr?_canonical ht htrange
  obtain ⟨r, hr⟩ := hexists 2 hdegree
  obtain ⟨-, hvalue, hsame⟩ := hread r hr
  have hrp : r = p := (hsame I u p hu hurange hq).mpr fun x => by
    simp [t, u, e, arithmetic]
    ring
  subst hrp
  exact ⟨⟨ht, htrange, hdegree⟩, ⟨hu, hurange⟩, ⟨hr, hq⟩, hvalue⟩

end Interpretation

end SymbolicAlgebra
