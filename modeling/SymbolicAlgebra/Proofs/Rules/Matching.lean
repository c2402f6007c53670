import SymbolicAlgebra.Proofs.Chain
import SymbolicAlgebra.Proofs.Expr.Arithmetic
import SymbolicAlgebra.Proofs.Number.Exact
import SymbolicAlgebra.Rules.Factorials
import SymbolicAlgebra.Rules.Trigonometry

/-!
# What the rules for functions match

The squares of a sine or a cosine that the trigonometric rules look for, and the quotients of
factorials that are unrolled, with what they are unrolled to.
-/

namespace SymbolicAlgebra.Rules

open SymbolicAlgebra.Expr

variable {t u a b n d : Expr} {p q : ℚ} {k : ℤ}

theorem squared?_eq_some_iff : t.squared? = some a ↔ t = power a (int 2) := by
  unfold squared?
  split
  case h_1 base exponent =>
    split_ifs with htwo
    · simp [isInt_iff.mp htwo]
    · simp only [binary.injEq, true_and, false_iff, not_and]
      rintro - rfl
      exact htwo rfl
  case h_2 hother => simpa using fun h => hother _ _ h

theorem sinSquared?_eq_some (h : sinSquared? t = some a) : t = power (sin a) (int 2) := by
  unfold sinSquared? at h
  split at h
  case h_1 b hsquare =>
    cases h
    exact squared?_eq_some_iff.mp hsquare
  case h_2 => cases h

theorem cosSquared?_eq_some (h : cosSquared? t = some a) : t = power (cos a) (int 2) := by
  unfold cosSquared? at h
  split at h
  case h_1 b hsquare =>
    cases h
    exact squared?_eq_some_iff.mp hsquare
  case h_2 => cases h

theorem sameAngle_eq_some {a b : Option Expr} {result : Expr → Expr}
    (h : sameAngle a b result = some u) :
    ∃ x y, a = some x ∧ b = some y ∧ (x == y) = true ∧ u = result x := by
  unfold sameAngle at h
  split at h
  · split_ifs at h with hsame
    cases h
    exact ⟨_, _, rfl, rfl, hsame, rfl⟩
  · cases h

/-! ## Factorials -/

/-- `b` with the rational `q` added to it. Nothing is added for zero, unless `b` is itself a tree
with a literal added to it. -/
inductive Shifted (b : Expr) : ℚ → Expr → Prop
  | bare (hb : ∀ x c, b ≠ sum x (num c)) : Shifted b 0 b
  | sum (q : ℚ) : Shifted b q (sum b (num (.ofRat q)))

theorem offset_of_shifted (h : Shifted b q n) : offset n = (b, .ofRat q) := by
  cases h with
  | bare hb =>
    unfold offset
    split
    · exact absurd rfl (hb _ _)
    · rfl
  | sum q => rfl

theorem collapseFactorialMultiplications_of_shifted (hn : Shifted b q n)
    (hd : Shifted b (q + 1) d) :
    collapseFactorialMultiplications (product (factorial n) d) = factorial d := by
  have hnext : (Number.ofRat q).add 1 = .ofRat (q + 1) := Number.add_ofRat q 1
  have htemplate : factorialTimesNext (product (factorial n) d) = some (factorial d) := by
    simp [factorialTimesNext, offset_of_shifted hn, offset_of_shifted hd, hnext]
  simp [collapseFactorialMultiplications, Template.rewrite, Template.first, htemplate]

/-- What a quotient of factorials over one base is unrolled to. -/
structure Unrolled (n d : Expr) (k : ℤ) (u : Expr) : Prop where
  base : ((offset n).1 == (offset d).1) = true
  distance : ((offset n).2.sub (offset d).2).toInt? = some k
  near : k ≠ 0 ∧ k.natAbs < maxUnroll
  result : (0 < k ∧ Chain.Hung product (risingFactors (offset n).1 (offset d).2 k.natAbs) u) ∨
    k < 0 ∧ ∃ v, Chain.Hung product (risingFactors (offset n).1 (offset n).2 k.natAbs) v ∧
      u = quotient (int 1) v

theorem unrolled_of_factorialQuotient (h : factorialQuotient t = some u) :
    ∃ n d k, t = quotient (factorial n) (factorial d) ∧ Unrolled n d k u := by
  unfold factorialQuotient at h
  split at h
  case h_2 => cases h
  case h_1 n d =>
    simp only at h
    split_ifs at h with hbase
    split at h
    case h_2 => cases h
    case h_1 k hk =>
      split_ifs at h with hfar hpos
      · exact ⟨n, d, k, rfl, hbase, hk, by omega, .inl ⟨hpos, Chain.hung_linear h⟩⟩
      · obtain ⟨v, hv, rfl⟩ := Option.map_eq_some_iff.mp h
        exact ⟨n, d, k, rfl, hbase, hk, by omega, .inr ⟨by omega, v, Chain.hung_linear hv, rfl⟩⟩

theorem exists_linear_risingFactors (b : Expr) (c : Number) {count : ℕ} (h : count ≠ 0) :
    ∃ u, Chain.linear product (risingFactors b c count) = some u := by
  obtain ⟨count, rfl⟩ := Nat.exists_eq_succ_of_ne_zero h
  rw [risingFactors, List.range_succ_eq_map]
  exact ⟨_, rfl⟩

theorem exists_factorialQuotient (hn : Shifted b p n) (hd : Shifted b q d) (hk : p - q = k)
    (hne : k ≠ 0) (hnear : k.natAbs < maxUnroll) :
    ∃ u, factorialQuotient (quotient (factorial n) (factorial d)) = some u := by
  have hdistance : ((Number.ofRat p).sub (.ofRat q)).toInt? = some k := by
    rw [Number.sub_ofRat, hk, Number.ofRat_intCast]
    rfl
  have hcount : k.natAbs ≠ 0 := by omega
  obtain ⟨u, hu⟩ := exists_linear_risingFactors b (.ofRat q) hcount
  obtain ⟨v, hv⟩ := exists_linear_risingFactors b (.ofRat p) hcount
  rw [Int.natAbs_ne_zero] at hcount
  simp only [factorialQuotient, offset_of_shifted hn, offset_of_shifted hd, hdistance, hu, hv]
  rw [if_pos BEq.rfl, if_neg (by omega)]
  split_ifs
  · exact ⟨u, rfl⟩
  · exact ⟨quotient (int 1) v, rfl⟩

end SymbolicAlgebra.Rules
