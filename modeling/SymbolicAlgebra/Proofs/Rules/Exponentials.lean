import SymbolicAlgebra.Proofs.Expr.Variables
import SymbolicAlgebra.Rules.Exponentials

/-!
# Linear angles

`Linear x c b t` says that `t` is written as `c * x + b`, in one of fifteen orders. The split finds
such a writing whenever there is one.

The variable occurs in the offset `b` once less than in `t`, and the closed form of a sine or cosine
holds `b` twice. So a variable is eliminated just if it occurs in the angle once.
-/

namespace SymbolicAlgebra

namespace Rules

open SymbolicAlgebra.Expr

variable {x t a b p q : Expr} {c : Number} {name : String}

/-- `x`, `c * x` and `x * c`. -/
inductive Multiple (x : Expr) : Number → Expr → Prop
  | one : Multiple x 1 x
  | left (c : Number) : Multiple x c (product (num c) x)
  | right (c : Number) : Multiple x c (product x (num c))

/-- A multiple of `x` alone, before or behind another term in a sum or a difference. -/
inductive Linear (x : Expr) : Number → Expr → Expr → Prop
  | multiple {c : Number} {p : Expr} : Multiple x c p → Linear x c (int 0) p
  | sumLeft {c : Number} {p : Expr} (b : Expr) : Multiple x c p → Linear x c b (sum p b)
  | sumRight {c : Number} {p : Expr} (b : Expr) : Multiple x c p → Linear x c b (sum b p)
  | differenceLeft {c : Number} {p : Expr} (b : Expr) : Multiple x c p →
    Linear x c (negated b) (difference p b)
  | differenceRight {c : Number} {p : Expr} (b : Expr) : Multiple x c p →
    Linear x c.neg b (difference b p)

theorem multiple_of_multiplier? (h : multiplier? (var name) t = some a) :
    ∃ c, a = num c ∧ Multiple (var name) c t := by
  unfold multiplier? at h
  split at h
  case h_2 => cases h
  case h_1 p q =>
    split_ifs at h with hleft hright
    · cases h
      obtain ⟨hp, hq⟩ := Bool.and_eq_true_iff.mp hleft
      obtain rfl := beq_var_iff.mp hp
      cases a with
      | num c => exact ⟨c, rfl, .right c⟩
      | _ => cases hq
    · cases h
      obtain ⟨hq, hp⟩ := Bool.and_eq_true_iff.mp hright
      obtain rfl := beq_var_iff.mp hq
      cases a with
      | num c => exact ⟨c, rfl, .left c⟩
      | _ => cases hp

theorem linear_of_sumParts? (h : sumParts? (var name) p q = some (a, b)) :
    ∃ c, a = num c ∧ Linear (var name) c b (sum p q) := by
  unfold sumParts? at h
  split_ifs at h with hp hq
  · cases h
    obtain rfl := beq_var_iff.mp hp
    exact ⟨1, rfl, .sumLeft b .one⟩
  · cases h
    obtain rfl := beq_var_iff.mp hq
    exact ⟨1, rfl, .sumRight b .one⟩
  · split at h
    · cases h
      obtain ⟨c, rfl, hmultiple⟩ := multiple_of_multiplier? ‹_›
      exact ⟨c, rfl, .sumLeft b hmultiple⟩
    · cases h
      obtain ⟨c, rfl, hmultiple⟩ := multiple_of_multiplier? ‹_›
      exact ⟨c, rfl, .sumRight b hmultiple⟩
    · cases h

theorem linear_of_differenceParts? (h : differenceParts? (var name) p q = some (a, b)) :
    ∃ c, a = num c ∧ Linear (var name) c b (difference p q) := by
  unfold differenceParts? at h
  split_ifs at h with hp hq
  · cases h
    obtain rfl := beq_var_iff.mp hp
    exact ⟨1, rfl, .differenceLeft q .one⟩
  · cases h
    obtain rfl := beq_var_iff.mp hq
    exact ⟨(1 : Number).neg, rfl, .differenceRight b .one⟩
  · split at h
    · cases h
      obtain ⟨c, rfl, hmultiple⟩ := multiple_of_multiplier? ‹_›
      exact ⟨c, rfl, .differenceLeft q hmultiple⟩
    · cases h
      obtain ⟨c, rfl, hmultiple⟩ := multiple_of_multiplier? ‹_›
      exact ⟨c.neg, rfl, .differenceRight b hmultiple⟩
    · cases h

/-- What the split finds is a writing as `c * x + b`. -/
theorem linear_of_linearParts? (h : linearParts? (var name) t = some (a, b)) :
    ∃ c, a = num c ∧ Linear (var name) c b t := by
  unfold linearParts? at h
  split_ifs at h with ht
  · cases h
    obtain rfl := beq_var_iff.mp ht
    exact ⟨1, rfl, .multiple .one⟩
  · split at h
    case h_1 hmultiplier =>
      cases h
      obtain ⟨c, rfl, hmultiple⟩ := multiple_of_multiplier? hmultiplier
      exact ⟨c, rfl, .multiple hmultiple⟩
    case h_2 =>
      split at h
      · exact linear_of_sumParts? h
      · exact linear_of_differenceParts? h
      · cases h

theorem multiplier?_of_multiple (h : Multiple x c p) :
    (p == x) = true ∨ (multiplier? x p).isSome = true := by
  cases h with
  | one => exact .inl BEq.rfl
  | left c =>
    right
    simp only [multiplier?]
    split_ifs with hboth hright
    · rfl
    · rfl
    · simp [isNumber, number?] at hright
  | right c =>
    right
    simp [multiplier?, isNumber, number?]

theorem isSome_sumParts? (h : Multiple x c p ∨ Multiple x c q) :
    (sumParts? x p q).isSome = true := by
  have hfound := h.imp multiplier?_of_multiple multiplier?_of_multiple
  unfold sumParts?
  grind

theorem isSome_differenceParts? (h : Multiple x c p ∨ Multiple x c q) :
    (differenceParts? x p q).isSome = true := by
  have hfound := h.imp multiplier?_of_multiple multiplier?_of_multiple
  unfold differenceParts?
  grind

/-- The split finds a writing as `c * x + b` whenever there is one. Where there are two, as in
`x + 2 * x`, it need not be the given one. -/
theorem isSome_linearParts? (h : Linear x c b t) : (linearParts? x t).isSome = true := by
  unfold linearParts?
  split_ifs with ht
  · rfl
  · split
    case h_1 => rfl
    case h_2 hnone =>
      cases h with
      | multiple hp =>
        have hfound := multiplier?_of_multiple hp
        rw [hnone] at hfound
        exact absurd hfound (by simp [ht])
      | sumLeft _ hp => exact isSome_sumParts? (.inl hp)
      | sumRight _ hp => exact isSome_sumParts? (.inr hp)
      | differenceLeft _ hp => exact isSome_differenceParts? (.inl hp)
      | differenceRight _ hp => exact isSome_differenceParts? (.inr hp)

end Rules

/-! ## Occurrences -/

namespace Expr

variable {x : String}

@[simp] theorem occurrences_negated (a : Expr) : (negated a).occurrences x = a.occurrences x := by
  cases a <;> simp [negated, negate]

@[simp] theorem occurrences_times_num (a : Expr) (c : Number) :
    (times a (num c)).occurrences x = a.occurrences x := by
  cases a <;> simp [times]

end Expr

namespace Rules

open SymbolicAlgebra.Expr

variable {x y : String} {t u b p : Expr} {c : Number}

theorem occurrences_of_multiple (h : Multiple (var x) c p) : p.occurrences x = 1 := by
  cases h <;> simp [occurrences_var]

theorem occurrences_of_linear (h : Linear (var x) c b t) :
    t.occurrences x = b.occurrences x + 1 := by
  cases h with
  | multiple hp => simp [occurrences_of_multiple hp]
  | sumLeft b hp => simp [occurrences_of_multiple hp, Nat.add_comm]
  | sumRight b hp => simp [occurrences_of_multiple hp]
  | differenceLeft b hp => simp [occurrences_of_multiple hp, Nat.add_comm]
  | differenceRight b hp => simp [occurrences_of_multiple hp]

theorem occurrences_phase (hx : x ≠ "e") (b : Expr) :
    (phase b).occurrences x = b.occurrences x := by
  simp [phase, occurrences_var, hx.symm]

/-- The closed forms hold the offset twice. -/
theorem occurrences_closedForm (hx : x ≠ "e") (hxy : x ≠ y) (c : Number) (b : Expr) :
    (exponentialSin (var y) (num c) b).occurrences x = 2 * b.occurrences x ∧
      (exponentialCos (var y) (num c) b).occurrences x = 2 * b.occurrences x := by
  simp [exponentialSin, exponentialCos, occurrences_phase hx, twoI, occurrences_var, hxy.symm,
    Nat.two_mul]

theorem occurrences_exponentialTemplate (hx : x ≠ "e") (hxy : x ≠ y)
    (h : exponentialTemplate (var x) (var y) t = some u) :
    u.occurrences x + 2 = 2 * t.occurrences x := by
  unfold exponentialTemplate at h
  split at h
  case h_3 => cases h
  all_goals
    obtain ⟨⟨a, b⟩, hparts, rfl⟩ := Option.map_eq_some_iff.mp h
    obtain ⟨c, rfl, hlinear⟩ := linear_of_linearParts? hparts
    obtain ⟨hsin, hcos⟩ := occurrences_closedForm hx hxy c b
    rw [occurrences_apply, occurrences_of_linear hlinear]
  · rw [hsin, Nat.mul_succ]
  · rw [hcos, Nat.mul_succ]

/-- Writing a sine or cosine over another variable either leaves the tree alone or eliminates the
variable just if it occurs in the tree once. -/
theorem exponentialSubstitution_eliminates_iff (hx : Constants.standard.isReserved x = false)
    (hxy : x ≠ y) (t : Expr) :
    let u := exponentialSubstitution (var x) (var y) t
    u = t ∨ (u.contains (var x) = false ↔ t.occurrences x = 1) := by
  have he : x ≠ "e" := by
    rintro rfl
    cases hx
  refine Template.rewrite_of_forall
    (R := fun t u => u = t ∨ (u.contains (var x) = false ↔ t.occurrences x = 1))
    (.inl rfl) fun template hmem u hu => ?_
  rw [List.mem_singleton.mp hmem] at hu
  have hcount := occurrences_exponentialTemplate he hxy hu
  right
  rw [← Bool.not_eq_true, contains_var_iff_occurrences]
  omega

/-- `cos (1 - x * 3)`, which is left without `x`. -/
theorem exponentialSubstitution_eliminates_iff_once :
    let t := cos (difference (int 1) (product (var "x") (int 3)))
    let u := exponentialSubstitution (var "x") (var "t") t
    Constants.standard.isReserved "x" = false ∧ "x" ≠ "t" ∧ u ≠ t ∧ t.occurrences "x" = 1 ∧
      u.contains (var "x") = false := by
  intro t u
  have hreserved : Constants.standard.isReserved "x" = false := rfl
  have hnames : "x" ≠ "t" := by decide
  have hu : u = exponentialCos (var "t") (int (-3)) (int 1) := rfl
  have hne : u ≠ t := by simp [hu, t, exponentialCos]
  have honce : t.occurrences "x" = 1 := rfl
  have heliminates := exponentialSubstitution_eliminates_iff hreserved hnames t
  exact ⟨hreserved, hnames, hne, honce, (heliminates.resolve_left hne).mpr honce⟩

/-- The sine of `x + x * x` is rewritten over `t`, and `x * x` stays as the offset. -/
theorem not_exponentialSubstitution_eliminates :
    let t := sin (sum (var "x") (product (var "x") (var "x")))
    let u := exponentialSubstitution (var "x") (var "t") t
    Constants.standard.isReserved "x" = false ∧ Constants.standard.isReserved "t" = false ∧
      "x" ≠ "t" ∧ u = exponentialSin (var "t") (int 1) (product (var "x") (var "x")) ∧ u ≠ t ∧
      u.contains (var "x") = true := by
  intro t u
  have hu : u = exponentialSin (var "t") (int 1) (product (var "x") (var "x")) := rfl
  exact ⟨rfl, rfl, by decide, hu, by simp [hu, t, exponentialSin], rfl⟩

end Rules

end SymbolicAlgebra
