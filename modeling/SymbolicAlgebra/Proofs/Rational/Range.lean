import SymbolicAlgebra.Proofs.Expr.Arithmetic
import SymbolicAlgebra.Proofs.Rational.Interpretation

/-!
# Values in the range of exact powers

A tree is defined in range if all its subtrees are defined and no exponent is greater in absolute
value than that of an exact power. Then all its literals are exact, and an operator whose operands
are computed exactly is computed exactly too.
-/

namespace SymbolicAlgebra

open SymbolicAlgebra.Expr

theorem Number.pow_ofRat {q : ℚ} {e : ℤ} (hrange : e.natAbs ≤ maxExactExponent)
    (hbase : q ≠ 0 ∨ 0 ≤ e) : (ofRat q).pow (integer e) = ofRat (q ^ e) := by
  have hother : e ≠ leastWord := by
    rintro rfl
    exact absurd hrange (by decide)
  have hbase : ¬ (q = 0 ∧ e < 0) := fun h => hbase.elim (· h.1) (Int.not_le.mpr h.2)
  rw [pow_integer, if_neg hbase, if_neg hother, if_pos hrange]

theorem Number.isLeastWord_eq_false {a : Number} (h : |a.toRat| ≤ maxExactExponent) :
    a.isLeastWord = false := by
  rw [Bool.eq_false_iff]
  intro hleast
  rw [isLeastWord_iff.mp hleast] at h
  exact absurd h (by decide)

theorem Expr.exists_power_of_withChildren {t a n : Expr} {ts : List Expr}
    (h : t.withChildren ts = some (power a n)) : ∃ a' n', t = power a' n' := by
  unfold withChildren at h
  split at h <;> grind

namespace Interpretation

/-- Without exception for zeroth powers: their bases are subtrees too. -/
def DefinedInRange (I : Interpretation) (t : Expr) : Prop :=
  ∀ u ∈ t.preorder, I.Defined u ∧
    ∀ a n, u = power a n → |I.value n| ≤ Number.maxExactExponent

variable (I : Interpretation) {t u a b n : Expr}

theorem definedInRange_iff :
    I.DefinedInRange t ↔
      (I.Defined t ∧ ∀ a n, t = power a n → |I.value n| ≤ Number.maxExactExponent) ∧
        ∀ c ∈ t.children, I.DefinedInRange c := by
  simp only [DefinedInRange, preorder_eq t, List.forall_mem_cons, List.forall_mem_flatMap]

theorem DefinedInRange.defined {I : Interpretation} (h : I.DefinedInRange t) : I.Defined t :=
  (I.definedInRange_iff.mp h).1.1

@[simp, grind =] theorem definedInRange_num (c : Number) :
    I.DefinedInRange (num c) ↔ c.isExact = true := by
  rw [definedInRange_iff]
  simp [children]

@[simp, grind .] theorem definedInRange_var (x : String) : I.DefinedInRange (var x) := by
  rw [definedInRange_iff]
  simp [children]

/-- The operators other than powers. -/
theorem definedInRange_binary {op : Operator} (hop : op ≠ .power) :
    I.DefinedInRange (binary op a b) ↔
      I.DefinedInRange a ∧ I.DefinedInRange b ∧ (op = .quotient → I.value b ≠ 0) := by
  rw [definedInRange_iff]
  simp only [children, List.forall_mem_cons, List.not_mem_nil, false_imp_iff, implies_true, and_true,
    binary.injEq, hop, false_and]
  constructor
  · rintro ⟨hdef, ha, hb⟩
    refine ⟨ha, hb, ?_⟩
    rintro rfl
    exact hdef.2.2
  · rintro ⟨ha, hb, hne⟩
    refine ⟨?_, ha, hb⟩
    cases op with
    | quotient => exact ⟨ha.defined, hb.defined, hne rfl⟩
    | power => exact absurd rfl hop
    | _ => exact ⟨ha.defined, hb.defined⟩

@[simp, grind =] theorem definedInRange_sum :
    I.DefinedInRange (sum a b) ↔ I.DefinedInRange a ∧ I.DefinedInRange b := by
  simp [definedInRange_binary]

@[simp, grind =] theorem definedInRange_difference :
    I.DefinedInRange (difference a b) ↔ I.DefinedInRange a ∧ I.DefinedInRange b := by
  simp [definedInRange_binary]

@[simp, grind =] theorem definedInRange_product :
    I.DefinedInRange (product a b) ↔ I.DefinedInRange a ∧ I.DefinedInRange b := by
  simp [definedInRange_binary]

@[simp, grind =] theorem definedInRange_quotient :
    I.DefinedInRange (quotient a b) ↔
      I.DefinedInRange a ∧ I.DefinedInRange b ∧ I.value b ≠ 0 := by
  simp [definedInRange_binary]

@[grind =] theorem definedInRange_power :
    I.DefinedInRange (power a n) ↔
      I.DefinedInRange a ∧ I.DefinedInRange n ∧
        ∃ e : ℤ, I.value n = e ∧ e.natAbs ≤ Number.maxExactExponent ∧
          (I.value a ≠ 0 ∨ 0 ≤ e) := by
  rw [definedInRange_iff]
  simp only [children, List.forall_mem_cons, List.not_mem_nil, false_imp_iff, implies_true, and_true]
  have hrange : ∀ e : ℤ, |(e : ℚ)| ≤ Number.maxExactExponent ↔
      e.natAbs ≤ Number.maxExactExponent := fun e => by
    rw [← Int.cast_abs, Int.abs_eq_natAbs]
    norm_cast
  constructor
  · rintro ⟨⟨hdef, hle⟩, ha, hn⟩
    obtain ⟨-, hden, hbase⟩ := hdef
    have hvalue : I.value n = (I.value n).num := (Rat.coe_int_num_of_den_eq_one hden).symm
    refine ⟨ha, hn, _, hvalue, ?_, ?_⟩
    · rw [← hrange, ← hvalue]
      exact hle a n rfl
    · rw [hvalue, Int.cast_nonneg_iff, Int.cast_eq_zero] at hbase
      obtain ⟨-, hbase⟩ | ⟨-, hzero⟩ := hbase
      · exact hbase
      · exact Or.inr hzero.ge
  · rintro ⟨ha, hn, e, hvalue, hle, hbase⟩
    refine ⟨⟨⟨hn.defined, ?_, Or.inl ⟨ha.defined, ?_⟩⟩, ?_⟩, ha, hn⟩
    · rw [hvalue, Rat.den_intCast]
    · rwa [hvalue, Int.cast_nonneg_iff]
    · rintro a' n' ⟨⟩
      rwa [hvalue, hrange]

theorem definedInRange_power_natCast {k : ℕ} (ha : I.DefinedInRange a)
    (hk : k ≤ Number.maxExactExponent) : I.DefinedInRange (power a (int k)) :=
  I.definedInRange_power.mpr ⟨ha, (I.definedInRange_num _).mpr rfl, k, by simp, by simpa using hk,
    Or.inr (Int.natCast_nonneg k)⟩

theorem DefinedInRange.operands {I : Interpretation} {op : Operator}
    (h : I.DefinedInRange (binary op a b)) : I.DefinedInRange a ∧ I.DefinedInRange b := by
  have hchildren := (I.definedInRange_iff.mp h).2
  exact ⟨hchildren a (by simp [children]), hchildren b (by simp [children])⟩

theorem isExact_of_defined_preorder (h : ∀ u ∈ t.preorder, I.Defined u) : t.isExact = true := by
  induction t with
  | num c => exact h (num c) (by simp [preorder])
  | var x => rfl
  | tensor dims elements ih =>
    rw [Expr.isExact, isExactList_eq, List.all_eq_true]
    refine fun e he => ih e he fun u hu => h u ?_
    rw [preorder_eq]
    exact List.mem_cons_of_mem _ (List.mem_flatMap.mpr ⟨e, he, hu⟩)
  | _ => simp_all [Expr.isExact, preorder]

theorem DefinedInRange.isExact {I : Interpretation} (h : I.DefinedInRange t) :
    t.isExact = true :=
  I.isExact_of_defined_preorder fun u hu => (h u hu).1

theorem isExact_value_of_definedInRange {op : Operator} {x y : Number}
    (h : I.DefinedInRange (binary op a b)) (hx : x.isExact = true ∧ I.value a = x.toRat)
    (hy : y.isExact = true ∧ I.value b = y.toRat) : (op.value x y).isExact = true := by
  cases op with
  | sum => exact (Number.isExact_add hx.1 hy.1).1
  | difference => exact (Number.isExact_sub hx.1 hy.1).1
  | product => exact (Number.isExact_mul hx.1 hy.1).1
  | quotient =>
    obtain ⟨-, -, hne⟩ := I.definedInRange_quotient.mp h
    exact (Number.isExact_div hx.1 hy.1 (hy.2 ▸ hne)).1
  | power =>
    obtain ⟨-, -, e, hvalue, hrange, hbase⟩ := I.definedInRange_power.mp h
    have hexponent : y = .integer e := by
      rw [← Number.ofRat_toRat hy.1, ← hy.2, hvalue, Number.ofRat_intCast]
    rw [hx.2] at hbase
    rw [hexponent, ← Number.ofRat_toRat hx.1, Operator.value, Number.pow_ofRat hrange hbase]
    exact Number.isExact_ofRat _

/-- An operator that is computed exactly has its operands in range, unless it raises to the least
word. -/
theorem definedInRange_binary_of_isExact {op : Operator} {x y : Number}
    (ha : I.DefinedInRange a ∧ I.value a = x.toRat) (hb : I.DefinedInRange b ∧ I.value b = y.toRat)
    (h : (op.value x y).isExact = true) (hword : op = .power → y.isLeastWord = false) :
    I.DefinedInRange (binary op a b) ∧ I.value (binary op a b) = (op.value x y).toRat := by
  obtain ⟨hdef, hvalue⟩ :=
    I.defined_binary_of_isExact ⟨ha.1.defined, ha.2⟩ ⟨hb.1.defined, hb.2⟩ h hword
  refine ⟨?_, hvalue⟩
  by_cases hop : op = .power
  · subst hop
    obtain ⟨-, e, rfl, hbase, hrange⟩ := Number.isExact_pow h
    exact I.definedInRange_power.mpr
      ⟨ha.1, hb.1, e, hb.2, (hrange (hword rfl)).1, ha.2 ▸ hbase⟩
  · refine (I.definedInRange_binary hop).mpr ⟨ha.1, hb.1, ?_⟩
    rintro rfl
    exact hdef.2.2

theorem rewriteRelation_inRange :
    RewriteRelation fun t u =>
      I.DefinedInRange t → I.DefinedInRange u ∧ I.value u = I.value t where
  refl _ h := ⟨h, rfl⟩
  trans htu huv h := by
    obtain ⟨hu, htu⟩ := htu h
    obtain ⟨hv, huv⟩ := huv hu
    exact ⟨hv, huv.trans htu⟩
  node {t u ts} hchildren hu h := by
    obtain ⟨⟨hdef, hrange⟩, hall⟩ := I.definedInRange_iff.mp h
    have hrelated : List.Forall₂ (fun c d => I.DefinedInRange d ∧ I.value d = I.value c)
        t.children ts :=
      ((List.forall₂_and_left _ _).mpr ⟨hall, hchildren⟩).imp fun _ _ h => h.2 h.1
    have hflipped : List.Forall₂ (fun d c => I.DefinedInRange d ∧ I.value d = I.value c)
        ts t.children := hrelated.flip
    obtain ⟨hudef, hvalue⟩ :=
      I.rewriteRelation_refines.node (hrelated.imp fun _ _ h _ => ⟨h.1.defined, h.2⟩) hu hdef
    rw [← children_of_withChildren hu] at hrelated hflipped
    refine ⟨I.definedInRange_iff.mpr ⟨⟨hudef, ?_⟩, ((List.forall₂_and_left _ _).mp hflipped).1⟩,
      hvalue⟩
    rintro a n rfl
    obtain ⟨a', n', rfl⟩ := exists_power_of_withChildren hu
    simp only [children, List.forall₂_cons, List.Forall₂.nil, and_true] at hrelated
    rw [hrelated.2.2]
    exact hrange a' n' rfl

end Interpretation

end SymbolicAlgebra
