import Mathlib.Algebra.Order.Field.Rat
import Mathlib.Algebra.Order.Ring.Cast
import Mathlib.Data.Int.Cast.Lemmas
import SymbolicAlgebra.Proofs.Expr.Rewriting
import SymbolicAlgebra.Proofs.Expr.Sameness
import SymbolicAlgebra.Proofs.Number.Exact

/-!
# Rational values of trees

An interpretation gives rational values to the variables and fixes a partial function for every
other node that is no operator. `value` is the value of a tree where `Defined` holds: every literal
is exact, no divisor is zero, every exponent is an integer and not negative over zero, and every
function is defined at its operands.

One tree refines another if it is defined and of the same value wherever the other is defined.
-/

namespace SymbolicAlgebra

open SymbolicAlgebra.Expr

/-- The operator on rationals; powers are meant for integer exponents. -/
def Operator.rational : Operator → ℚ → ℚ → ℚ
  | .sum, p, q => p + q
  | .difference, p, q => p - q
  | .product, p, q => p * q
  | .quotient, p, q => p / q
  | .power, p, q => p ^ q.num

/-- With `zerothPower` the zeroth power of a tree is one even where the tree has no value. -/
structure Interpretation where
  assignment : String → ℚ
  apply : Elementary → ℚ → Option ℚ
  log : ℚ → ℚ → Option ℚ
  derivative : ℚ → ℚ → ℕ → Option ℚ
  integral : ℚ → ℚ → ℕ → Option ℚ
  limit : ℚ → ℚ → ℚ → Side → Option ℚ
  tensor : List ℕ → List ℚ → Option ℚ
  zerothPower : Prop

namespace Interpretation

/-- Only operators have values. -/
def arithmetic (assignment : String → ℚ) : Interpretation where
  assignment := assignment
  apply _ _ := none
  log _ _ := none
  derivative _ _ _ := none
  integral _ _ _ := none
  limit _ _ _ _ := none
  tensor _ _ := none
  zerothPower := False

mutual

def value (I : Interpretation) : Expr → ℚ
  | num c => c.toRat
  | var x => I.assignment x
  | binary op a b => op.rational (value I a) (value I b)
  | Expr.apply f a => (I.apply f (value I a)).getD 0
  | Expr.log base a => (I.log (value I base) (value I a)).getD 0
  | Expr.derivative a v order => (I.derivative (value I a) (value I v) order).getD 0
  | Expr.integral a v order => (I.integral (value I a) (value I v) order).getD 0
  | Expr.limit a v destination side =>
    (I.limit (value I a) (value I v) (value I destination) side).getD 0
  | Expr.tensor dims elements => (I.tensor dims (valueList I elements)).getD 0

def valueList (I : Interpretation) : List Expr → List ℚ
  | [] => []
  | t :: ts => value I t :: valueList I ts

end

mutual

def Defined (I : Interpretation) : Expr → Prop
  | num c => c.isExact = true
  | var _ => True
  | binary op a b =>
    match op with
    | .quotient => Defined I a ∧ Defined I b ∧ I.value b ≠ 0
    | .power =>
      Defined I b ∧ (I.value b).den = 1 ∧
        (Defined I a ∧ (I.value a ≠ 0 ∨ 0 ≤ I.value b) ∨ I.zerothPower ∧ I.value b = 0)
    | _ => Defined I a ∧ Defined I b
  | Expr.apply f a => Defined I a ∧ (I.apply f (I.value a)).isSome = true
  | Expr.log base a =>
    Defined I base ∧ Defined I a ∧ (I.log (I.value base) (I.value a)).isSome = true
  | Expr.derivative a v order =>
    Defined I a ∧ Defined I v ∧ (I.derivative (I.value a) (I.value v) order).isSome = true
  | Expr.integral a v order =>
    Defined I a ∧ Defined I v ∧ (I.integral (I.value a) (I.value v) order).isSome = true
  | Expr.limit a v destination side =>
    Defined I a ∧ Defined I v ∧ Defined I destination ∧
      (I.limit (I.value a) (I.value v) (I.value destination) side).isSome = true
  | Expr.tensor dims elements =>
    DefinedList I elements ∧ (I.tensor dims (I.valueList elements)).isSome = true

def DefinedList (I : Interpretation) : List Expr → Prop
  | [] => True
  | t :: ts => Defined I t ∧ DefinedList I ts

end

variable (I : Interpretation)

@[simp, grind =] theorem value_num (c : Number) : I.value (num c) = c.toRat := rfl

@[simp, grind =] theorem value_var (x : String) : I.value (var x) = I.assignment x := rfl

theorem value_binary (op : Operator) (a b : Expr) :
    I.value (binary op a b) = op.rational (I.value a) (I.value b) := rfl

@[simp, grind =] theorem value_sum (a b : Expr) : I.value (sum a b) = I.value a + I.value b := rfl

@[simp, grind =] theorem value_difference (a b : Expr) :
    I.value (difference a b) = I.value a - I.value b := rfl

@[simp, grind =] theorem value_product (a b : Expr) :
    I.value (product a b) = I.value a * I.value b := rfl

@[simp, grind =] theorem value_quotient (a b : Expr) :
    I.value (quotient a b) = I.value a / I.value b := rfl

@[simp, grind =] theorem value_power (a b : Expr) :
    I.value (power a b) = I.value a ^ (I.value b).num := rfl

@[simp, grind =] theorem defined_num (c : Number) : I.Defined (num c) ↔ c.isExact = true := Iff.rfl

@[simp, grind .] theorem defined_var (x : String) : I.Defined (var x) := trivial

@[simp, grind =] theorem defined_sum (a b : Expr) :
    I.Defined (sum a b) ↔ I.Defined a ∧ I.Defined b := Iff.rfl

@[simp, grind =] theorem defined_difference (a b : Expr) :
    I.Defined (difference a b) ↔ I.Defined a ∧ I.Defined b := Iff.rfl

@[simp, grind =] theorem defined_product (a b : Expr) :
    I.Defined (product a b) ↔ I.Defined a ∧ I.Defined b := Iff.rfl

@[simp, grind =] theorem defined_quotient (a b : Expr) :
    I.Defined (quotient a b) ↔ I.Defined a ∧ I.Defined b ∧ I.value b ≠ 0 := Iff.rfl

theorem defined_power (a b : Expr) :
    I.Defined (power a b) ↔ I.Defined b ∧ (I.value b).den = 1 ∧
      (I.Defined a ∧ (I.value a ≠ 0 ∨ 0 ≤ I.value b) ∨ I.zerothPower ∧ I.value b = 0) := Iff.rfl

/-- A power with a literal exponent other than zero. -/
theorem defined_power_int (a : Expr) {n : ℤ} (hn : n ≠ 0) :
    I.Defined (power a (int n)) ↔ I.Defined a ∧ (I.value a ≠ 0 ∨ 0 ≤ n) := by
  simp only [defined_power, defined_num, value_num, Number.toRat_integer, Int.cast_eq_zero, hn,
    and_false, or_false, Rat.den_intCast, Int.cast_nonneg_iff, true_and, Number.isExact_integer]

@[simp] theorem defined_power_natural (a : Expr) {n : ℕ} [NeZero n] :
    I.Defined (power a (int n)) ↔ I.Defined a := by
  rw [defined_power_int I a (by exact_mod_cast NeZero.ne n)]
  simp

@[simp] theorem value_power_int (a : Expr) (n : ℤ) : I.value (power a (int n)) = I.value a ^ n := by
  simp

/-- An operator applied to exact values is defined if the result is exact, and has that value unless
it raises to the least word. -/
theorem defined_binary_of_isExact {op : Operator} {a b : Expr} {x y : Number}
    (ha : I.Defined a ∧ I.value a = x.toRat) (hb : I.Defined b ∧ I.value b = y.toRat)
    (h : (op.value x y).isExact = true) (hword : op = .power → y.isLeastWord = false) :
    I.Defined (binary op a b) ∧ I.value (binary op a b) = (op.value x y).toRat := by
  obtain ⟨hx, hy⟩ := Number.operands_exact h
  rw [value_binary, ha.2, hb.2]
  cases op with
  | sum => exact ⟨⟨ha.1, hb.1⟩, (Number.isExact_add hx hy).2.symm⟩
  | difference => exact ⟨⟨ha.1, hb.1⟩, (Number.isExact_sub hx hy).2.symm⟩
  | product => exact ⟨⟨ha.1, hb.1⟩, (Number.isExact_mul hx hy).2.symm⟩
  | quotient =>
    have hne := Number.toRat_ne_zero_of_isExact_div h
    exact ⟨⟨ha.1, hb.1, hb.2 ▸ hne⟩, (Number.isExact_div hx hy hne).2.symm⟩
  | power =>
    obtain ⟨-, e, rfl, hne, hpow⟩ := Number.isExact_pow h
    obtain ⟨-, hpow⟩ := hpow (hword rfl)
    rw [defined_power, ha.2, hb.2, Number.toRat_integer, Rat.den_intCast, Int.cast_nonneg_iff]
    exact ⟨⟨hb.1, rfl, Or.inl ⟨ha.1, hne⟩⟩, hpow.symm⟩

/-- Wherever `t` is defined, `u` is defined and has the same value. -/
def Refines (t u : Expr) : Prop := I.Defined t → I.Defined u ∧ I.value u = I.value t

theorem valueList_eq (ts : List Expr) : I.valueList ts = ts.map I.value := by
  induction ts with
  | nil => rfl
  | cons t ts ih => rw [valueList, ih, List.map_cons]

theorem definedList_iff (ts : List Expr) : I.DefinedList ts ↔ ∀ p ∈ ts.map I.Defined, p := by
  induction ts with
  | nil => simp [DefinedList]
  | cons t ts ih => rw [DefinedList, ih, List.map_cons, List.forall_mem_cons]

theorem value_eq_of_same {t u : Expr} (h : t.same u = true) : I.value t = I.value u := by
  induction t generalizing u with
  | num c =>
    cases u <;> simp only [same, Bool.false_eq_true] at h
    exact (Number.isExact_eq_of_same h).2
  | tensor dims elements ih =>
    cases u <;> simp only [same, Bool.false_eq_true, Bool.and_eq_true, decide_eq_true_eq] at h
    have helements := map_eq_of_sameList (fun e he u => ih e he) h.2
    simp only [value, valueList_eq, h.1, helements]
  | _ =>
    cases u <;> simp only [same, Bool.false_eq_true, Bool.and_eq_true, decide_eq_true_eq,
      beq_iff_eq] at h
    all_goals
      simp only [value]
      grind

theorem defined_iff_of_same {t u : Expr} (h : t.same u = true) : I.Defined t ↔ I.Defined u := by
  induction t generalizing u with
  | num c =>
    cases u <;> simp only [same, Bool.false_eq_true] at h
    rw [defined_num, defined_num, (Number.isExact_eq_of_same h).1]
  | tensor dims elements ih =>
    cases u <;> simp only [same, Bool.false_eq_true, Bool.and_eq_true, decide_eq_true_eq] at h
    have hdefined := map_eq_of_sameList (fun e he u hsame => propext (ih e he hsame)) h.2
    have hvalues := map_eq_of_sameList (fun e _ u => I.value_eq_of_same) h.2
    simp only [Defined, definedList_iff, valueList_eq, h.1, hdefined, hvalues]
  | binary op a b iha ihb =>
    cases u <;> simp only [same, Bool.false_eq_true, Bool.and_eq_true, decide_eq_true_eq] at h
    obtain ⟨⟨rfl, ha⟩, hb⟩ := h
    have := I.value_eq_of_same ha
    have := I.value_eq_of_same hb
    cases op <;> simp only [Defined] <;> grind
  | _ =>
    cases u <;> simp only [same, Bool.false_eq_true, Bool.and_eq_true, decide_eq_true_eq,
      beq_iff_eq] at h
    all_goals simp only [Defined] <;> grind [value_eq_of_same]

theorem refines_list {ts us : List Expr} (h : List.Forall₂ I.Refines ts us)
    (hdef : I.DefinedList ts) : I.DefinedList us ∧ I.valueList us = I.valueList ts := by
  induction h with
  | nil => exact ⟨hdef, rfl⟩
  | cons hhead _ ih =>
    obtain ⟨hdef', hvalue⟩ := hhead hdef.1
    obtain ⟨hdefs, hvalues⟩ := ih hdef.2
    exact ⟨⟨hdef', hdefs⟩, congrArg₂ List.cons hvalue hvalues⟩

theorem refines_binary {op : Operator} {a b a' b' : Expr} (ha : I.Refines a a')
    (hb : I.Refines b b') : I.Refines (binary op a b) (binary op a' b') := by
  intro h
  cases op with
  | quotient =>
    obtain ⟨hdefa, hdefb, hzero⟩ := h
    obtain ⟨hdefa, hvaluea⟩ := ha hdefa
    obtain ⟨hdefb, hvalueb⟩ := hb hdefb
    exact ⟨⟨hdefa, hdefb, hvalueb ▸ hzero⟩, by rw [value_binary, hvaluea, hvalueb, value_binary]⟩
  | power =>
    obtain ⟨hdefb, hden, hbase⟩ := h
    obtain ⟨hdefb, hvalueb⟩ := hb hdefb
    rw [defined_power, value_power, value_power, hvalueb]
    obtain ⟨hdefa, hzero⟩ | ⟨hlazy, hzero⟩ := hbase
    · obtain ⟨hdefa, hvaluea⟩ := ha hdefa
      rw [hvaluea]
      exact ⟨⟨hdefb, hden, Or.inl ⟨hdefa, hzero⟩⟩, rfl⟩
    · rw [hzero, Rat.num_zero, zpow_zero, zpow_zero]
      exact ⟨⟨hdefb, rfl, Or.inr ⟨hlazy, rfl⟩⟩, rfl⟩
  | _ =>
    obtain ⟨hdefa, hdefb⟩ := h
    obtain ⟨hdefa, hvaluea⟩ := ha hdefa
    obtain ⟨hdefb, hvalueb⟩ := hb hdefb
    exact ⟨⟨hdefa, hdefb⟩, by rw [value_binary, hvaluea, hvalueb, value_binary]⟩

theorem rewriteRelation_refines : RewriteRelation I.Refines where
  refl _ h := ⟨h, rfl⟩
  trans htu huv h := by
    obtain ⟨hu, htu⟩ := htu h
    obtain ⟨hv, huv⟩ := huv hu
    exact ⟨hv, huv.trans htu⟩
  node {t u ts} hchildren hu := by
    cases t with
    | tensor dims elements =>
      obtain ⟨-, rfl⟩ : ts.length = elements.length ∧ Expr.tensor dims ts = u := by
        simpa [withChildren] using hu
      rintro ⟨hdefs, hsome⟩
      obtain ⟨hdefs', hvalues⟩ := I.refines_list hchildren hdefs
      simp only [Defined, value, hvalues]
      exact ⟨⟨hdefs', hsome⟩, rfl⟩
    | binary op a b =>
      simp only [children, List.forall₂_cons_left_iff, List.forall₂_nil_left_iff] at hchildren
      obtain ⟨a', _, ha, ⟨b', _, hb, rfl, rfl⟩, rfl⟩ := hchildren
      cases hu
      exact I.refines_binary ha hb
    | num c =>
      cases hchildren
      cases hu
      exact fun h => ⟨h, rfl⟩
    | var x =>
      cases hchildren
      cases hu
      exact fun h => ⟨h, rfl⟩
    | _ =>
      simp only [children, List.forall₂_cons_left_iff, List.forall₂_nil_left_iff] at hchildren
      grind [withChildren, Refines, Defined, value]

end Interpretation

end SymbolicAlgebra
