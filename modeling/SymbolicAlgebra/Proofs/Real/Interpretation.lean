import Mathlib.Analysis.SpecialFunctions.Pow.Real
import Mathlib.Analysis.SpecialFunctions.Trigonometric.Arctan
import SymbolicAlgebra.Proofs.Expr.Sameness
import SymbolicAlgebra.Proofs.Number.Exact
import SymbolicAlgebra.Proofs.Number.Zeros

/-!
# Real values of trees

A real interpretation gives real values to the variables, the circle constant to `pi`, and fixes a
partial function for every node that is neither trigonometric nor one of the four operations of
arithmetic. Of powers it says no more than what a square is.

`value?` is the value of a tree. There is none for an inexact literal, over a divisor zero, for an
arc sine or arc cosine outside `[-1, 1]`, at the poles of tangent and cotangent and where the
interpretation gives none.
-/

namespace SymbolicAlgebra

open SymbolicAlgebra.Expr

structure RealInterpretation where
  assignment : String → ℝ
  power : ℝ → ℝ → Option ℝ
  factorial : ℝ → Option ℝ
  log : ℝ → ℝ → Option ℝ
  derivative : ℝ → ℝ → ℕ → Option ℝ
  integral : ℝ → ℝ → ℕ → Option ℝ
  limit : ℝ → ℝ → ℝ → Side → Option ℝ
  tensor : List ℕ → List ℝ → Option ℝ
  assignment_pi : assignment "pi" = Real.pi
  power_two : ∀ x, power x 2 = some (x ^ 2)

namespace RealInterpretation

noncomputable section

/-- Only operators and trigonometric functions have values. -/
def trigonometric (assignment : String → ℝ) : RealInterpretation where
  assignment x := if x = "pi" then Real.pi else assignment x
  power x y := some (x ^ y)
  factorial _ := none
  log _ _ := none
  derivative _ _ _ := none
  integral _ _ _ := none
  limit _ _ _ _ := none
  tensor _ _ := none
  assignment_pi := if_pos rfl
  power_two x := congrArg some (Real.rpow_two x)

def operator (I : RealInterpretation) : Operator → ℝ → ℝ → Option ℝ
  | .sum, x, y => some (x + y)
  | .difference, x, y => some (x - y)
  | .product, x, y => some (x * y)
  | .quotient, x, y => if y = 0 then none else some (x / y)
  | .power, x, y => I.power x y

def function (I : RealInterpretation) : Elementary → ℝ → Option ℝ
  | .sin, x => some (Real.sin x)
  | .cos, x => some (Real.cos x)
  | .tan, x => if Real.cos x = 0 then none else some (Real.tan x)
  | .cot, x => if Real.sin x = 0 then none else some (Real.cot x)
  | .arcsin, x => if -1 ≤ x ∧ x ≤ 1 then some (Real.arcsin x) else none
  | .arccos, x => if -1 ≤ x ∧ x ≤ 1 then some (Real.arccos x) else none
  | .arctan, x => some (Real.arctan x)
  | .arccot, x => some (Real.pi / 2 - Real.arctan x)
  | .factorial, x => I.factorial x

mutual

def value? (I : RealInterpretation) : Expr → Option ℝ
  | num c => c.toRat?.map fun q => (q : ℝ)
  | var x => some (I.assignment x)
  | binary op a b => (value? I a).bind fun x => (value? I b).bind (I.operator op x)
  | apply f a => (value? I a).bind (I.function f)
  | Expr.log base a => (value? I base).bind fun x => (value? I a).bind (I.log x)
  | Expr.derivative a v order =>
    (value? I a).bind fun x => (value? I v).bind fun y => I.derivative x y order
  | Expr.integral a v order =>
    (value? I a).bind fun x => (value? I v).bind fun y => I.integral x y order
  | Expr.limit a v destination side =>
    (value? I a).bind fun x => (value? I v).bind fun y =>
      (value? I destination).bind fun z => I.limit x y z side
  | Expr.tensor dims elements => (valueList? I elements).bind (I.tensor dims)

def valueList? (I : RealInterpretation) : List Expr → Option (List ℝ)
  | [] => some []
  | t :: ts => (value? I t).bind fun x => (valueList? I ts).map (x :: ·)

end

end

variable (I : RealInterpretation) {t u a b : Expr} {x y r : ℝ}

@[simp] theorem value?_int (n : ℤ) : I.value? (int n) = some (n : ℝ) := by
  simp [value?, Number.toRat?]

@[simp] theorem value?_ofRat (q : ℚ) : I.value? (num (.ofRat q)) = some (q : ℝ) := by
  simp [value?]

theorem function_tan : I.function .tan x = some y ↔ Real.cos x ≠ 0 ∧ Real.tan x = y := by
  simp [function]

theorem function_cot : I.function .cot x = some y ↔ Real.sin x ≠ 0 ∧ Real.cot x = y := by
  simp [function]

theorem function_arcsin :
    I.function .arcsin x = some y ↔ (-1 ≤ x ∧ x ≤ 1) ∧ Real.arcsin x = y := by
  simp [function]

theorem function_arccos :
    I.function .arccos x = some y ↔ (-1 ≤ x ∧ x ≤ 1) ∧ Real.arccos x = y := by
  simp [function]

variable {I}

theorem value?_binary (ha : I.value? a = some x) (hb : I.value? b = some y) (op : Operator) :
    I.value? (binary op a b) = I.operator op x y := by
  rw [value?, ha, hb, Option.bind_some, Option.bind_some]

theorem value?_apply (ha : I.value? a = some x) (f : Elementary) :
    I.value? (apply f a) = I.function f x := by
  rw [value?, ha, Option.bind_some]

theorem exists_of_value?_binary {op : Operator} (h : I.value? (binary op a b) = some r) :
    ∃ x y, I.value? a = some x ∧ I.value? b = some y ∧ I.operator op x y = some r := by
  obtain ⟨x, hx, h⟩ := Option.bind_eq_some_iff.mp h
  obtain ⟨y, hy, h⟩ := Option.bind_eq_some_iff.mp h
  exact ⟨x, y, hx, hy, h⟩

theorem exists_of_value?_apply {f : Elementary} (h : I.value? (apply f a) = some r) :
    ∃ x, I.value? a = some x ∧ I.function f x = some r :=
  Option.bind_eq_some_iff.mp h

theorem valueList?_eq_of_map_eq {ts us : List Expr} (h : ts.map I.value? = us.map I.value?) :
    I.valueList? ts = I.valueList? us := by
  induction ts generalizing us with
  | nil => rw [List.map_eq_nil_iff.mp h.symm]
  | cons t ts ih =>
    cases us with
    | nil => cases h
    | cons u us =>
      obtain ⟨hhead, htail⟩ := List.cons_eq_cons.mp h
      rw [valueList?, valueList?, hhead, ih htail]

/-- Trees that are the same have the same value. -/
theorem value?_eq_of_beq (h : (t == u) = true) : I.value? t = I.value? u := by
  change t.same u = true at h
  induction t generalizing u with
  | num c =>
    cases u <;> simp only [same, Bool.false_eq_true] at h
    rw [value?, value?, Number.toRat?_eq_of_same h]
  | tensor dims elements ih =>
    cases u <;> simp only [same, Bool.false_eq_true, Bool.and_eq_true, decide_eq_true_eq] at h
    rw [value?, value?, h.1, valueList?_eq_of_map_eq (map_eq_of_sameList (fun e he u => ih e he) h.2)]
  | _ =>
    cases u <;> simp only [same, Bool.false_eq_true, Bool.and_eq_true, decide_eq_true_eq,
      beq_iff_eq] at h
    all_goals
      simp only [value?]
      grind

end RealInterpretation

end SymbolicAlgebra
