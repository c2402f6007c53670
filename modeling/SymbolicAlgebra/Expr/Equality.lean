import SymbolicAlgebra.Expr.Basic

/-!
# Structural equality

Two trees are the same if their nodes agree one by one and their literals are the same numbers, so
NaN literals agree with each other and the two zeros of the doubles do. This is an equivalence, and
it is what `==` means on numbers and on trees.
-/

namespace SymbolicAlgebra

theorem ComplexFloat.same_iff {z w : ComplexFloat} :
    z.same w = true ↔
      Binary64.key z.re = Binary64.key w.re ∧ Binary64.key z.im = Binary64.key w.im := by
  simp [same, Binary64.same_iff]

namespace Number

theorem same_refl (a : Number) : a.same a = true := by
  cases a <;> simp [same, Binary64.same_iff, ComplexFloat.same_iff]

theorem same_comm (a b : Number) : a.same b = b.same a := by
  cases a <;> cases b <;>
    simp [same, ComplexFloat.same, Binary64.same, Bool.beq_comm, eq_comm]

theorem same_trans {a b c : Number} (hab : a.same b = true) (hbc : b.same c = true) :
    a.same c = true := by
  cases a <;> cases b <;> cases c <;>
    simp_all [same, Binary64.same_iff, ComplexFloat.same_iff]

instance : EquivBEq Number where
  rfl := same_refl _
  symm h := (same_comm _ _).trans h
  trans := same_trans

end Number

namespace Expr

mutual

def same : Expr → Expr → Bool
  | num m, num n => m == n
  | var x, var y => x == y
  | binary op a b, binary op' a' b' => op = op' && same a a' && same b b'
  | apply f a, apply f' a' => f = f' && same a a'
  | log base a, log base' a' => same base base' && same a a'
  | derivative a v n, derivative a' v' n' => n = n' && same a a' && same v v'
  | integral a v n, integral a' v' n' => n = n' && same a a' && same v v'
  | limit a v d s, limit a' v' d' s' => s = s' && same a a' && same v v' && same d d'
  | tensor dims ts, tensor dims' ts' => dims = dims' && sameList ts ts'
  | _, _ => false

def sameList : List Expr → List Expr → Bool
  | [], [] => true
  | t :: ts, t' :: ts' => same t t' && sameList ts ts'
  | _, _ => false

end

instance : BEq Expr := ⟨same⟩

theorem sameList_refl {ts : List Expr} (h : ∀ t ∈ ts, t.same t = true) :
    sameList ts ts = true := by
  induction ts with
  | nil => rfl
  | cons t ts ih =>
    simp only [sameList, Bool.and_eq_true]
    exact ⟨h t List.mem_cons_self, ih fun u hu => h u (List.mem_cons_of_mem t hu)⟩

theorem same_refl (t : Expr) : t.same t = true := by
  induction t with
  | tensor dims ts ih => simp [same, sameList_refl ih]
  | _ => simp_all [same]

theorem sameList_comm {ts us : List Expr} (h : ∀ t ∈ ts, ∀ u, t.same u = u.same t) :
    sameList ts us = sameList us ts := by
  induction ts generalizing us with
  | nil => cases us <;> rfl
  | cons t ts ih =>
    cases us with
    | nil => rfl
    | cons u us =>
      simp only [sameList]
      rw [h t List.mem_cons_self, ih fun v hv => h v (List.mem_cons_of_mem t hv)]

theorem same_comm (t u : Expr) : t.same u = u.same t := by
  induction t generalizing u with
  | tensor dims ts ih => cases u <;> simp [same, sameList_comm ih, eq_comm]
  | num value =>
    cases u <;> simp [same]
    exact Bool.eq_iff_iff.mpr ⟨BEq.symm, BEq.symm⟩
  | var name => cases u <;> simp [same, Bool.beq_comm]
  | _ => cases u <;> simp_all [same, eq_comm]

theorem sameList_trans {ts us vs : List Expr}
    (h : ∀ t ∈ ts, ∀ u v, t.same u = true → u.same v = true → t.same v = true)
    (htu : sameList ts us = true) (huv : sameList us vs = true) : sameList ts vs = true := by
  induction ts generalizing us vs with
  | nil =>
    cases us with
    | nil => exact huv
    | cons u us => simp [sameList] at htu
  | cons t ts ih =>
    match us, vs with
    | [], _ => simp [sameList] at htu
    | _ :: _, [] => simp [sameList] at huv
    | u :: us, v :: vs =>
      simp only [sameList, Bool.and_eq_true] at *
      exact ⟨h t List.mem_cons_self u v htu.1 huv.1,
        ih (fun w hw => h w (List.mem_cons_of_mem t hw)) htu.2 huv.2⟩

theorem same_trans {t u v : Expr} (htu : t.same u = true) (huv : u.same v = true) :
    t.same v = true := by
  induction t generalizing u v with
  | num value =>
    cases u <;> simp only [same, Bool.false_eq_true] at htu
    cases v <;> simp only [same, Bool.false_eq_true] at huv ⊢
    exact BEq.trans htu huv
  | var name =>
    cases u <;> simp only [same, Bool.false_eq_true] at htu
    cases v <;> simp only [same, Bool.false_eq_true] at huv ⊢
    exact BEq.trans htu huv
  | tensor dims ts ih =>
    cases u <;> simp only [same, Bool.false_eq_true] at htu
    cases v <;> simp only [same, Bool.false_eq_true, Bool.and_eq_true, decide_eq_true_eq] at *
    exact ⟨htu.1.trans huv.1, sameList_trans (fun t ht u v => ih t ht) htu.2 huv.2⟩
  | _ =>
    cases u <;> simp only [same, Bool.false_eq_true] at htu
    cases v <;> simp only [same, Bool.false_eq_true, Bool.and_eq_true, decide_eq_true_eq] at *
    grind

instance : EquivBEq Expr where
  rfl := same_refl _
  symm h := (same_comm _ _).trans h
  trans := same_trans

end Expr

end SymbolicAlgebra
