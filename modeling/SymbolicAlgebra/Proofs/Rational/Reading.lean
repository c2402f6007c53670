import SymbolicAlgebra.Proofs.Polynomial.Canonical
import SymbolicAlgebra.Proofs.Polynomial.Reading
import SymbolicAlgebra.Proofs.Program.Compilability
import SymbolicAlgebra.Proofs.Rational.Ordering
import SymbolicAlgebra.Proofs.Rational.Range

/-!
# Trees that are read as polynomials

A rational tree that is read as a polynomial has the value of the polynomial, if every value that
the reading asks for is exact and comes of no power to the least word. That is so where the tree is
defined in range.
-/

namespace SymbolicAlgebra

open SymbolicAlgebra.Expr SymbolicAlgebra.Polynomial

/-- Whether no exponent in the tree has the least word as its value. -/
def Expr.avoidsLeastWord (t : Expr) : Bool :=
  t.preorder.all fun u =>
    match u with
    | power _ n => n.value?.all fun d => !d.isLeastWord
    | _ => true

theorem Expr.avoidsLeastWord_binary {op : Operator} {a b : Expr} :
    (binary op a b).avoidsLeastWord = true ↔
      (op = .power → ∀ d, b.value? = some d → d.isLeastWord = false) ∧
        a.avoidsLeastWord = true ∧ b.avoidsLeastWord = true := by
  simp only [avoidsLeastWord, preorder, List.all_cons, List.all_append, Bool.and_eq_true]
  refine and_congr_left fun _ => ?_
  cases op with
  | power => simp [Option.all_eq_true]
  | _ => simp

namespace Interpretation

variable (I : Interpretation) {t u : Expr} {name : String}

/-! ## Values that are computed -/

theorem valueIn_var_eq_none {x : String} (h : unreserved x = true) :
    (var x).valueIn (.ofArguments .standard [] []) = none := by
  simpa [unreserved, Constants.isReserved, valueIn, Environment.ofArguments] using h

/-- A tree that is evaluated to an exact number is defined in range, with that value. -/
theorem inRange_of_valueIn {v : Number} (hrational : t.isRationalOver unreserved = true)
    (h : t.valueIn (.ofArguments .standard [] []) = some v) (hexact : v.isExact = true)
    (hword : t.avoidsLeastWord = true) : I.DefinedInRange t ∧ I.value t = v.toRat := by
  induction t generalizing v with
  | num c =>
    cases h
    exact ⟨(I.definedInRange_num c).mpr hexact, rfl⟩
  | var x =>
    rw [valueIn_var_eq_none hrational] at h
    cases h
  | binary op a b iha ihb =>
    simp only [valueIn, Option.bind_eq_bind, Option.bind_eq_some_iff] at h
    obtain ⟨x, hx, y, hy, hxy⟩ := h
    obtain rfl : op.value x y = v := Option.some.inj hxy
    obtain ⟨hxexact, hyexact⟩ := Number.operands_exact hexact
    obtain ⟨ha, hb⟩ := isRationalOver_binary hrational
    obtain ⟨hexponent, hworda, hwordb⟩ := avoidsLeastWord_binary.mp hword
    exact I.definedInRange_binary_of_isExact (iha ha hx hxexact hworda) (ihb hb hy hyexact hwordb)
      hexact fun hop => hexponent hop y (value?_eq_some_iff.mpr hy)
  | _ => cases hrational

/-- A tree that is defined in range is evaluated to an exact number, if to any. -/
theorem isExact_of_valueIn {v : Number} (hrational : t.isRationalOver unreserved = true)
    (hrange : I.DefinedInRange t) (h : t.valueIn (.ofArguments .standard [] []) = some v) :
    v.isExact = true ∧ t.avoidsLeastWord = true := by
  induction t generalizing v with
  | num c =>
    cases h
    exact ⟨hrange.isExact, rfl⟩
  | var x =>
    rw [valueIn_var_eq_none hrational] at h
    cases h
  | binary op a b iha ihb =>
    simp only [valueIn, Option.bind_eq_bind, Option.bind_eq_some_iff] at h
    obtain ⟨x, hx, y, hy, hxy⟩ := h
    obtain rfl : op.value x y = v := Option.some.inj hxy
    obtain ⟨ha, hb⟩ := isRationalOver_binary hrational
    obtain ⟨hrangea, hrangeb⟩ := hrange.operands
    obtain ⟨hxexact, hworda⟩ := iha ha hrangea hx
    obtain ⟨hyexact, hwordb⟩ := ihb hb hrangeb hy
    obtain ⟨-, hxvalue⟩ := I.inRange_of_valueIn ha hx hxexact hworda
    obtain ⟨-, hyvalue⟩ := I.inRange_of_valueIn hb hy hyexact hwordb
    refine ⟨I.isExact_value_of_definedInRange hrange ⟨hxexact, hxvalue⟩ ⟨hyexact, hyvalue⟩,
      avoidsLeastWord_binary.mpr ⟨?_, hworda, hwordb⟩⟩
    rintro rfl d hd
    obtain rfl : y = d := Option.some.inj (hy.symm.trans (value?_eq_some_iff.mp hd))
    refine Number.isLeastWord_eq_false ?_
    rw [← hyvalue]
    exact (I.definedInRange_iff.mp hrange).1.2 a b rfl
  | _ => cases hrational

/-- The condition under which a reading is exact. -/
def ExactlyEvaluated (ts : List Expr) : Prop :=
  ∀ e ∈ ts, ∀ v, e.value? = some v → v.isExact = true ∧ e.avoidsLeastWord = true

theorem exactlyEvaluated_nil : ExactlyEvaluated [] := fun _ he => by cases he

theorem exactlyEvaluated_append {l m : List Expr} :
    ExactlyEvaluated (l ++ m) ↔ ExactlyEvaluated l ∧ ExactlyEvaluated m :=
  List.forall_mem_append

theorem exactlyEvaluated_append_ite {l m : List Expr} {c : Bool} (hl : ExactlyEvaluated l)
    (hm : ExactlyEvaluated m) : ExactlyEvaluated (l ++ if c then m else []) := by
  refine exactlyEvaluated_append.mpr ⟨hl, ?_⟩
  split_ifs
  · exact hm
  · exact exactlyEvaluated_nil

theorem exactlyEvaluated_evaluated (hrational : t.isRationalOver (unreservedOr name) = true)
    (hrange : I.DefinedInRange t) : ExactlyEvaluated (evaluated name t) := by
  have hvalue : ∀ {t : Expr}, t.isRationalOver (unreservedOr name) = true → I.DefinedInRange t →
      t.contains (var name) = false → ExactlyEvaluated [t] := by
    intro t hrational hrange hcontains e he v hv
    obtain rfl := List.mem_singleton.mp he
    exact I.isExact_of_valueIn (isRationalOver_unreserved hrational hcontains) hrange
      (value?_eq_some_iff.mp hv)
  induction t with
  | num c => exact exactlyEvaluated_nil
  | var x =>
    simp only [evaluated, evaluatedConstant]
    split_ifs with hx hcontains
    · exact exactlyEvaluated_nil
    · exact exactlyEvaluated_nil
    · exact hvalue hrational hrange (Bool.not_eq_true _ ▸ hcontains)
  | binary op a b iha ihb =>
    obtain ⟨ha, hb⟩ := isRationalOver_binary hrational
    obtain ⟨hrangea, hrangeb⟩ := hrange.operands
    cases op with
    | sum | difference | product =>
      exact exactlyEvaluated_append_ite (iha ha hrangea) (ihb hb hrangeb)
    | quotient =>
      simp only [evaluated]
      split
      · exact exactlyEvaluated_nil
      · next hcontains =>
        exact exactlyEvaluated_append_ite (l := [b])
          (hvalue hb hrangeb (Bool.not_eq_true _ ▸ hcontains)) (iha ha hrangea)
    | power => exact exactlyEvaluated_append_ite (l := []) exactlyEvaluated_nil (iha ha hrangea)
  | _ => cases hrational

/-! ## Reading -/

/-- The list is canonical, and its value at the variable is that of the tree. -/
structure ReadsAs (name : String) (t : Expr) (p : Polynomial) : Prop where
  canonical : Canonical p
  inRange : I.DefinedInRange t
  value : I.value t = valueAt (I.assignment name) p

namespace ReadsAs

variable {I} {a b : Expr} {p q : Polynomial}

theorem of_trim (hexact : Exact p) (hrange : I.DefinedInRange t)
    (hvalue : I.value t = valueAt (I.assignment name) p) : I.ReadsAs name t (trim p) :=
  ⟨canonical_trim hexact, hrange, hvalue.trans (trim_spec (I.assignment name) hexact).2.symm⟩

theorem sum (ha : I.ReadsAs name a p) (hb : I.ReadsAs name b q) :
    I.ReadsAs name (sum a b) (trim (zipTerms .add p q)) := by
  obtain ⟨hexact, hvalue⟩ := zipTerms_spec (I.assignment name) 1
    (fun hx hy => by rw [one_mul]; exact Number.isExact_add hx hy)
    ha.canonical.exact hb.canonical.exact
  refine of_trim hexact (I.definedInRange_sum.mpr ⟨ha.inRange, hb.inRange⟩) ?_
  rw [hvalue, value_sum, ha.value, hb.value, one_mul]

theorem difference (ha : I.ReadsAs name a p) (hb : I.ReadsAs name b q) :
    I.ReadsAs name (difference a b) (trim (zipTerms .sub p q)) := by
  obtain ⟨hexact, hvalue⟩ := zipTerms_spec (I.assignment name) (-1)
    (fun hx hy => by rw [neg_one_mul, ← sub_eq_add_neg]; exact Number.isExact_sub hx hy)
    ha.canonical.exact hb.canonical.exact
  refine of_trim hexact (I.definedInRange_difference.mpr ⟨ha.inRange, hb.inRange⟩) ?_
  rw [hvalue, value_difference, ha.value, hb.value, neg_one_mul, sub_eq_add_neg]

theorem product (ha : I.ReadsAs name a p) (hb : I.ReadsAs name b q) {r : Polynomial}
    (hr : multiply? p q = some r) : I.ReadsAs name (product a b) (trim r) := by
  obtain ⟨hexact, hvalue⟩ :=
    multiply?_spec (I.assignment name) ha.canonical.exact hb.canonical.exact hr
  refine of_trim hexact (I.definedInRange_product.mpr ⟨ha.inRange, hb.inRange⟩) ?_
  rw [hvalue, value_product, ha.value, hb.value]

theorem quotient (ha : I.ReadsAs name a p) {d : Number} (hd : d.isExact = true)
    (hzero : d.isZero = false) (hb : I.DefinedInRange b ∧ I.value b = d.toRat) :
    I.ReadsAs name (quotient a b) (trim (p.map (·.div d))) := by
  have hne : d.toRat ≠ 0 := by
    intro hd0
    rw [(Number.isZero_iff hd).mpr hd0] at hzero
    cases hzero
  obtain ⟨hexact, hvalue⟩ := map_div_spec (I.assignment name) ha.canonical.exact hd hne
  refine of_trim hexact (I.definedInRange_quotient.mpr ⟨ha.inRange, hb.1, hb.2 ▸ hne⟩) ?_
  rw [hvalue, value_quotient, ha.value, hb.2]

theorem power (ha : I.ReadsAs name a p) {n : ℕ} (hn : n ≤ maxDegree) {r : Polynomial}
    (hr : power? p n = some r) : I.ReadsAs name (power a (int n)) (trim r) := by
  obtain ⟨hexact, hvalue⟩ := power?_spec (I.assignment name) ha.canonical.exact hr
  refine of_trim hexact (I.definedInRange_power_natCast ha.inRange (hn.trans (by decide))) ?_
  rw [hvalue, value_power_int, ha.value, zpow_natCast]

end ReadsAs

theorem constant?_eq_none_of_contains (h : t.contains (var name) = true) :
    constant? name t = none := by
  simp [constant?, h]

theorem constant?_var_eq_none {x : String} (h : unreserved x = true) :
    constant? name (var x) = none := by
  rw [Option.eq_none_iff_forall_ne_some]
  intro p hp
  have hfree := freeVariables_of_constant? hp
  rw [unreserved, Bool.not_eq_true'] at h
  simp [freeVariables, freeVariablesIn, h] at hfree

theorem eq_int_of_degreeExponent? {b : Expr} {n : ℕ} (h : degreeExponent? b = some n) :
    b = int n ∧ n ≤ maxDegree := by
  unfold degreeExponent? at h
  split at h
  · split_ifs at h with hle
    cases h
    exact ⟨rfl, hle⟩
  · cases h

/-- A tree reads as its list, if every value that the reading asks for is exact. -/
theorem readsAs_of_ofExpr? {p : Polynomial}
    (hrational : t.isRationalOver (unreservedOr name) = true) (hexact : t.isExact = true)
    (hvalues : ExactlyEvaluated (evaluated name t)) (h : ofExpr? name t = some p) :
    I.ReadsAs name t p := by
  induction t generalizing p with
  | num c =>
    cases h
    exact .of_trim (exact_cons.mpr ⟨hexact, exact_nil⟩) ((I.definedInRange_num c).mpr hexact)
      (by simp)
  | var x =>
    simp only [ofExpr?] at h
    split_ifs at h with hx
    · cases h
      subst hx
      exact ⟨⟨exact_cons.mpr ⟨rfl, exact_cons.mpr ⟨rfl, exact_nil⟩⟩, rfl⟩,
        I.definedInRange_var x, by simp⟩
    · have hfree : unreserved x = true := by
        simpa [isRationalOver, unreservedOr, hx] using hrational
      rw [constant?_var_eq_none hfree] at h
      cases h
  | binary op a b iha ihb =>
    obtain ⟨ha, hb⟩ := isRationalOver_binary hrational
    obtain ⟨haexact, hbexact⟩ := Bool.and_eq_true_iff.mp hexact
    replace iha := fun {p} => @iha p ha haexact
    replace ihb := fun {q} => @ihb q hb hbexact
    cases op with
    | sum =>
      obtain ⟨p, hp, hrest⟩ := Option.bind_eq_some_iff.mp h
      obtain ⟨q, hq, rfl⟩ := Option.map_eq_some_iff.mp hrest
      simp only [evaluated, hp, Option.isSome_some, if_true, exactlyEvaluated_append] at hvalues
      exact (iha hvalues.1 hp).sum (ihb hvalues.2 hq)
    | difference =>
      obtain ⟨p, hp, hrest⟩ := Option.bind_eq_some_iff.mp h
      obtain ⟨q, hq, rfl⟩ := Option.map_eq_some_iff.mp hrest
      simp only [evaluated, hp, Option.isSome_some, if_true, exactlyEvaluated_append] at hvalues
      exact (iha hvalues.1 hp).difference (ihb hvalues.2 hq)
    | product =>
      obtain ⟨p, hp, hrest⟩ := Option.bind_eq_some_iff.mp h
      obtain ⟨q, hq, hproduct⟩ := Option.bind_eq_some_iff.mp hrest
      obtain ⟨r, hr, rfl⟩ := Option.map_eq_some_iff.mp hproduct
      simp only [evaluated, hp, Option.isSome_some, if_true, exactlyEvaluated_append] at hvalues
      exact (iha hvalues.1 hp).product (ihb hvalues.2 hq) hr
    | quotient =>
      simp only [ofExpr?] at h
      split_ifs at h with hcontains
      · have hquotient : (Expr.quotient a b).contains (var name) = true := by
          rw [contains_var] at hcontains ⊢
          simp [preorder, hcontains]
        rw [constant?_eq_none_of_contains hquotient] at h
        cases h
      · obtain ⟨d, hd, hrest⟩ := Option.bind_eq_some_iff.mp h
        obtain ⟨p, hp, rfl⟩ := Option.map_eq_some_iff.mp hrest
        rw [evaluated, if_neg hcontains] at hvalues
        simp only [hd, Option.isSome_some, if_true, ExactlyEvaluated, List.mem_cons] at hvalues
        obtain ⟨hvalue, hzero⟩ := Option.filter_eq_some_iff.mp hd
        obtain ⟨hdexact, hword⟩ := hvalues b (Or.inl rfl) d hvalue
        have hfree := isRationalOver_unreserved hb (Bool.not_eq_true _ ▸ hcontains)
        exact (iha (fun e he => hvalues e (Or.inr he)) hp).quotient hdexact (by simpa using hzero)
          (I.inRange_of_valueIn hfree (value?_eq_some_iff.mp hvalue) hdexact hword)
    | power =>
      obtain ⟨n, hn, hrest⟩ := Option.bind_eq_some_iff.mp h
      obtain ⟨p, hp, hpower⟩ := Option.bind_eq_some_iff.mp hrest
      obtain ⟨r, hr, rfl⟩ := Option.map_eq_some_iff.mp hpower
      simp only [evaluated, hn, Option.isSome_some, if_true] at hvalues
      obtain ⟨rfl, hle⟩ := eq_int_of_degreeExponent? hn
      exact (iha hvalues hp).power hle hr
  | _ => cases hrational

/-- A tree that is defined in range at one point has the value of its list at every point. -/
theorem DefinedInRange.readsAs {I : Interpretation} (hrange : I.DefinedInRange t)
    (hrational : t.isRationalOver (unreservedOr name) = true) {p : Polynomial}
    (h : ofExpr? name t = some p) (J : Interpretation) : J.ReadsAs name t p :=
  J.readsAs_of_ofExpr? hrational hrange.isExact (I.exactlyEvaluated_evaluated hrational hrange) h

end Interpretation

end SymbolicAlgebra
