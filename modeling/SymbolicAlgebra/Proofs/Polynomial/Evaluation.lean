import Mathlib.Algebra.Order.Field.Rat
import Mathlib.Data.List.Induction
import Mathlib.Tactic.FieldSimp
import Mathlib.Tactic.LinearCombination
import Mathlib.Tactic.Ring
import SymbolicAlgebra.Proofs.Number.Exact
import SymbolicAlgebra.Proofs.Polynomial.Degree

/-!
# Values of coefficient lists

`valueAt x p` is the value of a polynomial at a rational. A list of coefficients is canonical if they
are exact and the last one is not zero. On lists of exact numbers, trimming keeps the value, the
operations of polynomials are those of the rationals on it, and long division writes the dividend as
quotient times divisor plus remainder. Long division works on lists from the highest coefficient
down, so its steps are about values of reversed lists.
-/

namespace SymbolicAlgebra.Polynomial

def Exact (p : List Number) : Prop := ∀ c ∈ p, c.isExact = true

def valueAt (x : ℚ) : List Number → ℚ
  | [] => 0
  | c :: p => c.toRat + x * valueAt x p

variable {x : ℚ} {p q : List Number}

@[simp] theorem exact_nil : Exact [] := fun _ h => by cases h

@[simp] theorem exact_cons {c : Number} : Exact (c :: p) ↔ c.isExact = true ∧ Exact p :=
  List.forall_mem_cons

@[simp] theorem exact_append : Exact (p ++ q) ↔ Exact p ∧ Exact q := List.forall_mem_append

@[simp] theorem exact_reverse : Exact p.reverse ↔ Exact p := by simp [Exact]

@[simp] theorem valueAt_nil (x : ℚ) : valueAt x [] = 0 := rfl

@[simp] theorem valueAt_cons (x : ℚ) (c : Number) (p : List Number) :
    valueAt x (c :: p) = c.toRat + x * valueAt x p := rfl

theorem valueAt_append (x : ℚ) (p q : List Number) :
    valueAt x (p ++ q) = valueAt x p + x ^ p.length * valueAt x q := by
  induction p with
  | nil => simp
  | cons c p ih =>
    rw [List.cons_append, valueAt_cons, ih, valueAt_cons, List.length_cons]
    ring

/-- The first number of a list from the highest coefficient down. -/
theorem valueAt_reverse_cons (x : ℚ) (c : Number) (p : List Number) :
    valueAt x (c :: p).reverse = valueAt x p.reverse + x ^ p.length * c.toRat := by
  rw [List.reverse_cons, valueAt_append, List.length_reverse, valueAt_cons, valueAt_nil, mul_zero,
    add_zero]

/-! ## Trimming -/

theorem trim_append_singleton (p : List Number) (c : Number) :
    trim (p ++ [c]) = if c.isZero then trim p else p ++ [c] := by
  unfold trim
  rw [List.reverse_append, List.reverse_singleton, List.singleton_append, List.dropWhile_cons]
  split_ifs
  · rfl
  · rw [List.reverse_cons, List.reverse_reverse]

theorem trim_spec (x : ℚ) (h : Exact p) : Exact (trim p) ∧ valueAt x (trim p) = valueAt x p := by
  induction p using List.reverseRecOn with
  | nil => exact ⟨h, rfl⟩
  | append_singleton p c ih =>
    rw [trim_append_singleton]
    split_ifs with hzero
    · obtain ⟨hp, hc⟩ := exact_append.mp h
      obtain ⟨hexact, hvalue⟩ := ih hp
      refine ⟨hexact, ?_⟩
      rw [hvalue, valueAt_append, valueAt_cons, (Number.isZero_iff (hc c (by simp))).mp hzero]
      simp
    · exact ⟨h, rfl⟩

theorem trim_trim (p : Polynomial) : trim (trim p) = trim p := by
  induction p using List.reverseRecOn with
  | nil => rfl
  | append_singleton p c ih =>
    rw [trim_append_singleton]
    split_ifs with hzero
    · exact ih
    · rw [trim_append_singleton, if_neg hzero]

structure Canonical (p : List Number) : Prop where
  exact : Exact p
  trimmed : trim p = p

theorem canonical_trim (hp : Exact p) : Canonical (trim p) :=
  ⟨(trim_spec 0 hp).1, trim_trim p⟩

/-- The leading coefficient of a trimmed list is not zero. -/
theorem isZero_of_trim_eq {c : Number} (h : trim p = q ++ [c]) : c.isZero = false := by
  induction p using List.reverseRecOn with
  | nil => simp [trim] at h
  | append_singleton p d ih =>
    rw [trim_append_singleton] at h
    split_ifs at h with hzero
    · exact ih h
    · obtain ⟨-, hlast⟩ := List.append_inj' h rfl
      cases hlast
      simpa using hzero

theorem Canonical.toRat_ne_zero {c : Number} (h : Canonical (q ++ [c])) : c.toRat ≠ 0 := by
  have hlead := isZero_of_trim_eq h.trimmed
  rwa [← Bool.not_eq_true, Number.isZero_iff (h.exact c (by simp))] at hlead

/-! ## Addition and multiplication -/

/-- An operation on coefficients that adds `s` times the second one. -/
theorem zipTerms_spec (x s : ℚ) {f : Number → Number → Number}
    (hf : ∀ {a b : Number}, a.isExact = true → b.isExact = true →
      (f a b).isExact = true ∧ (f a b).toRat = a.toRat + s * b.toRat)
    (hp : Exact p) (hq : Exact q) :
    Exact (zipTerms f p q) ∧ valueAt x (zipTerms f p q) = valueAt x p + s * valueAt x q := by
  have hzero : (0 : Number).isExact = true := rfl
  fun_induction zipTerms f p q with
  | case1 => simp
  | case2 a p ih =>
    obtain ⟨hexact, hvalue⟩ := ih (exact_cons.mp hp).2 hq
    obtain ⟨hc, hsum⟩ := hf (exact_cons.mp hp).1 hzero
    refine ⟨exact_cons.mpr ⟨hc, hexact⟩, ?_⟩
    rw [valueAt_cons, hvalue, hsum, valueAt_cons]
    simp
  | case3 b q ih =>
    obtain ⟨hexact, hvalue⟩ := ih hp (exact_cons.mp hq).2
    obtain ⟨hc, hsum⟩ := hf hzero (exact_cons.mp hq).1
    refine ⟨exact_cons.mpr ⟨hc, hexact⟩, ?_⟩
    rw [valueAt_cons, hvalue, hsum, valueAt_cons, Number.toRat_zero, valueAt_nil]
    ring
  | case4 a p b q ih =>
    obtain ⟨hexact, hvalue⟩ := ih (exact_cons.mp hp).2 (exact_cons.mp hq).2
    obtain ⟨hc, hsum⟩ := hf (exact_cons.mp hp).1 (exact_cons.mp hq).1
    refine ⟨exact_cons.mpr ⟨hc, hexact⟩, ?_⟩
    rw [valueAt_cons, hvalue, hsum, valueAt_cons, valueAt_cons]
    ring

theorem addMultiple_spec (x : ℚ) {factor : Number} {total : List Number}
    (hfactor : factor.isExact = true) (hq : Exact q) (htotal : Exact total)
    (hlength : q.length ≤ total.length) :
    Exact (addMultiple factor q total) ∧
      valueAt x (addMultiple factor q total) =
        valueAt x total + factor.toRat * valueAt x q := by
  fun_induction addMultiple factor q total with
  | case1 b q c total ih =>
    rw [exact_cons] at hq htotal
    obtain ⟨hexact, hvalue⟩ := ih hq.2 htotal.2 (Nat.le_of_succ_le_succ hlength)
    obtain ⟨hmul, hmulvalue⟩ := Number.isExact_mul hfactor hq.1
    obtain ⟨hadd, haddvalue⟩ := Number.isExact_add htotal.1 hmul
    refine ⟨exact_cons.mpr ⟨hadd, hexact⟩, ?_⟩
    rw [valueAt_cons, hvalue, haddvalue, hmulvalue, valueAt_cons, valueAt_cons]
    ring
  | case2 q total hnone =>
    cases q with
    | nil => exact ⟨htotal, by simp⟩
    | cons b q =>
      cases total with
      | nil => simp at hlength
      | cons c total => exact absurd rfl (hnone b q c total rfl)

theorem addProduct_spec (x : ℚ) (hq : Exact q) (hne : q ≠ []) (hp : Exact p) {total : List Number}
    (htotal : Exact total) (hlength : total.length + 1 = p.length + q.length) :
    Exact (addProduct q p total) ∧
      valueAt x (addProduct q p total) = valueAt x total + valueAt x p * valueAt x q := by
  induction p generalizing total with
  | nil => exact ⟨htotal, by simp [addProduct]⟩
  | cons a p ih =>
    rw [exact_cons] at hp
    rw [List.length_cons] at hlength
    obtain ⟨hexact, hvalue⟩ := addMultiple_spec x hp.1 hq htotal (by omega)
    have hlen := length_addMultiple a q total
    cases hadded : addMultiple a q total with
    | nil =>
      have := List.length_pos_iff.mpr hne
      rw [hadded, List.length_nil] at hlen
      omega
    | cons c rest =>
      rw [hadded] at hexact hlen hvalue
      rw [List.length_cons] at hlen
      rw [exact_cons] at hexact
      obtain ⟨hrest, hrestvalue⟩ := ih hp.2 hexact.2 (by omega)
      simp only [addProduct, hadded]
      refine ⟨exact_cons.mpr ⟨hexact.1, hrest⟩, ?_⟩
      rw [valueAt_cons] at hvalue
      rw [valueAt_cons, valueAt_cons, hrestvalue]
      linear_combination hvalue

theorem zeros_spec (x : ℚ) (n : ℕ) :
    Exact (List.replicate n 0) ∧ valueAt x (List.replicate n 0) = 0 := by
  induction n with
  | zero => simp
  | succ n ih =>
    rw [List.replicate_succ, exact_cons, valueAt_cons, ih.2]
    exact ⟨⟨rfl, ih.1⟩, by simp⟩

theorem multiply?_spec (x : ℚ) (hp : Exact p) (hq : Exact q) {product : Polynomial}
    (h : multiply? p q = some product) :
    Exact product ∧ valueAt x product = valueAt x p * valueAt x q := by
  unfold multiply? at h
  split_ifs at h with hempty hdegree
  · cases h
    rw [Bool.or_eq_true, List.isEmpty_iff, List.isEmpty_iff] at hempty
    obtain rfl | rfl := hempty <;> simp
  · cases h
    rw [Bool.or_eq_true, List.isEmpty_iff, List.isEmpty_iff, not_or] at hempty
    have := List.length_pos_iff.mpr hempty.1
    obtain ⟨hzeros, hzerovalue⟩ := zeros_spec x (p.length + q.length - 1)
    obtain ⟨hexact, hvalue⟩ := addProduct_spec x hq hempty.2 hp hzeros
      (by rw [List.length_replicate]; omega)
    exact ⟨hexact, by rw [hvalue, hzerovalue, zero_add]⟩

theorem power?_spec (x : ℚ) (hp : Exact p) {n : ℕ} {power : Polynomial}
    (h : power? p n = some power) : Exact power ∧ valueAt x power = valueAt x p ^ n := by
  induction n generalizing power with
  | zero =>
    cases h
    exact ⟨exact_cons.mpr ⟨rfl, exact_nil⟩, by simp⟩
  | succ n ih =>
    obtain ⟨previous, hprevious, hpower⟩ := Option.bind_eq_some_iff.mp h
    obtain ⟨hexact, hvalue⟩ := ih hprevious
    obtain ⟨hexact, hproduct⟩ := multiply?_spec x hexact hp hpower
    exact ⟨hexact, by rw [hproduct, hvalue, pow_succ]⟩

theorem map_div_spec (x : ℚ) (hp : Exact p) {d : Number} (hd : d.isExact = true)
    (hne : d.toRat ≠ 0) :
    Exact (p.map (·.div d)) ∧ valueAt x (p.map (·.div d)) = valueAt x p / d.toRat := by
  induction p with
  | nil => simp
  | cons c p ih =>
    rw [exact_cons] at hp
    obtain ⟨hexact, hvalue⟩ := ih hp.2
    obtain ⟨hdiv, hdivvalue⟩ := Number.isExact_div hp.1 hd hne
    refine ⟨exact_cons.mpr ⟨hdiv, hexact⟩, ?_⟩
    rw [List.map_cons, valueAt_cons, hvalue, hdivvalue, valueAt_cons]
    field_simp

/-! ## Long division -/

theorem subtractMultiple_spec (x : ℚ) {factor : Number} (hfactor : factor.isExact = true)
    (hp : Exact p) (hq : Exact q) (hlength : p.length ≤ q.length) :
    Exact (subtractMultiple factor p q) ∧
      valueAt x (subtractMultiple factor p q).reverse = valueAt x q.reverse -
        factor.toRat * valueAt x p.reverse * x ^ (q.length - p.length) := by
  fun_induction subtractMultiple factor p q with
  | case1 a p b q ih =>
    rw [exact_cons] at hp hq
    have hle : p.length ≤ q.length := Nat.le_of_succ_le_succ hlength
    obtain ⟨hexact, hvalue⟩ := ih hp.2 hq.2 hle
    obtain ⟨hmul, hmulvalue⟩ := Number.isExact_mul hfactor hp.1
    obtain ⟨hsub, hsubvalue⟩ := Number.isExact_sub hq.1 hmul
    refine ⟨exact_cons.mpr ⟨hsub, hexact⟩, ?_⟩
    have hpow : x ^ q.length = x ^ p.length * x ^ (q.length - p.length) := by
      rw [← pow_add, Nat.add_sub_cancel' hle]
    rw [valueAt_reverse_cons, valueAt_reverse_cons, valueAt_reverse_cons, hvalue, hsubvalue,
      hmulvalue, length_subtractMultiple, List.length_cons, List.length_cons, Nat.succ_sub_succ, hpow]
    ring
  | case2 p q hnone =>
    cases p with
    | nil => exact ⟨hq, by simp⟩
    | cons a p =>
      cases q with
      | nil => simp at hlength
      | cons b q => exact absurd rfl (hnone a p b q rfl)

/-- After `n` steps on a dividend of `n` coefficients more than `rest` has, the dividend is quotient
times divisor plus remainder. -/
theorem divisionSteps_spec (x : ℚ) {lead : Number} {rest : List Number}
    (hlead : lead.isExact = true) (hne : lead.toRat ≠ 0) (hrest : Exact rest) {n : ℕ}
    (hp : Exact p) (hlength : p.length = n + rest.length) :
    Exact (divisionSteps lead rest n p).1 ∧ Exact (divisionSteps lead rest n p).2 ∧
      valueAt x p.reverse =
        valueAt x (divisionSteps lead rest n p).1.reverse * valueAt x (lead :: rest).reverse +
          valueAt x (divisionSteps lead rest n p).2.reverse := by
  induction n generalizing p with
  | zero =>
    simp only [divisionSteps]
    exact ⟨exact_nil, hp, by simp⟩
  | succ n ih =>
    cases p with
    | nil =>
      rw [List.length_nil] at hlength
      omega
    | cons a p =>
      rw [List.length_cons] at hlength
      rw [exact_cons] at hp
      obtain ⟨hfactor, hfactorvalue⟩ := Number.isExact_div hp.1 hlead hne
      obtain ⟨hsub, hsubvalue⟩ := subtractMultiple_spec x hfactor hrest hp.2 (by omega)
      have hsublength := length_subtractMultiple (a.div lead) rest p
      obtain ⟨hqlength, -⟩ := length_divisionSteps lead rest (n := n)
        (p := subtractMultiple (a.div lead) rest p) (by omega)
      obtain ⟨hquotient, hremainder, hvalue⟩ := ih hsub (by omega)
      simp only [divisionSteps]
      refine ⟨exact_cons.mpr ⟨hfactor, hquotient⟩, hremainder, ?_⟩
      have hdegree : p.length - rest.length = n := by omega
      have hpow : x ^ p.length = x ^ n * x ^ rest.length := by
        rw [← pow_add]
        congr 1
        omega
      have hexact : (a.div lead).toRat * lead.toRat = a.toRat := by
        rw [hfactorvalue]
        field_simp
      rw [hsubvalue, hdegree] at hvalue
      rw [valueAt_reverse_cons, valueAt_reverse_cons x (a.div lead), valueAt_reverse_cons x lead,
        hqlength, hpow, ← hexact]
      rw [valueAt_reverse_cons x lead] at hvalue
      linear_combination hvalue

theorem divide?_spec (x : ℚ) {d quotient remainder : Polynomial} (hp : Exact p) (hd : Canonical d)
    (h : divide? p d = some (quotient, remainder)) :
    Canonical quotient ∧ Canonical remainder ∧
      valueAt x p = valueAt x quotient * valueAt x d + valueAt x remainder := by
  unfold divide? at h
  split at h
  case h_1 lead next rest hreverse =>
    split_ifs at h with hshort
    cases h
    have hd' : d = (next :: rest).reverse ++ [lead] := by
      rw [← List.reverse_cons, ← hreverse, List.reverse_reverse]
    have hexact : Exact (lead :: next :: rest) := hreverse ▸ exact_reverse.mpr hd.exact
    rw [exact_cons] at hexact
    have hne : lead.toRat ≠ 0 := Canonical.toRat_ne_zero (hd' ▸ hd)
    have hlength : d.length = (next :: rest).length + 1 := by
      rw [← List.length_reverse, hreverse, List.length_cons]
    obtain ⟨hquotient, hremainder, hvalue⟩ :=
      divisionSteps_spec x hexact.1 hne hexact.2 (exact_reverse.mpr hp)
        (n := p.length - d.length + 1) (by rw [List.length_reverse]; omega)
    obtain ⟨-, hqvalue⟩ := trim_spec x (exact_reverse.mpr hquotient)
    obtain ⟨-, hrvalue⟩ := trim_spec x (exact_reverse.mpr hremainder)
    rw [List.reverse_reverse, ← hreverse, List.reverse_reverse] at hvalue
    refine ⟨canonical_trim (exact_reverse.mpr hquotient),
      canonical_trim (exact_reverse.mpr hremainder), ?_⟩
    rw [hqvalue, hrvalue, hvalue]
  case h_2 => cases h

end SymbolicAlgebra.Polynomial
