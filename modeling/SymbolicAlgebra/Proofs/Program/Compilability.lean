import SymbolicAlgebra.Proofs.Program.Correctness

/-!
# Which trees compile

A tree has instructions if all its free variables are declared and it has neither calculus nodes nor
tensors. A tree that can be evaluated is one with instructions over no arguments, and its evaluation
is its value over the constants.
-/

namespace SymbolicAlgebra.Expr

variable {constants : Constants} {names : List String} {t : Expr}

theorem isSome_slot? {name : String} : (slot? names name).isSome = true ↔ name ∈ names := by
  simp [slot?, List.isSome_findFinIdx?]

theorem exists_variableCode {name : String} :
    (∃ i, variableCode constants names name = .ok i) ↔
      name ∈ names ∨ constants.isReserved name = true := by
  rw [← isSome_slot?, Constants.isReserved]
  unfold variableCode
  cases slot? names name with
  | some slot => simp
  | none => cases constants.value? name <;> simp

theorem exists_code_var {name : String} :
    (∃ is, code constants names (var name) = .ok is) ↔
      name ∈ names ∨ constants.isReserved name = true := by
  rw [← exists_variableCode]
  simp only [code_var_eq_ok]
  exact ⟨fun ⟨_, i, hi, _⟩ => ⟨i, hi⟩, fun ⟨i, hi⟩ => ⟨[i], i, hi, rfl⟩⟩

theorem exists_code_binary {op : Operator} {a b : Expr} :
    (∃ is, code constants names (binary op a b) = .ok is) ↔
      (∃ left, code constants names a = .ok left) ∧
        ∃ right, code constants names b = .ok right := by
  simp only [code_binary_eq_ok]
  exact ⟨fun ⟨_, left, right, hl, hr, _⟩ => ⟨⟨left, hl⟩, ⟨right, hr⟩⟩,
    fun ⟨⟨left, hl⟩, ⟨right, hr⟩⟩ => ⟨_, left, right, hl, hr, rfl⟩⟩

theorem exists_code_apply {f : Elementary} {a : Expr} :
    (∃ is, code constants names (apply f a) = .ok is) ↔
      ∃ operand, code constants names a = .ok operand := by
  simp only [code_apply_eq_ok]
  exact ⟨fun ⟨_, operand, ho, _⟩ => ⟨operand, ho⟩, fun ⟨operand, ho⟩ => ⟨_, operand, ho, rfl⟩⟩

theorem exists_code_log {base a : Expr} :
    (∃ is, code constants names (log base a) = .ok is) ↔
      (∃ left, code constants names base = .ok left) ∧
        ∃ right, code constants names a = .ok right := by
  simp only [code_log_eq_ok]
  exact ⟨fun ⟨_, left, right, hl, hr, _⟩ => ⟨⟨left, hl⟩, ⟨right, hr⟩⟩,
    fun ⟨⟨left, hl⟩, ⟨right, hr⟩⟩ => ⟨_, left, right, hl, hr, rfl⟩⟩

theorem exists_code :
    (∃ is, code constants names t = .ok is) ↔
      (∀ name ∈ t.freeVariablesIn constants, name ∈ names) ∧
        ∀ x ∈ t.preorder, x.isInert = false := by
  induction t with
  | num value => simp [code, freeVariablesIn, preorder, isInert]
  | var name =>
    rw [exists_code_var]
    by_cases hreserved : constants.isReserved name = true <;>
      simp [freeVariablesIn, preorder, isInert, hreserved]
  | binary op a b iha ihb =>
    have hroot : (binary op a b).isInert = false := rfl
    rw [exists_code_binary, iha, ihb, and_and_and_comm]
    simp only [freeVariablesIn, preorder, Names.mem_union, or_imp, forall_and,
      List.forall_mem_cons, List.forall_mem_append, hroot, true_and]
  | apply f a iha =>
    have hroot : (apply f a).isInert = false := rfl
    rw [exists_code_apply, iha]
    simp only [freeVariablesIn, preorder, List.forall_mem_cons, hroot, true_and]
  | log base a ihb iha =>
    have hroot : (log base a).isInert = false := rfl
    rw [exists_code_log, ihb, iha, and_and_and_comm]
    simp only [freeVariablesIn, preorder, Names.mem_union, or_imp, forall_and,
      List.forall_mem_cons, List.forall_mem_append, hroot, true_and]
  | derivative a v order => simp [code, preorder, isInert]
  | integral a v order => simp [code, preorder, isInert]
  | limit a v destination side => simp [code, preorder, isInert]
  | tensor dims elements => simp [code, preorder, isInert]

theorem exists_compileWith :
    (∃ p, t.compileWith constants names = .ok p) ↔
      firstRepeated [] names = none ∧ (∀ name ∈ t.freeVariablesIn constants, name ∈ names) ∧
        ∀ x ∈ t.preorder, x.isInert = false := by
  rw [← exists_code]
  simp only [compileWith_eq_ok]
  exact ⟨fun ⟨_, hnames, is, hcode, _⟩ => ⟨hnames, is, hcode⟩,
    fun ⟨hnames, is, hcode⟩ => ⟨_, hnames, is, hcode, rfl⟩⟩

theorem arity_of_compileWith {p : Program} (h : t.compileWith constants names = .ok p) :
    p.arity = names.length := by
  obtain ⟨-, is, -, rfl⟩ := compileWith_eq_ok.mp h
  rfl

theorem canBeEvaluated_iff :
    t.canBeEvaluated = true ↔ ∃ is, code .standard [] t = .ok is := by
  rw [exists_code]
  simp [canBeEvaluated, freeVariables, List.isEmpty_iff, List.eq_nil_iff_forall_not_mem]

/-- A tree with a value for the arguments has instructions over them. -/
theorem exists_code_of_valueIn {args : List Number} (hargs : args.length = names.length)
    {v : Number} (h : t.valueIn (.ofArguments constants names args) = some v) :
    ∃ is, code constants names t = .ok is := by
  induction t generalizing v with
  | num value => exact ⟨_, rfl⟩
  | var name =>
    rw [valueIn, Environment.ofArguments, lookup_zip_eq_slot? names args hargs] at h
    rw [exists_code_var, ← isSome_slot?, Constants.isReserved]
    cases hslot : slot? names name with
    | some slot => exact Or.inl rfl
    | none =>
      simp only [hslot, Option.map_none, Option.none_or] at h
      exact Or.inr (by rw [h]; rfl)
  | binary op a b iha ihb =>
    simp only [valueIn, Option.bind_eq_bind, Option.bind_eq_some_iff] at h
    obtain ⟨x, hx, y, hy, -⟩ := h
    exact exists_code_binary.mpr ⟨iha hx, ihb hy⟩
  | apply f a iha =>
    simp only [valueIn, Option.bind_eq_bind, Option.bind_eq_some_iff] at h
    obtain ⟨x, hx, -⟩ := h
    exact exists_code_apply.mpr (iha hx)
  | log base a ihb iha =>
    simp only [valueIn, Option.bind_eq_bind, Option.bind_eq_some_iff] at h
    obtain ⟨x, hx, y, hy, -⟩ := h
    exact exists_code_log.mpr ⟨ihb hx, iha hy⟩
  | _ => cases h

/-- Evaluation ends well exactly on the trees with a value over the constants, and with it. -/
theorem eval_eq_ok {v : Number} :
    t.eval = .ok v ↔ t.valueIn (.ofArguments .standard [] []) = some v := by
  have hvalue : ∀ {is}, code .standard [] t = .ok is →
      ∃ w, t.valueIn (.ofArguments .standard [] []) = some w ∧ t.eval = .ok w := by
    intro is hcode
    obtain ⟨w, hw, hcall⟩ := call_code hcode [] rfl
    have hcompile : t.compile [] = .ok ⟨0, is⟩ := compileWith_eq_ok.mpr ⟨rfl, is, hcode, rfl⟩
    refine ⟨w, hw, ?_⟩
    rw [eval, if_pos (canBeEvaluated_iff.mpr ⟨is, hcode⟩), hcompile]
    exact congrArg (Except.mapError EvalError.call) hcall
  constructor
  · intro h
    have hcan : t.canBeEvaluated = true := by
      by_cases hcan : t.canBeEvaluated = true
      · exact hcan
      · rw [eval, if_neg hcan] at h
        cases h
    obtain ⟨is, hcode⟩ := canBeEvaluated_iff.mp hcan
    obtain ⟨w, hw, heval⟩ := hvalue hcode
    rw [hw, ← Except.ok.inj (heval.symm.trans h)]
  · intro h
    obtain ⟨is, hcode⟩ := exists_code_of_valueIn rfl h
    obtain ⟨w, hw, heval⟩ := hvalue hcode
    rw [heval, Option.some.inj (hw.symm.trans h)]

/-- The value of a tree is its value over the reserved constants. -/
theorem value?_eq_some_iff {v : Number} :
    t.value? = some v ↔ t.valueIn (.ofArguments .standard [] []) = some v := by
  rw [← eval_eq_ok, value?]
  cases t.eval <;> simp [Except.toOption]

end SymbolicAlgebra.Expr
