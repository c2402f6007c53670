import SymbolicAlgebra.Proofs.Program.Substitution

/-!
# What fails to compile or to be evaluated

The instructions of a tree are missing for one reason only: some node is an undeclared variable
without a constant, a calculus node or a tensor. The compiler reports the first such node in
preorder, although the instructions of a node come after those of its children, since a node is
looked at before its children are compiled. A name that is declared twice is reported first.

A tree can be evaluated exactly if it compiles without arguments, so `eval` has no other error than
`notEvaluable`.
-/

namespace SymbolicAlgebra.Expr

/-- What keeps a node from being compiled, whatever its children are. -/
def defect? (constants : Constants) (names : List String) : Expr → Option CompileError
  | var name =>
    if name ∈ names ∨ constants.isReserved name then none else some (.unboundVariable name)
  | derivative _ _ _ => some (.unsupportedNode "derivative")
  | integral _ _ _ => some (.unsupportedNode "integral")
  | limit _ _ _ _ => some (.unsupportedNode "limit")
  | tensor _ _ => some (.unsupportedNode "tensor")
  | _ => none

/-- The defect of the first node in preorder that has one. -/
def firstDefect? (constants : Constants) (names : List String) (t : Expr) : Option CompileError :=
  t.preorder.findSome? (defect? constants names)

section Code

variable {constants : Constants} {names : List String} {e : CompileError}

theorem firstDefect?_binary {op : Operator} {a b : Expr} :
    firstDefect? constants names (binary op a b) =
      (firstDefect? constants names a).or (firstDefect? constants names b) := by
  simp [firstDefect?, preorder, List.findSome?_cons, defect?, List.findSome?_append]

theorem firstDefect?_apply {f : Elementary} {a : Expr} :
    firstDefect? constants names (apply f a) = firstDefect? constants names a := by
  simp [firstDefect?, preorder, List.findSome?_cons, defect?]

theorem firstDefect?_log {base a : Expr} :
    firstDefect? constants names (log base a) =
      (firstDefect? constants names base).or (firstDefect? constants names a) := by
  simp [firstDefect?, preorder, List.findSome?_cons, defect?, List.findSome?_append]

theorem variableCode_eq_error {name : String} :
    variableCode constants names name = .error e ↔
      ¬(name ∈ names ∨ constants.isReserved name = true) ∧ .unboundVariable name = e := by
  rw [← isSome_slot?, Constants.isReserved]
  unfold variableCode
  cases slot? names name with
  | some slot => simp
  | none => cases constants.value? name <;> simp

theorem code_var_eq_error {name : String} :
    code constants names (var name) = .error e ↔
      firstDefect? constants names (var name) = some e := by
  have hcode : code constants names (var name) = .error e ↔
      variableCode constants names name = .error e := by
    rw [code]
    cases variableCode constants names name <;> simp [Except.map]
  rw [hcode, variableCode_eq_error, firstDefect?, preorder, List.findSome?_singleton, defect?]
  split_ifs with hknown <;> simp [hknown]

theorem code_binary_eq_error {op : Operator} {a b : Expr} :
    code constants names (binary op a b) = .error e ↔
      code constants names a = .error e ∨
        (∀ e', code constants names a ≠ .error e') ∧ code constants names b = .error e := by
  rw [code]
  cases code constants names a with
  | error e' => simp [bind, Except.bind]
  | ok left => cases code constants names b <;> simp [bind, Except.bind, pure, Except.pure]

theorem code_apply_eq_error {f : Elementary} {a : Expr} :
    code constants names (apply f a) = .error e ↔ code constants names a = .error e := by
  rw [code]
  cases code constants names a <;> simp [bind, Except.bind, pure, Except.pure]

theorem code_log_eq_error {base a : Expr} :
    code constants names (log base a) = .error e ↔
      code constants names base = .error e ∨
        (∀ e', code constants names base ≠ .error e') ∧ code constants names a = .error e := by
  rw [code]
  cases code constants names base with
  | error e' => simp [bind, Except.bind]
  | ok left => cases code constants names a <;> simp [bind, Except.bind, pure, Except.pure]

/-- The induction goes through for all errors at once: that the right operand is reached means that
the left one has none. -/
theorem code_eq_error {t : Expr} :
    code constants names t = .error e ↔ firstDefect? constants names t = some e := by
  induction t generalizing e with
  | num value => simp [code, firstDefect?, preorder, defect?]
  | var name => exact code_var_eq_error
  | binary op a b iha ihb =>
    rw [code_binary_eq_error, firstDefect?_binary, Option.or_eq_some_iff,
      Option.eq_none_iff_forall_ne_some]
    simp only [ne_eq, iha, ihb]
  | apply f a iha => rw [code_apply_eq_error, firstDefect?_apply, iha]
  | log base a ihb iha =>
    rw [code_log_eq_error, firstDefect?_log, Option.or_eq_some_iff,
      Option.eq_none_iff_forall_ne_some]
    simp only [ne_eq, ihb, iha]
  | derivative a v order => simp [code, firstDefect?, preorder, List.findSome?_cons, defect?]
  | integral a v order => simp [code, firstDefect?, preorder, List.findSome?_cons, defect?]
  | limit a v destination side => simp [code, firstDefect?, preorder, List.findSome?_cons, defect?]
  | tensor dims elements => simp [code, firstDefect?, preorder, List.findSome?_cons, defect?]

end Code

/-- What stands before the reported name has no repetition and shares nothing with `before`. -/
theorem exists_of_firstRepeated {before names : List String} {name : String}
    (h : firstRepeated before names = some name) :
    ∃ earlier later, names = earlier ++ name :: later ∧ earlier.Nodup ∧
      (∀ x ∈ earlier, x ∉ before) ∧ (name ∈ before ∨ name ∈ earlier) := by
  induction names generalizing before with
  | nil => cases h
  | cons x names ih =>
    rw [firstRepeated] at h
    split_ifs at h with hx
    · cases h
      exact ⟨[], names, rfl, List.nodup_nil, by simp, Or.inl (List.contains_iff_mem.mp hx)⟩
    · obtain ⟨earlier, later, rfl, hnodup, hbefore, hname⟩ := ih h
      have hx' : x ∉ before := fun hmem => hx (List.contains_iff_mem.mpr hmem)
      refine ⟨x :: earlier, later, rfl, ?_, ?_, ?_⟩
      · exact List.nodup_cons.mpr ⟨fun hmem => hbefore x hmem List.mem_cons_self, hnodup⟩
      · intro y hy
        rcases List.mem_cons.mp hy with rfl | hy
        · exact hx'
        · exact fun hmem => hbefore y hy (List.mem_cons_of_mem x hmem)
      · rcases hname with hname | hname
        · rcases List.mem_cons.mp hname with rfl | hname
          · exact Or.inr List.mem_cons_self
          · exact Or.inl hname
        · exact Or.inr (List.mem_cons_of_mem x hname)

/-- A tree compiles if the names are distinct, all free variables are among them and no node is a
calculus node or a tensor. Otherwise the error is the first name that was declared before, whatever
the tree, and for distinct names the defect of the first node in preorder that has one. -/
theorem compileWith_outcome (constants : Constants) (t : Expr) (names : List String) :
    ((∃ p, t.compileWith constants names = .ok p) ↔
        names.Nodup ∧ t.freeVariablesIn constants ⊆ names ∧
          ∀ x ∈ t.preorder, x.isInert = false) ∧
      (¬names.Nodup → ∃ earlier name later, names = earlier ++ name :: later ∧ earlier.Nodup ∧
        name ∈ earlier ∧ t.compileWith constants names = .error (.duplicateVariable name)) ∧
      (names.Nodup → ∀ e, t.compileWith constants names = .error e ↔
        t.preorder.findSome? (defect? constants names) = some e) := by
  have hnone : firstRepeated [] names = none ↔ names.Nodup := by
    rw [firstRepeated_eq_none]
    simp
  refine ⟨?_, fun hrepeats => ?_, fun hnames e => ?_⟩
  · rw [exists_compileWith, hnone]
    rfl
  · obtain ⟨name, hname⟩ := Option.ne_none_iff_exists'.mp fun h => hrepeats (hnone.mp h)
    obtain ⟨earlier, later, heq, hnodup, -, hmem⟩ := exists_of_firstRepeated hname
    refine ⟨earlier, name, later, heq, hnodup, hmem.resolve_left List.not_mem_nil, ?_⟩
    rw [compileWith, hname]
  · rw [← firstDefect?, ← code_eq_error, compileWith, hnone.mpr hnames]
    cases code constants names t <;> simp [Except.map]

/-- An undeclared variable stands before a derivative in preorder, and a repeated name before both. -/
theorem compileWith_outcome_several_defects :
    let t := sum (sin (product (var "pi") (var "y"))) (derivative (var "z") (var "x") 1)
    t.compileWith .standard ["x", "z"] = .error (.unboundVariable "y") ∧
      t.compileWith ⟨[("y", 2)]⟩ ["x", "z"] = .error (.unboundVariable "pi") ∧
      ∃ earlier name later, ["x", "z", "x", "z"] = earlier ++ name :: later ∧ earlier.Nodup ∧
        name ∈ earlier ∧
        t.compileWith .standard ["x", "z", "x", "z"] = .error (.duplicateVariable name) := by
  intro t
  exact ⟨((compileWith_outcome .standard t ["x", "z"]).2.2 (by decide) _).mpr rfl,
    ((compileWith_outcome ⟨[("y", 2)]⟩ t ["x", "z"]).2.2 (by decide) _).mpr rfl,
    (compileWith_outcome .standard t ["x", "z", "x", "z"]).2.1 (by decide)⟩

theorem exists_compile_iff_canBeEvaluated {t : Expr} :
    (∃ p, t.compile [] = .ok p) ↔ t.canBeEvaluated = true := by
  rw [canBeEvaluated_iff]
  simp [compile, compileWith_eq_ok, firstRepeated]

/-- The three ways to tell that a tree has a value agree, and a tree without one is reported as
such, never with an error of the compiler or of the stack machine. -/
theorem canBeEvaluated_iff_compile_iff_eval (t : Expr) :
    (t.canBeEvaluated = true ↔ ∃ p, t.compile [] = .ok p) ∧
      ((∃ p, t.compile [] = .ok p) ↔ ∃ v, t.eval = .ok v) ∧
      ∀ e, t.eval = .error e → e = .notEvaluable t := by
  have hvalue : t.canBeEvaluated = true → ∃ v, t.eval = .ok v := by
    intro hcan
    obtain ⟨is, hcode⟩ := canBeEvaluated_iff.mp hcan
    obtain ⟨v, hv, -⟩ := call_code hcode [] rfl
    exact ⟨v, eval_eq_ok.mpr hv⟩
  have hrefused : ¬t.canBeEvaluated = true → t.eval = .error (.notEvaluable t) :=
    fun hcan => if_neg hcan
  refine ⟨exists_compile_iff_canBeEvaluated.symm, ?_, fun e he => ?_⟩
  · rw [exists_compile_iff_canBeEvaluated]
    refine ⟨hvalue, fun ⟨v, hv⟩ => ?_⟩
    by_contra hcan
    cases (hrefused hcan).symm.trans hv
  · by_cases hcan : t.canBeEvaluated = true
    · obtain ⟨v, hv⟩ := hvalue hcan
      cases hv.symm.trans he
    · exact (Except.error.inj ((hrefused hcan).symm.trans he)).symm

end SymbolicAlgebra.Expr
