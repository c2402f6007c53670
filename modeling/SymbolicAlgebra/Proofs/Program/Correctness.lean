import SymbolicAlgebra.Program.Evaluation

/-!
# What a compiled program computes

`valueIn` reads the value of a tree over an environment off the tree itself. The instructions of a
tree leave exactly that value on the stack, whatever lies below it and whatever code follows, so the
call of a compiled program ends with the value of its tree.
-/

namespace SymbolicAlgebra

/-- The values of names, where they have one. -/
abbrev Environment := String → Option Number

/-- A declared name stands for the argument at its place, any other name for its constant. -/
def Environment.ofArguments (constants : Constants) (names : List String) (args : List Number) :
    Environment :=
  fun name => ((names.zip args).lookup name).or (constants.value? name)

/-- An operation takes its operands off the stack, the last one first, and puts its value there. -/
theorem Instruction.execute_call {n : Nat} (args : Fin n → Number) (op : Opcode)
    (operands stack : List Number) (rest : List (Instruction n)) :
    execute args (.call op operands.length :: rest) (operands.reverse ++ stack) =
      execute args rest (op.value operands :: stack) := by
  have htake : (operands.reverse ++ stack).take operands.length = operands.reverse :=
    List.take_left' operands.length_reverse
  have hdrop : (operands.reverse ++ stack).drop operands.length = stack :=
    List.drop_left' operands.length_reverse
  have hlength : ¬(operands.reverse ++ stack).length < operands.length := by simp
  rw [execute, step, if_neg hlength, htake, hdrop, List.reverse_reverse]

namespace Expr

/-- Every operator and function node applies its operation to the values of its children, from left
to right. Calculus nodes and tensors have no value. -/
def valueIn (env : Environment) : Expr → Option Number
  | num value => some value
  | var name => env name
  | binary op a b => do return (Opcode.binary op).value [← valueIn env a, ← valueIn env b]
  | apply f a => do return (Opcode.apply f).value [← valueIn env a]
  | log base a => do return Opcode.log.value [← valueIn env base, ← valueIn env a]
  | derivative _ _ _ => none
  | integral _ _ _ => none
  | limit _ _ _ _ => none
  | tensor _ _ => none

section Code

variable {constants : Constants} {names : List String} {is : List (Instruction names.length)}

theorem code_var_eq_ok {name : String} :
    code constants names (var name) = .ok is ↔
      ∃ i, variableCode constants names name = .ok i ∧ is = [i] := by
  unfold code
  cases variableCode constants names name with
  | error e => simp [Except.map]
  | ok i => simp [Except.map, eq_comm]

theorem code_binary_eq_ok {op : Operator} {a b : Expr} :
    code constants names (binary op a b) = .ok is ↔
      ∃ left right, code constants names a = .ok left ∧ code constants names b = .ok right ∧
        is = left ++ right ++ [.call (.binary op) 2] := by
  rw [code]
  cases code constants names a with
  | error e => simp [bind, Except.bind]
  | ok left =>
    cases code constants names b with
    | error e => simp [bind, Except.bind]
    | ok right => simp [bind, Except.bind, pure, Except.pure, eq_comm]

theorem code_apply_eq_ok {f : Elementary} {a : Expr} :
    code constants names (apply f a) = .ok is ↔
      ∃ operand, code constants names a = .ok operand ∧ is = operand ++ [.call (.apply f) 1] := by
  rw [code]
  cases code constants names a with
  | error e => simp [bind, Except.bind]
  | ok operand => simp [bind, Except.bind, pure, Except.pure, eq_comm]

theorem code_log_eq_ok {base a : Expr} :
    code constants names (log base a) = .ok is ↔
      ∃ left right, code constants names base = .ok left ∧ code constants names a = .ok right ∧
        is = left ++ right ++ [.call .log 2] := by
  rw [code]
  cases code constants names base with
  | error e => simp [bind, Except.bind]
  | ok left =>
    cases code constants names a with
    | error e => simp [bind, Except.bind]
    | ok right => simp [bind, Except.bind, pure, Except.pure, eq_comm]

/-- Each operation of a compiled tree is told to take as many operands as it has. -/
theorem count_of_mem_code {t : Expr} (h : code constants names t = .ok is) {op : Opcode}
    {count : Nat} (hmem : .call op count ∈ is) : count = op.arity := by
  induction t generalizing is with
  | num value =>
    obtain rfl : [.constant value] = is := by simpa [code] using h
    simp at hmem
  | var name =>
    obtain ⟨i, hi, rfl⟩ := code_var_eq_ok.mp h
    obtain rfl : .call op count = i := by simpa using hmem
    unfold variableCode at hi
    split at hi <;> cases hi
  | binary op' a b iha ihb =>
    obtain ⟨left, right, hl, hr, rfl⟩ := code_binary_eq_ok.mp h
    simp only [List.mem_append, List.mem_singleton] at hmem
    obtain (hmem | hmem) | hmem := hmem
    · exact iha hl hmem
    · exact ihb hr hmem
    · cases hmem
      rfl
  | apply f a iha =>
    obtain ⟨operand, ho, rfl⟩ := code_apply_eq_ok.mp h
    simp only [List.mem_append, List.mem_singleton] at hmem
    obtain hmem | hmem := hmem
    · exact iha ho hmem
    · cases hmem
      rfl
  | log base a ihb iha =>
    obtain ⟨left, right, hl, hr, rfl⟩ := code_log_eq_ok.mp h
    simp only [List.mem_append, List.mem_singleton] at hmem
    obtain (hmem | hmem) | hmem := hmem
    · exact ihb hl hmem
    · exact iha hr hmem
    · cases hmem
      rfl
  | derivative a v order => simp [code] at h
  | integral a v order => simp [code] at h
  | limit a v destination side => simp [code] at h
  | tensor dims elements => simp [code] at h

end Code

/-- The place of a declared name is where its argument stands. -/
theorem lookup_zip_eq_slot? (names : List String) (args : List Number)
    (h : args.length = names.length) (name : String) :
    (names.zip args).lookup name =
      (slot? names name).map fun slot => args.get (slot.cast h.symm) := by
  induction names generalizing args with
  | nil => simp [slot?]
  | cons x names ih =>
    cases args with
    | nil => simp at h
    | cons arg args =>
      have h' : args.length = names.length := by simpa using h
      rw [List.zip_cons_cons, List.lookup_cons, slot?, List.findFinIdx?_cons, ih args h']
      by_cases hx : x = name
      · simp [hx]
      · have hx' : (name == x) = false := by simpa using Ne.symm hx
        simp only [hx', beq_iff_eq, hx, if_false, Option.map_map]
        rfl

theorem variableCode_step {constants : Constants} {names : List String} {name : String}
    {i : Instruction names.length} (h : variableCode constants names name = .ok i)
    (args : List Number) (hargs : args.length = names.length) :
    ∃ v, Environment.ofArguments constants names args name = some v ∧
      ∀ stack, i.step (fun slot => args.get (slot.cast hargs.symm)) stack = .ok (v :: stack) := by
  unfold variableCode at h
  unfold Environment.ofArguments
  rw [lookup_zip_eq_slot? names args hargs]
  cases hs : slot? names name with
  | some slot =>
    rw [hs] at h
    cases h
    exact ⟨_, rfl, fun _ => rfl⟩
  | none =>
    rw [hs] at h
    cases hc : constants.value? name with
    | none => simp [hc] at h
    | some value =>
      rw [hc] at h
      cases h
      exact ⟨value, rfl, fun _ => rfl⟩

/-- The instructions of a tree push its value and leave the rest of the stack as it is. The rest of
the code and the stack are general, since every subtree is compiled in the middle of its parent. -/
theorem execute_code {constants : Constants} {names : List String} {t : Expr}
    {is : List (Instruction names.length)} (h : code constants names t = .ok is)
    (args : List Number) (hargs : args.length = names.length) :
    ∃ v, t.valueIn (.ofArguments constants names args) = some v ∧
      ∀ rest stack,
        Instruction.execute (fun slot => args.get (slot.cast hargs.symm)) (is ++ rest) stack =
          Instruction.execute (fun slot => args.get (slot.cast hargs.symm)) rest (v :: stack) := by
  induction t generalizing is with
  | num value =>
    obtain rfl : [.constant value] = is := by simpa [code] using h
    exact ⟨value, rfl, fun _ _ => rfl⟩
  | var name =>
    obtain ⟨i, hi, rfl⟩ := code_var_eq_ok.mp h
    obtain ⟨v, hv, hstep⟩ := variableCode_step hi args hargs
    refine ⟨v, hv, fun rest stack => ?_⟩
    rw [List.singleton_append, Instruction.execute, hstep]
  | binary op a b iha ihb =>
    obtain ⟨left, right, hl, hr, rfl⟩ := code_binary_eq_ok.mp h
    obtain ⟨x, hx, hleft⟩ := iha hl
    obtain ⟨y, hy, hright⟩ := ihb hr
    refine ⟨(Opcode.binary op).value [x, y], by simp [valueIn, hx, hy], fun rest stack => ?_⟩
    rw [List.append_assoc, List.append_assoc, hleft, hright]
    exact Instruction.execute_call _ _ [x, y] stack rest
  | apply f a iha =>
    obtain ⟨operand, ho, rfl⟩ := code_apply_eq_ok.mp h
    obtain ⟨x, hx, hoperand⟩ := iha ho
    refine ⟨(Opcode.apply f).value [x], by simp [valueIn, hx], fun rest stack => ?_⟩
    rw [List.append_assoc, hoperand]
    exact Instruction.execute_call _ _ [x] stack rest
  | log base a ihb iha =>
    obtain ⟨left, right, hl, hr, rfl⟩ := code_log_eq_ok.mp h
    obtain ⟨x, hx, hleft⟩ := ihb hl
    obtain ⟨y, hy, hright⟩ := iha hr
    refine ⟨Opcode.log.value [x, y], by simp [valueIn, hx, hy], fun rest stack => ?_⟩
    rw [List.append_assoc, List.append_assoc, hleft, hright]
    exact Instruction.execute_call _ _ [x, y] stack rest
  | derivative a v order => simp [code] at h
  | integral a v order => simp [code] at h
  | limit a v destination side => simp [code] at h
  | tensor dims elements => simp [code] at h

theorem call_code {constants : Constants} {names : List String} {t : Expr}
    {is : List (Instruction names.length)} (h : code constants names t = .ok is)
    (args : List Number) (hargs : args.length = names.length) :
    ∃ v, t.valueIn (.ofArguments constants names args) = some v ∧
      Program.call ⟨names.length, is⟩ args = .ok v := by
  obtain ⟨v, hv, hrun⟩ := execute_code h args hargs
  refine ⟨v, hv, ?_⟩
  have hexec := hrun [] []
  rw [List.append_nil] at hexec
  rw [Program.call, dif_pos hargs]
  unfold Program.run
  simp only [hexec, Instruction.execute, Program.finish]

theorem compileWith_eq_ok {constants : Constants} {t : Expr} {names : List String} {p : Program} :
    t.compileWith constants names = .ok p ↔
      firstRepeated [] names = none ∧
        ∃ is, code constants names t = .ok is ∧ p = ⟨names.length, is⟩ := by
  unfold compileWith
  cases firstRepeated [] names with
  | some name => simp
  | none =>
    cases code constants names t with
    | error e => simp [Except.map]
    | ok is => simp [Except.map, eq_comm]

/-- A call with the right number of arguments ends with the value of the tree. Every operation is
told to take the operands it has, and every slot is the place of an argument. -/
theorem call_compileWith {constants : Constants} {t : Expr} {names : List String} {p : Program}
    (h : t.compileWith constants names = .ok p) (args : List Number)
    (hargs : args.length = p.arity) :
    (∃ v, t.valueIn (.ofArguments constants names args) = some v ∧ p.call args = .ok v) ∧
      (∀ op count, .call op count ∈ p.code → count = op.arity) ∧
      ∀ slot, .argument slot ∈ p.code → slot.val < args.length := by
  obtain ⟨-, is, hcode, rfl⟩ := compileWith_eq_ok.mp h
  refine ⟨call_code hcode args hargs, fun op count hmem => count_of_mem_code hcode hmem,
    fun slot _ => ?_⟩
  rw [hargs]
  exact slot.isLt

/-- A declared name hides its constant: `(pi - 1) / x ^ 2` at `x = 2` and `pi = 9`. -/
theorem call_compileWith_shadowed :
    ∃ p, compileWith .standard
        (quotient (difference (var "pi") (int 1)) (power (var "x") (int 2))) ["x", "pi"] = .ok p ∧
      [(2 : Number), 9].length = p.arity ∧ p.call [2, 9] = .ok 2 := by
  have hcompile : compileWith .standard
      (quotient (difference (var "pi") (int 1)) (power (var "x") (int 2))) ["x", "pi"] =
        .ok ⟨2, [.argument 1, .constant 1, .call (.binary .difference) 2, .argument 0,
          .constant 2, .call (.binary .power) 2, .call (.binary .quotient) 2]⟩ := rfl
  obtain ⟨⟨v, hv, hcall⟩, -⟩ := call_compileWith hcompile [2, 9] rfl
  have hvalue : valueIn (.ofArguments .standard ["x", "pi"] [2, 9])
      (quotient (difference (var "pi") (int 1)) (power (var "x") (int 2))) = some 2 := by
    with_unfolding_all rfl
  rw [hvalue] at hv
  cases hv
  exact ⟨_, hcompile, rfl, hcall⟩

end Expr

end SymbolicAlgebra
