import Mathlib.Data.List.Basic
import SymbolicAlgebra.Proofs.Program.Correctness
import SymbolicAlgebra.Proofs.Program.Slots

/-!
# How deep the stack grows

The depth of a program is computed from its instructions alone, and a subtraction in it stops at
zero. On a run that meets no error it never gets there: whatever the arguments, the stack has the
computed length before and after every instruction, so its greatest length is the computed depth. A
compiled program never meets an error.
-/

namespace SymbolicAlgebra

namespace Instruction

variable {n : Nat} {args : Fin n → Number} {code : List (Instruction n)}
  {stack next final : List Number}

theorem count_le_of_step {op : Opcode} {count : Nat}
    (h : (call op count).step args stack = .ok next) : count ≤ stack.length := by
  rw [step] at h
  split_ifs at h with hshort
  exact Nat.le_of_not_lt hshort

theorem length_of_step {i : Instruction n} (h : i.step args stack = .ok next) :
    next.length = i.depthAfter stack.length := by
  cases i with
  | constant value =>
    cases h
    rfl
  | argument slot =>
    cases h
    rfl
  | call op count =>
    rw [step] at h
    split_ifs at h
    cases h
    rw [List.length_cons, List.length_drop, depthAfter]

theorem execute_cons_eq_ok {i : Instruction n} :
    execute args (i :: code) stack = .ok final ↔
      ∃ next, i.step args stack = .ok next ∧ execute args code next = .ok final := by
  rw [execute]
  cases i.step args stack <;> simp

/-- The history has the stacks that the first instructions leave, one more of them at a time. -/
theorem getElem?_stackHistory {k : Nat} (hk : k ≤ code.length) :
    (stackHistory args code stack)[k]? = (execute args (code.take k) stack).toOption := by
  induction code generalizing stack k with
  | nil =>
    obtain rfl : k = 0 := Nat.le_zero.mp hk
    rfl
  | cons i code ih =>
    rw [stackHistory]
    cases k with
    | zero =>
      rw [List.take_zero, execute]
      cases i.step args stack <;> rfl
    | succ k =>
      rw [List.take_succ_cons, execute]
      cases i.step args stack with
      | ok next => exact ih (Nat.le_of_succ_le_succ hk)
      | error e => rfl

/-- Before and after every instruction the stack has the length computed for that point. -/
theorem map_length_stackHistory (h : execute args code stack = .ok final) :
    (stackHistory args code stack).map List.length = code.scanl depthAfter stack.length := by
  induction code generalizing stack with
  | nil => rw [stackHistory, List.scanl_nil, List.map_singleton]
  | cons i code ih =>
    obtain ⟨next, hstep, hrest⟩ := execute_cons_eq_ok.mp h
    rw [stackHistory, hstep, List.map_cons, ih hrest, length_of_step hstep, List.scanl_cons]

/-- No subtraction stops at zero: the computed length in front of a call is at least the number of
its operands. -/
theorem count_le_depth {before after : List (Instruction n)} {op : Opcode} {count : Nat}
    (h : execute args (before ++ call op count :: after) stack = .ok final) :
    count ≤ before.foldl depthAfter stack.length := by
  induction before generalizing stack with
  | nil =>
    obtain ⟨next, hstep, -⟩ := execute_cons_eq_ok.mp h
    exact count_le_of_step hstep
  | cons i before ih =>
    obtain ⟨next, hstep, hrest⟩ := execute_cons_eq_ok.mp h
    rw [List.foldl_cons, ← length_of_step hstep]
    exact ih hrest

theorem scanl_eq_cons (depth : Nat) (code : List (Instruction n)) :
    code.scanl depthAfter depth = depth :: (code.scanl depthAfter depth).tail := by
  cases code with
  | nil => rw [List.scanl_nil, List.tail_cons]
  | cons i code => rw [List.scanl_cons, List.tail_cons]

theorem maxDepthFrom_eq_foldl (depth greatest : Nat) (code : List (Instruction n)) :
    maxDepthFrom depth greatest code = (code.scanl depthAfter depth).tail.foldl max greatest := by
  induction code generalizing depth greatest with
  | nil => rw [maxDepthFrom, List.scanl_nil, List.tail_cons, List.foldl_nil]
  | cons i code ih =>
    have hmax : (if greatest < i.depthAfter depth then i.depthAfter depth else greatest) =
        max greatest (i.depthAfter depth) := by
      split_ifs <;> omega
    rw [maxDepthFrom, hmax, ih, List.scanl_cons, List.tail_cons, scanl_eq_cons, List.foldl_cons,
      List.tail_cons]

end Instruction

namespace Program

def stackHistory (p : Program) (args : List Number) : List (List Number) :=
  if h : p.arity = args.length then
    Instruction.stackHistory (fun slot => args.get (slot.cast h)) p.code []
  else []

def stackLengths (p : Program) (args : List Number) : List Nat :=
  (p.stackHistory args).map List.length

/-- The last of the stacks is what the call is finished with. -/
theorem call_eq_finish {p : Program} {args : List Number} {stack : List Number}
    (hargs : args.length = p.arity) (h : (p.stackHistory args)[p.code.length]? = some stack) :
    p.call args = finish stack := by
  rw [stackHistory, dif_pos hargs.symm, Instruction.getElem?_stackHistory (Nat.le_refl _),
    List.take_length] at h
  rw [call, dif_pos hargs, run]
  cases hrun : Instruction.execute (fun slot => args.get (slot.cast hargs.symm)) p.code [] with
  | ok final =>
    rw [hrun] at h
    rw [Option.some.inj h]
  | error e =>
    rw [hrun] at h
    cases h

theorem max?_depths (p : Program) :
    (p.code.scanl Instruction.depthAfter 0).max? = some p.maxDepth := by
  rw [maxDepth, Instruction.maxDepthFrom_eq_foldl, Instruction.scanl_eq_cons, List.max?_cons',
    List.tail_cons]

end Program

namespace Expr

variable {constants : Constants} {names : List String} {t : Expr}

theorem length_code {is : List (Instruction names.length)}
    (h : code constants names t = .ok is) : is.length = t.complexity := by
  induction t generalizing is with
  | num value =>
    obtain rfl : [.constant value] = is := by simpa [code] using h
    rfl
  | var name =>
    obtain ⟨i, -, rfl⟩ := code_var_eq_ok.mp h
    rfl
  | binary op a b iha ihb =>
    obtain ⟨left, right, hl, hr, rfl⟩ := code_binary_eq_ok.mp h
    simp only [List.length_append, List.length_singleton, iha hl, ihb hr, complexity]
    omega
  | apply f a iha =>
    obtain ⟨operand, ho, rfl⟩ := code_apply_eq_ok.mp h
    simp only [List.length_append, List.length_singleton, iha ho, complexity]
    omega
  | log base a ihb iha =>
    obtain ⟨left, right, hl, hr, rfl⟩ := code_log_eq_ok.mp h
    simp only [List.length_append, List.length_singleton, ihb hl, iha hr, complexity]
    omega
  | derivative a v order => simp [code] at h
  | integral a v order => simp [code] at h
  | limit a v destination side => simp [code] at h
  | tensor dims elements => simp [code] at h

theorem exists_execute_code {is : List (Instruction names.length)}
    (h : code constants names t = .ok is) (args : List Number) (hargs : args.length = names.length) :
    ∃ v, Instruction.execute (fun slot => args.get (slot.cast hargs.symm)) is [] = .ok [v] := by
  obtain ⟨v, -, hrun⟩ := execute_code h args hargs
  refine ⟨v, ?_⟩
  rw [← List.append_nil is, hrun, Instruction.execute]

/-- Any arguments will do for the run, since the computed length does not depend on them. -/
theorem count_le_of_code {before after : List (Instruction names.length)} {op : Opcode} {count : Nat}
    (h : code constants names t = .ok (before ++ .call op count :: after)) :
    count ≤ before.foldl Instruction.depthAfter 0 := by
  obtain ⟨v, hrun⟩ :=
    exists_execute_code h (List.replicate names.length 0) List.length_replicate
  exact Instruction.count_le_depth hrun

/-- A compiled program has an instruction for each node of its tree, every operation is told to take
the operands it has, and the slots read are places of names of the tree. Computed from the
instructions alone, the stack length in front of a call is at least the number of its operands.
Every call ends with the answer as the only value on the stack, which has the computed lengths
throughout, and the greatest of them is the depth of the program. -/
theorem stackLengths_compileWith {p : Program} (h : t.compileWith constants names = .ok p) :
    p.code.length = t.complexity ∧
      (∀ op count, .call op count ∈ p.code → count = op.arity) ∧
      (∀ slot ∈ p.slotsRead, slot < p.arity ∧
        ∃ name, names[slot]? = some name ∧ var name ∈ t.preorder) ∧
      (∀ before op count after, p.code = before ++ .call op count :: after →
        count ≤ before.foldl Instruction.depthAfter 0) ∧
      ∀ args, args.length = p.arity →
        (∃ v, p.call args = .ok v ∧ (p.stackHistory args).getLast? = some [v]) ∧
          p.stackLengths args = p.code.scanl Instruction.depthAfter 0 ∧
          (p.stackLengths args).max? = some p.maxDepth := by
  have hslots := fun slot => mem_slotsRead (k := slot) h
  obtain ⟨-, is, hcode, rfl⟩ := compileWith_eq_ok.mp h
  refine ⟨length_code hcode, fun op count => count_of_mem_code hcode, ?_, ?_, ?_⟩
  · intro k hk
    obtain ⟨name, hname, slot, hslot, rfl⟩ := (hslots k).mp hk
    exact ⟨slot.isLt, name, getElem?_of_slot? hslot, hname⟩
  · intro before op count after hsplit
    exact count_le_of_code (hcode.trans (congrArg Except.ok hsplit))
  · intro args hargs
    obtain ⟨v, hrun⟩ := exists_execute_code hcode args hargs
    have hhistory : Program.stackHistory ⟨names.length, is⟩ args =
        Instruction.stackHistory (fun slot => args.get (slot.cast hargs.symm)) is [] :=
      dif_pos hargs.symm
    have hlengths : Program.stackLengths ⟨names.length, is⟩ args =
        is.scanl Instruction.depthAfter 0 := by
      rw [Program.stackLengths, hhistory]
      exact Instruction.map_length_stackHistory hrun
    have hlast : (Program.stackHistory ⟨names.length, is⟩ args)[is.length]? = some [v] := by
      rw [hhistory, Instruction.getElem?_stackHistory (Nat.le_refl _), List.take_length, hrun]
      rfl
    have hcount : (Program.stackHistory ⟨names.length, is⟩ args).length = is.length + 1 := by
      simpa [Program.stackLengths] using congrArg List.length hlengths
    refine ⟨⟨v, Program.call_eq_finish hargs hlast, ?_⟩, hlengths,
      hlengths ▸ Program.max?_depths ⟨names.length, is⟩⟩
    rw [List.getLast?_eq_getElem?, hcount, Nat.add_sub_cancel, hlast]

/-- In a tree that leans to the right all operands wait for the last one. -/
theorem stackLengths_compileWith_leaning :
    let t := sum (var "y") (product (var "x") (power (var "y") (int 3)))
    ∃ p, t.compileWith .standard ["x", "y"] = .ok p ∧ p.code.length = 7 ∧
      p.stackLengths [2, 5] = [0, 1, 2, 3, 4, 3, 2, 1] ∧ p.maxDepth = 4 := by
  intro t
  have hcompile : t.compileWith .standard ["x", "y"] =
      .ok ⟨2, [.argument 1, .argument 0, .argument 1, .constant 3, .call (.binary .power) 2,
        .call (.binary .product) 2, .call (.binary .sum) 2]⟩ := rfl
  obtain ⟨hlength, -, -, -, hcall⟩ := stackLengths_compileWith hcompile
  obtain ⟨-, hlengths, hmax⟩ := hcall [2, 5] rfl
  rw [hlengths] at hmax
  exact ⟨_, hcompile, hlength, hlengths, (Option.some.inj hmax).symm⟩

end Expr

end SymbolicAlgebra
