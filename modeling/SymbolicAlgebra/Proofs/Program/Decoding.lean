import SymbolicAlgebra.Proofs.Expr.Substitution
import SymbolicAlgebra.Proofs.Program.Slots

/-!
# A program determines its tree

The stack machine can build trees instead of computing values: a call makes a node of the trees on
top of the stack. Run this way, the instructions of a tree leave the tree itself, with the literals
of the constants in it. Instructions that are the same leave same trees, and same trees have the
same instructions, so two programs are the same exactly if their trees are.
-/

namespace SymbolicAlgebra

/-- The equality of instructions, which looks at a constant through the equality of numbers and at
an argument through its place. -/
def Instruction.same {n m : Nat} : Instruction n → Instruction m → Bool
  | constant a, constant b => a == b
  | argument slot, argument slot' => slot.val = slot'.val
  | call op count, call op' count' => op = op' && count = count'
  | _, _ => false

theorem Instruction.same_refl {n : Nat} (i : Instruction n) : i.same i = true := by
  cases i <;> simp [same]

instance {n : Nat} : Std.Refl fun i j : Instruction n => i.same j = true := ⟨Instruction.same_refl⟩

/-- The node of an operation over as many trees as it has operands. -/
def Opcode.node? : Opcode → List Expr → Option Expr
  | binary op, [a, b] => some (.binary op a b)
  | apply f, [a] => some (.apply f a)
  | log, [base, a] => some (.log base a)
  | _, _ => none

/-- The literal of a constant that is not declared; any other variable stays. -/
def Constants.literal (constants : Constants) (names : List String) (name : String) : Expr :=
  if name ∈ names then .var name else ((constants.value? name).map Expr.num).getD (.var name)

namespace Expr

/-- The tree with the literals of all constants that are not declared. -/
def withLiterals (constants : Constants) (names : List String) (t : Expr) : Expr :=
  t.replaceVariables (constants.literal names)

variable {constants : Constants} {names : List String}

/-- A variable that compiles is declared or has a constant that takes its place. -/
theorem variableCode_cases {name : String} {i : Instruction names.length}
    (h : variableCode constants names name = .ok i) :
    (∃ slot, names.get slot = name ∧ i = .argument slot ∧ constants.literal names name = var name) ∨
      ∃ value, i = .constant value ∧ constants.literal names name = num value := by
  unfold variableCode at h
  rw [Constants.literal]
  cases hslot : slot? names name with
  | some slot =>
    rw [hslot] at h
    cases h
    have hname : names.get slot = name := by
      simpa [List.getElem?_eq_getElem slot.isLt] using getElem?_of_slot? hslot
    have hmem : name ∈ names := isSome_slot?.mp (by rw [hslot, Option.isSome_some])
    exact .inl ⟨slot, hname, rfl, if_pos hmem⟩
  | none =>
    rw [hslot] at h
    have hmem : name ∉ names := by
      rw [← isSome_slot?, hslot]
      exact Bool.false_ne_true
    cases hvalue : constants.value? name with
    | none => simp [hvalue] at h
    | some value =>
      rw [hvalue] at h
      cases h
      exact .inr ⟨value, rfl, if_neg hmem⟩

section Building

/-- A step of the machine on trees. -/
def build {names : List String} (stack : List Expr) : Instruction names.length → Option (List Expr)
  | .constant value => some (num value :: stack)
  | .argument slot => some (var (names.get slot) :: stack)
  | .call op count => (op.node? (stack.take count).reverse).map (· :: stack.drop count)

theorem foldlM_build_call {op : Opcode} {t : Expr} (operands stack : List Expr)
    (rest : List (Instruction names.length)) (h : op.node? operands = some t) :
    (.call op operands.length :: rest).foldlM build (operands.reverse ++ stack) =
      rest.foldlM build (t :: stack) := by
  have htake : (operands.reverse ++ stack).take operands.length = operands.reverse :=
    List.take_left' operands.length_reverse
  have hdrop : (operands.reverse ++ stack).drop operands.length = stack :=
    List.drop_left' operands.length_reverse
  rw [List.foldlM_cons, build, htake, hdrop, List.reverse_reverse, h]
  rfl

theorem build_of_variableCode {name : String} {i : Instruction names.length}
    (h : variableCode constants names name = .ok i) (stack : List Expr) :
    build stack i = some (constants.literal names name :: stack) := by
  rcases variableCode_cases h with ⟨slot, hname, rfl, hliteral⟩ | ⟨value, rfl, hliteral⟩
  · rw [hliteral, build, hname]
  · rw [hliteral, build]

/-- The instructions of a tree push the tree. The stack and the rest of the code are general, since
every subtree is compiled in the middle of its parent. -/
theorem foldlM_build_code {t : Expr} {is : List (Instruction names.length)}
    (h : code constants names t = .ok is) (stack : List Expr)
    (rest : List (Instruction names.length)) :
    (is ++ rest).foldlM build stack = rest.foldlM build (t.withLiterals constants names :: stack) := by
  induction t generalizing is stack rest with
  | num value =>
    obtain rfl : [.constant value] = is := by simpa [code] using h
    rfl
  | var name =>
    obtain ⟨i, hi, rfl⟩ := code_var_eq_ok.mp h
    rw [List.singleton_append, List.foldlM_cons, build_of_variableCode hi]
    rfl
  | binary op a b iha ihb =>
    obtain ⟨left, right, hl, hr, rfl⟩ := code_binary_eq_ok.mp h
    rw [List.append_assoc, List.append_assoc, iha hl, ihb hr]
    exact foldlM_build_call
      [a.withLiterals constants names, b.withLiterals constants names] stack rest rfl
  | apply f a iha =>
    obtain ⟨operand, ho, rfl⟩ := code_apply_eq_ok.mp h
    rw [List.append_assoc, iha ho]
    exact foldlM_build_call [a.withLiterals constants names] stack rest rfl
  | log base a ihb iha =>
    obtain ⟨left, right, hl, hr, rfl⟩ := code_log_eq_ok.mp h
    rw [List.append_assoc, List.append_assoc, ihb hl, iha hr]
    exact foldlM_build_call
      [base.withLiterals constants names, a.withLiterals constants names] stack rest rfl
  | derivative a v order => simp [code] at h
  | integral a v order => simp [code] at h
  | limit a v destination side => simp [code] at h
  | tensor dims elements => simp [code] at h

abbrev SameTrees : List Expr → List Expr → Prop := List.Forall₂ fun t u : Expr => t.same u = true

theorem node?_same {op : Opcode} {operands operands' : List Expr} {t : Expr}
    (h : SameTrees operands operands') (hnode : op.node? operands = some t) :
    ∃ u, op.node? operands' = some u ∧ t.same u = true := by
  unfold Opcode.node? at hnode
  split at hnode
  · obtain rfl := Option.some.inj hnode
    obtain _ | ⟨ha, _ | ⟨hb, _ | _⟩⟩ := h
    exact ⟨_, rfl, by simp [same, ha, hb]⟩
  · obtain rfl := Option.some.inj hnode
    obtain _ | ⟨ha, _ | _⟩ := h
    exact ⟨_, rfl, by simp [same, ha]⟩
  · obtain rfl := Option.some.inj hnode
    obtain _ | ⟨hbase, _ | ⟨ha, _ | _⟩⟩ := h
    exact ⟨_, rfl, by simp [same, hbase, ha]⟩
  · cases hnode

theorem build_same {stack stack' built : List Expr} {i j : Instruction names.length}
    (hstack : SameTrees stack stack') (hij : i.same j = true) (h : build stack i = some built) :
    ∃ built', build stack' j = some built' ∧ SameTrees built built' := by
  cases i with
  | constant value =>
    cases j <;> simp only [Instruction.same, Bool.false_eq_true] at hij
    cases h
    exact ⟨_, rfl, .cons hij hstack⟩
  | argument slot =>
    cases j <;> simp only [Instruction.same, Bool.false_eq_true, decide_eq_true_eq] at hij
    cases h
    obtain rfl := Fin.ext hij
    exact ⟨_, rfl, .cons (Expr.same_refl _) hstack⟩
  | call op count =>
    cases j <;>
      simp only [Instruction.same, Bool.false_eq_true, Bool.and_eq_true, decide_eq_true_eq] at hij
    obtain ⟨rfl, rfl⟩ := hij
    obtain ⟨t, ht, rfl⟩ := Option.map_eq_some_iff.mp h
    obtain ⟨u, hu, htu⟩ := node?_same (List.rel_reverse (List.forall₂_take count hstack)) ht
    refine ⟨u :: stack'.drop count, ?_, .cons htu (List.forall₂_drop count hstack)⟩
    rw [build, hu, Option.map_some]

theorem foldlM_build_same {stack stack' built : List Expr}
    {is js : List (Instruction names.length)} (hstack : SameTrees stack stack')
    (hcode : List.Forall₂ (fun i j => i.same j = true) is js)
    (h : is.foldlM build stack = some built) :
    ∃ built', js.foldlM build stack' = some built' ∧ SameTrees built built' := by
  induction hcode generalizing stack stack' with
  | nil =>
    cases h
    exact ⟨stack', rfl, hstack⟩
  | cons hij _ ih =>
    rw [List.foldlM_cons] at h
    obtain ⟨mid, hmid, h⟩ := Option.bind_eq_some_iff.mp h
    obtain ⟨mid', hmid', hmids⟩ := build_same hstack hij hmid
    obtain ⟨built', hbuilt', hbuilts⟩ := ih hmids h
    refine ⟨built', ?_, hbuilts⟩
    rw [List.foldlM_cons, hmid']
    exact hbuilt'

end Building

section Compiling

/-- A constant that is not declared has the instruction of its literal. -/
theorem code_withLiterals {t : Expr} {is : List (Instruction names.length)}
    (h : code constants names t = .ok is) :
    code constants names (t.withLiterals constants names) = .ok is := by
  induction t generalizing is with
  | num value => exact h
  | var name =>
    obtain ⟨i, hi, rfl⟩ := code_var_eq_ok.mp h
    rw [withLiterals, replaceVariables_var]
    rcases variableCode_cases hi with ⟨slot, -, rfl, hliteral⟩ | ⟨value, rfl, hliteral⟩
    · rw [hliteral]
      exact h
    · rw [hliteral, code]
  | binary op a b iha ihb =>
    obtain ⟨left, right, hl, hr, rfl⟩ := code_binary_eq_ok.mp h
    exact code_binary_eq_ok.mpr ⟨left, right, iha hl, ihb hr, rfl⟩
  | apply f a iha =>
    obtain ⟨operand, ho, rfl⟩ := code_apply_eq_ok.mp h
    exact code_apply_eq_ok.mpr ⟨operand, iha ho, rfl⟩
  | log base a ihb iha =>
    obtain ⟨left, right, hl, hr, rfl⟩ := code_log_eq_ok.mp h
    exact code_log_eq_ok.mpr ⟨left, right, ihb hl, iha hr, rfl⟩
  | derivative a v order => simp [code] at h
  | integral a v order => simp [code] at h
  | limit a v destination side => simp [code] at h
  | tensor dims elements => simp [code] at h

abbrev SameCode {n m : Nat} : List (Instruction n) → List (Instruction m) → Prop :=
  List.Forall₂ fun i j => i.same j = true

theorem code_same {t u : Expr} {is : List (Instruction names.length)} (htu : t.same u = true)
    (h : code constants names t = .ok is) :
    ∃ js, code constants names u = .ok js ∧ SameCode is js := by
  induction t generalizing u is with
  | num value =>
    cases u <;> simp only [same, Bool.false_eq_true] at htu
    obtain rfl : [.constant value] = is := by simpa [code] using h
    exact ⟨[.constant _], by rw [code], .cons htu .nil⟩
  | var name =>
    cases u <;> simp only [same, Bool.false_eq_true, beq_iff_eq] at htu
    obtain rfl := htu
    exact ⟨is, h, List.forall₂_refl is⟩
  | binary op a b iha ihb =>
    cases u <;> simp only [same, Bool.false_eq_true, Bool.and_eq_true, decide_eq_true_eq] at htu
    obtain ⟨left, right, hl, hr, rfl⟩ := code_binary_eq_ok.mp h
    obtain ⟨⟨rfl, ha⟩, hb⟩ := htu
    obtain ⟨left', hl', hleft⟩ := iha ha hl
    obtain ⟨right', hr', hright⟩ := ihb hb hr
    exact ⟨_, code_binary_eq_ok.mpr ⟨left', right', hl', hr', rfl⟩,
      List.rel_append (List.rel_append hleft hright) (List.forall₂_refl _)⟩
  | apply f a iha =>
    cases u <;> simp only [same, Bool.false_eq_true, Bool.and_eq_true, decide_eq_true_eq] at htu
    obtain ⟨operand, ho, rfl⟩ := code_apply_eq_ok.mp h
    obtain ⟨rfl, ha⟩ := htu
    obtain ⟨operand', ho', hoperand⟩ := iha ha ho
    exact ⟨_, code_apply_eq_ok.mpr ⟨operand', ho', rfl⟩,
      List.rel_append hoperand (List.forall₂_refl _)⟩
  | log base a ihb iha =>
    cases u <;> simp only [same, Bool.false_eq_true, Bool.and_eq_true] at htu
    obtain ⟨left, right, hl, hr, rfl⟩ := code_log_eq_ok.mp h
    obtain ⟨left', hl', hleft⟩ := ihb htu.1 hl
    obtain ⟨right', hr', hright⟩ := iha htu.2 hr
    exact ⟨_, code_log_eq_ok.mpr ⟨left', right', hl', hr', rfl⟩,
      List.rel_append (List.rel_append hleft hright) (List.forall₂_refl _)⟩
  | derivative a v order => simp [code] at h
  | integral a v order => simp [code] at h
  | limit a v destination side => simp [code] at h
  | tensor dims elements => simp [code] at h

theorem code_same_iff {t u : Expr} {is js : List (Instruction names.length)}
    (ht : code constants names t = .ok is) (hu : code constants names u = .ok js) :
    SameCode is js ↔
      (t.withLiterals constants names).same (u.withLiterals constants names) = true := by
  constructor
  · intro h
    have hbuilt := foldlM_build_code ht [] []
    have hbuilt' := foldlM_build_code hu [] []
    rw [List.append_nil] at hbuilt hbuilt'
    obtain ⟨built, hjs, hsame⟩ := foldlM_build_same .nil h hbuilt
    obtain rfl := Option.some.inj (hbuilt'.symm.trans hjs)
    obtain _ | ⟨htu, -⟩ := hsame
    exact htu
  · intro h
    obtain ⟨js', hjs', hsame⟩ := code_same h (code_withLiterals ht)
    obtain rfl := Except.ok.inj (hjs'.symm.trans (code_withLiterals hu))
    exact hsame

/-- Two trees compile to the same instructions exactly if they are the same tree once the constants
that are not declared are written as literals. -/
theorem sameCode_iff_withLiterals {t u : Expr} {p q : Program}
    (hp : t.compileWith constants names = .ok p) (hq : u.compileWith constants names = .ok q) :
    List.Forall₂ (fun i j => i.same j = true) p.code q.code ↔
      (t.withLiterals constants names == u.withLiterals constants names) = true := by
  obtain ⟨-, is, his, rfl⟩ := compileWith_eq_ok.mp hp
  obtain ⟨-, js, hjs, rfl⟩ := compileWith_eq_ok.mp hq
  exact code_same_iff his hjs

/-- `e` is its literal, while the declared `pi` is not. -/
theorem sameCode_iff_withLiterals_hidden_constant :
    let names := ["x", "pi"]
    let euler := num (.real Binary64.euler)
    ∃ p q r, (quotient (var "pi") (var "e")).compileWith .standard names = .ok p ∧
      (quotient (var "pi") euler).compileWith .standard names = .ok q ∧
      (quotient (num (.real Binary64.pi)) euler).compileWith .standard names = .ok r ∧
      SameCode p.code q.code ∧ ¬ SameCode p.code r.code := by
  intro names euler
  have hp : (quotient (var "pi") (var "e")).compileWith .standard names =
      .ok ⟨2, [.argument 1, .constant (.real Binary64.euler), .call (.binary .quotient) 2]⟩ := rfl
  have hq : (quotient (var "pi") euler).compileWith .standard names =
      .ok ⟨2, [.argument 1, .constant (.real Binary64.euler), .call (.binary .quotient) 2]⟩ := rfl
  have hr : (quotient (num (.real Binary64.pi)) euler).compileWith .standard names =
      .ok ⟨2, [.constant (.real Binary64.pi), .constant (.real Binary64.euler),
        .call (.binary .quotient) 2]⟩ := rfl
  refine ⟨_, _, _, hp, hq, hr, (sameCode_iff_withLiterals hp hq).mpr (same_refl _), fun h => ?_⟩
  exact Bool.false_ne_true ((sameCode_iff_withLiterals hp hr).mp h)

end Compiling

end Expr

end SymbolicAlgebra
