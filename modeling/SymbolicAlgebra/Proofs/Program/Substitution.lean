import SymbolicAlgebra.Proofs.Expr.Substitution
import SymbolicAlgebra.Proofs.Program.Compilability

/-!
# Calling is substituting and evaluating

The value of a tree with trees in the place of its variables is its value over the values of those
trees. So a call with the values of some trees gives what the evaluation gives after these trees are
put in for the declared names. A declared name hides a constant in both, and a constant in a tree
that is put in is not hidden in either.
-/

namespace SymbolicAlgebra.Expr

theorem valueIn_replaceVariables (σ : String → Expr) (env : Environment) (t : Expr) :
    (t.replaceVariables σ).valueIn env = t.valueIn fun name => (σ name).valueIn env := by
  induction t with
  | num value => rfl
  | var name => rfl
  | binary op a b iha ihb => simp only [replaceVariables_binary, valueIn, iha, ihb]
  | apply f a iha => simp only [replaceVariables_apply, valueIn, iha]
  | log base a ihb iha => simp only [replaceVariables_log, valueIn, ihb, iha]
  | derivative a v order => rfl
  | integral a v order => rfl
  | limit a v destination side => rfl
  | tensor dims elements => rw [replaceVariables_tensor, valueIn, valueIn]

theorem firstRepeated_eq_none {before names : List String} :
    firstRepeated before names = none ↔ names.Nodup ∧ ∀ name ∈ names, name ∉ before := by
  induction names generalizing before with
  | nil => simp [firstRepeated]
  | cons x names ih =>
    rw [firstRepeated]
    split_ifs with hx
    · simp only [List.contains_iff_mem] at hx
      simp [hx]
    · simp only [List.contains_iff_mem] at hx
      simp only [ih, List.nodup_cons, List.mem_cons, not_or, forall_and]
      grind

/-- The values of the trees that are put in are the arguments. -/
theorem valueIn_lookup {values : List Expr} {args : List Number}
    (h : List.Forall₂ (fun v arg => v.eval = .ok arg) values args) (names : List String)
    (name : String) :
    (((names.zip values).lookup name).getD (var name)).valueIn (.ofArguments .standard [] []) =
      Environment.ofArguments .standard names args name := by
  induction h generalizing names with
  | nil => simp [Environment.ofArguments, valueIn]
  | @cons v arg values args hv _ ih =>
    cases names with
    | nil => rfl
    | cons x names =>
      rw [Environment.ofArguments, List.zip_cons_cons, List.zip_cons_cons, List.lookup_cons,
        List.lookup_cons]
      cases name == x with
      | true => exact eval_eq_ok.mp hv
      | false => exact ih names

/-- The call with the values of some trees and the evaluation with these trees put in for the
declared names end well, with one value. -/
theorem call_eq_eval_substituteAll {t : Expr} {names : List String} {p : Program}
    (h : t.compile names = .ok p) {values : List Expr} {args : List Number}
    (hlength : values.length = names.length)
    (hvalues : List.Forall₂ (fun v arg => v.eval = .ok arg) values args) :
    ∃ w, p.call args = .ok w ∧
      (t.substituteAll ((names.map var).zip values)).eval = .ok w := by
  obtain ⟨hrepeated, is, hcode, rfl⟩ := compileWith_eq_ok.mp h
  obtain ⟨hnames, -⟩ := firstRepeated_eq_none.mp hrepeated
  obtain ⟨w, hw, hcall⟩ := call_code hcode args (hvalues.length_eq.symm.trans hlength)
  refine ⟨w, hcall, eval_eq_ok.mpr ?_⟩
  rw [substituteAll_eq_replaceVariables hnames, valueIn_replaceVariables]
  simp only [valueIn_lookup hvalues]
  exact hw

/-- `pi / x` with `pi + 1` put in for `pi` and `e` for `x`. -/
theorem call_eq_eval_substituteAll_hidden_constant :
    let t := quotient (var "pi") (var "x")
    let values := [sum (var "pi") (int 1), var "e"]
    let args := [(Number.real Binary64.pi).add 1, .real Binary64.euler]
    ∃ p w, t.compile ["pi", "x"] = .ok p ∧
      List.Forall₂ (fun v arg => v.eval = .ok arg) values args ∧ p.call args = .ok w ∧
      (t.substituteAll [(var "pi", sum (var "pi") (int 1)), (var "x", var "e")]).eval = .ok w := by
  intro t values args
  have hcompile : t.compile ["pi", "x"] =
      .ok ⟨2, [.argument 0, .argument 1, .call (.binary .quotient) 2]⟩ := rfl
  have hvalues : List.Forall₂ (fun v arg => v.eval = .ok arg) values args :=
    .cons rfl (.cons rfl .nil)
  obtain ⟨w, hcall, heval⟩ := call_eq_eval_substituteAll hcompile rfl hvalues
  exact ⟨_, w, hcompile, hvalues, hcall, heval⟩

end SymbolicAlgebra.Expr
