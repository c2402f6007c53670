import SymbolicAlgebra.Proofs.Expr.Containment
import SymbolicAlgebra.Proofs.Expr.Substitution

/-!
# Simultaneous and successive substitution

Trees for variables compose: to replace variables twice is to replace them once by trees in which
variables are replaced. A substitution for one variable and a simultaneous substitution both put
assigned trees in the place of variables, and so do substitutions one after another, as long as no
tree that is put in contains a variable that is still to be replaced.
-/

namespace SymbolicAlgebra.Expr

section Composition

variable {σ τ : String → Expr} {t : Expr}

theorem replaceVariables_replaceVariables (σ τ : String → Expr) (t : Expr) :
    (t.replaceVariables σ).replaceVariables τ =
      t.replaceVariables fun name => (σ name).replaceVariables τ := by
  induction t with
  | num value => rfl
  | var name => rfl
  | binary op a b iha ihb => simp only [replaceVariables_binary, iha, ihb]
  | apply f a iha => simp only [replaceVariables_apply, iha]
  | log base a ihb iha => simp only [replaceVariables_log, ihb, iha]
  | derivative a v order iha ihv => simp only [replaceVariables_derivative, iha, ihv]
  | integral a v order iha ihv => simp only [replaceVariables_integral, iha, ihv]
  | limit a v destination side iha ihv ihd => simp only [replaceVariables_limit, iha, ihv, ihd]
  | tensor dims elements ih =>
    simp only [replaceVariables_tensor, List.map_map]
    congr 1
    exact List.map_congr_left ih

/-- A tree stays as it is if each of its variables stands for itself. -/
theorem replaceVariables_eq_self (h : ∀ name, var name ∈ t.preorder → σ name = var name) :
    t.replaceVariables σ = t := by
  refine rewrite_eq_of_forall fun u hu => ?_
  cases u with
  | var name => exact h name hu
  | _ => rfl

end Composition

/-- The tree that the first entry for a variable assigns to it. Without an entry the variable stands
for itself. -/
def assigned (entries : List (String × Expr)) (name : String) : Expr :=
  (entries.lookup name).getD (var name)

section Entries

variable {entries order : List (String × Expr)} {name : String}

@[simp] theorem assigned_nil (name : String) : assigned [] name = var name := rfl

theorem assigned_cons (entry : String × Expr) (entries : List (String × Expr)) (name : String) :
    assigned (entry :: entries) name =
      if name = entry.1 then entry.2 else assigned entries name := by
  rw [assigned, List.lookup_cons]
  split_ifs with hname
  · simp [hname]
  · have hname' : (name == entry.1) = false := beq_eq_false_iff_ne.mpr hname
    rw [hname', assigned]

theorem assigned_self (x : String) (v : Expr) (entries : List (String × Expr)) :
    assigned ((x, v) :: entries) x = v := by
  rw [assigned_cons, if_pos rfl]

theorem assigned_of_ne {x : String} (h : name ≠ x) (v : Expr) (entries : List (String × Expr)) :
    assigned ((x, v) :: entries) name = assigned entries name := by
  rw [assigned_cons, if_neg h]

theorem assigned_of_notMem (h : name ∉ entries.map Prod.fst) : assigned entries name = var name := by
  have hnone : entries.lookup name = none := by
    rw [List.lookup_eq_none_iff]
    intro entry hentry
    exact bne_iff_ne.mpr fun heq => h (List.mem_map.mpr ⟨entry, hentry, heq.symm⟩)
  rw [assigned, hnone, Option.getD_none]

/-- For distinct variables the order of the entries does not matter. -/
theorem assigned_eq_of_perm (hperm : order.Perm entries) (hnames : (entries.map Prod.fst).Nodup) :
    assigned order = assigned entries := by
  induction hperm with
  | nil => rfl
  | cons entry _ ih =>
    funext name
    rw [assigned_cons, assigned_cons, ih (List.nodup_cons.mp hnames).2]
  | swap entry entry' entries =>
    have hne : entry.1 ≠ entry'.1 := by
      intro heq
      simp [heq] at hnames
    funext name
    simp only [assigned_cons]
    split_ifs with hfirst hsecond
    · exact absurd (hfirst.symm.trans hsecond) hne.symm
    all_goals rfl
  | trans _ h ih ih' =>
    rw [ih ((h.map Prod.fst).nodup_iff.mpr hnames), ih' hnames]

/-- What contains none of the variables is left alone. -/
theorem replaceVariables_assigned_of_not_contains {t : Expr}
    (h : ∀ name ∈ entries.map Prod.fst, t.contains (var name) = false) :
    t.replaceVariables (assigned entries) = t := by
  refine replaceVariables_eq_self fun name hname => assigned_of_notMem fun hmem => ?_
  have hcontains := contains_var.mpr hname
  rw [h name hmem] at hcontains
  cases hcontains

end Entries

theorem substitute_var (t : Expr) (x : String) (v : Expr) :
    t.substitute (var x) v = t.replaceVariables (assigned [(x, v)]) := by
  unfold substitute replaceVariables
  congr 1
  funext node
  cases node with
  | var name =>
    rw [replaceVariable, assigned_cons]
    exact if_congr (by rw [beq_var_iff, var.injEq]) rfl rfl
  | _ => rfl

theorem substituteAll_eq_assigned {entries : List (String × Expr)}
    (hnames : (entries.map Prod.fst).Nodup) (t : Expr) :
    t.substituteAll (entries.map (Prod.map var id)) = t.replaceVariables (assigned entries) := by
  have hzip : ((entries.map Prod.fst).map var).zip (entries.map Prod.snd) =
      entries.map (Prod.map var id) := by
    rw [List.map_map, List.zip_map']
    rfl
  have hentries : (entries.map Prod.fst).zip (entries.map Prod.snd) = entries := by
    rw [List.zip_map', List.map_id']
  rw [← hzip, substituteAll_eq_replaceVariables hnames, hentries]
  rfl

/-- Substitutes the entries one after another. -/
def substituteEach (t : Expr) (entries : List (String × Expr)) : Expr :=
  entries.foldl (fun u entry => u.substitute (var entry.1) entry.2) t

/-- The first substitution puts in what the later ones leave alone, so it is the first entry for a
variable that counts. -/
theorem substituteEach_eq_assigned {entries : List (String × Expr)}
    (h : ∀ entry ∈ entries, ∀ name ∈ entries.map Prod.fst, entry.2.contains (var name) = false)
    (t : Expr) : t.substituteEach entries = t.replaceVariables (assigned entries) := by
  induction entries generalizing t with
  | nil => exact (replaceVariables_eq_self fun name _ => rfl).symm
  | cons entry entries ih =>
    have hrest : ∀ e ∈ entries, ∀ name ∈ entries.map Prod.fst,
        e.2.contains (var name) = false := fun e he name hname =>
      h e (List.mem_cons_of_mem entry he) name (List.mem_cons_of_mem entry.1 hname)
    have hvalue : entry.2.replaceVariables (assigned entries) = entry.2 :=
      replaceVariables_assigned_of_not_contains fun name hname =>
        h entry List.mem_cons_self name (List.mem_cons_of_mem entry.1 hname)
    calc t.substituteEach (entry :: entries)
        = (t.substitute (var entry.1) entry.2).substituteEach entries := rfl
      _ = (t.replaceVariables (assigned [entry])).replaceVariables (assigned entries) := by
        rw [ih hrest, substitute_var]
      _ = t.replaceVariables (assigned (entry :: entries)) := by
        rw [replaceVariables_replaceVariables]
        congr 1
        funext name
        rw [assigned_cons, assigned_cons]
        split_ifs
        · exact hvalue
        · rfl

/-- Two substitutions change places if the second one is also made in the tree that the first one puts
in. -/
theorem substitute_substitute {x y : String} (hne : x ≠ y) {b : Expr}
    (hb : b.contains (var x) = false) (t a : Expr) :
    (t.substitute (var x) a).substitute (var y) b =
      (t.substitute (var y) b).substitute (var x) (a.substitute (var y) b) := by
  have hstays : b.replaceVariables (assigned [(x, a.substitute (var y) b)]) = b := by
    rw [← substitute_var, substitute_of_not_contains hb]
  rw [substitute_var t x, substitute_var _ y, substitute_var t y, substitute_var _ x,
    replaceVariables_replaceVariables, replaceVariables_replaceVariables]
  congr 1
  funext name
  by_cases hx : name = x
  · rw [hx, assigned_self, assigned_of_ne hne, assigned_nil, replaceVariables_var, assigned_self,
      substitute_var]
  · by_cases hy : name = y
    · rw [hy, assigned_self, assigned_of_ne hne.symm, assigned_nil, replaceVariables_var,
        assigned_self, hstays]
    · rw [assigned_of_ne hx, assigned_of_ne hy, assigned_nil, replaceVariables_var,
        replaceVariables_var, assigned_of_ne hx, assigned_of_ne hy]

/-- If no tree that is put in contains one of the variables that are replaced, these may be replaced
all at once or one after another, in any order. In general the second of two substitutions can go
first if it is also made in the tree that the other one puts in. -/
theorem simultaneous_eq_successive (t : Expr) :
    (∀ entries order : List (String × Expr), (entries.map Prod.fst).Nodup →
        (∀ entry ∈ entries, ∀ name ∈ entries.map Prod.fst,
          entry.2.contains (var name) = false) →
        order.Perm entries →
        t.substituteAll (entries.map (Prod.map var id)) = t.substituteEach order) ∧
      ∀ (x y : String) (a b : Expr), x ≠ y → b.contains (var x) = false →
        (t.substitute (var x) a).substitute (var y) b =
          (t.substitute (var y) b).substitute (var x) (a.substitute (var y) b) := by
  refine ⟨fun entries order hnames hvalues hperm => ?_, fun x y a b hne hb =>
    substitute_substitute hne hb t a⟩
  have horder : ∀ entry ∈ order, ∀ name ∈ order.map Prod.fst,
      entry.2.contains (var name) = false := fun entry hentry name hname =>
    hvalues entry (hperm.mem_iff.mp hentry) name ((hperm.map Prod.fst).mem_iff.mp hname)
  rw [substituteAll_eq_assigned hnames, substituteEach_eq_assigned horder,
    assigned_eq_of_perm hperm hnames]

/-- `x * pi ^ x` with `z + 1` for `x` and `cos z` for the constant `pi`, and with `x + pi` for `x`,
which contains both variables. -/
theorem simultaneous_eq_successive_hidden_constant :
    let t := product (var "x") (power (var "pi") (var "x"))
    let a := sum (var "z") (int 1)
    let b := cos (var "z")
    (a.contains (var "x") = false ∧ a.contains (var "pi") = false ∧
        b.contains (var "x") = false ∧ b.contains (var "pi") = false ∧
        t.substituteEach [("pi", b), ("x", a)] = product a (power b a) ∧
        t.substituteAll [(var "x", a), (var "pi", b)] = t.substituteEach [("pi", b), ("x", a)]) ∧
      (t.substitute (var "x") (sum (var "x") (var "pi"))).substitute (var "pi") b =
        (t.substitute (var "pi") b).substitute (var "x")
          ((sum (var "x") (var "pi")).substitute (var "pi") b) := by
  intro t a b
  have hvalues : ∀ entry ∈ [("x", a), ("pi", b)], ∀ name ∈ ["x", "pi"],
      entry.2.contains (var name) = false := by
    simp only [List.forall_mem_cons, List.not_mem_nil, false_implies, implies_true, and_true]
    exact ⟨⟨rfl, rfl⟩, rfl, rfl⟩
  obtain ⟨hall, hexchange⟩ := simultaneous_eq_successive t
  exact ⟨⟨rfl, rfl, rfl, rfl, rfl,
    hall [("x", a), ("pi", b)] [("pi", b), ("x", a)] (by decide) hvalues (.swap _ _ _)⟩,
    hexchange "x" "pi" (sum (var "x") (var "pi")) b (by decide) rfl⟩

end SymbolicAlgebra.Expr
