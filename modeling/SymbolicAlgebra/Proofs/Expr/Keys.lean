import SymbolicAlgebra.Expr.Terms
import SymbolicAlgebra.Proofs.Expr.Congruence
import SymbolicAlgebra.Proofs.Expr.Marks

/-!
# Keys of terms

The key of a term at a sort level is the hash of a list of tokens: at `exact` of all that makes up
the tree, at `shape` of all but the literals and the number of elements of a tensor, at `loose` of the
free variables. These lists are what the levels compare: the tokens of the whole tree tell which tree
it is, those of the shape do so as soon as every tensor has as many elements as its dimensions say.
-/

namespace SymbolicAlgebra

/-- The kind of a node without what else it holds. -/
inductive NodeKind where
  | num | var | log | derivative | integral | limit | tensor
  | binary (op : Operator)
  | apply (f : Elementary)
  deriving DecidableEq

/-- What is hashed in one step. -/
inductive Token where
  | kind (kind : NodeKind)
  | tier (n : Nat)
  | integer (n : Int)
  | rational (q : Rat)
  | double (key : UInt64)
  | name (name : String)
  | count (n : Nat)
  | side (side : Side)
  deriving DecidableEq

namespace Token

/-- A list of numbers behind its length. -/
def counts (ns : List Nat) : List Token := count ns.length :: ns.map count

theorem counts_append_inj {ms ns : List Nat} {r r' : List Token}
    (h : counts ms ++ r = counts ns ++ r') : ms = ns ∧ r = r' := by
  rw [counts, counts, List.cons_append, List.cons_append, List.cons.injEq, count.injEq] at h
  obtain ⟨hlength, hrest⟩ := h
  obtain ⟨hmap, hr⟩ := List.append_inj hrest (by rw [List.length_map, List.length_map, hlength])
  exact ⟨List.map_injective_iff.mpr (fun _ _ => count.inj) hmap, hr⟩

end Token

namespace Number

/-- Doubles go in by their keys, which are those of the equality. -/
def tokens : Number → List Token
  | integer n => [.tier 0, .integer n]
  | rational q _ => [.tier 1, .rational q]
  | real x => [.tier 2, .double (Binary64.key x)]
  | complex z _ => [.tier 3, .double (Binary64.key z.re), .double (Binary64.key z.im)]

theorem tokens_append_inj {a b : Number} {r r' : List Token} (h : a.tokens ++ r = b.tokens ++ r') :
    (a == b) = true ∧ r = r' := by
  change a.same b = true ∧ r = r'
  cases a <;> cases b <;>
    simp_all [tokens, same, Binary64.same_iff, ComplexFloat.same_iff]

theorem tokens_eq_of_same {a b : Number} (h : (a == b) = true) : a.tokens = b.tokens := by
  change a.same b = true at h
  cases a <;> cases b <;>
    simp_all [tokens, same, Binary64.same_iff, ComplexFloat.same_iff]

end Number

namespace Expr

mutual

/-- The nodes from the root down, each with what it holds. -/
def exactTokens : Expr → List Token
  | num value => .kind .num :: value.tokens
  | var name => [.kind .var, .name name]
  | binary op a b => .kind (.binary op) :: (exactTokens a ++ exactTokens b)
  | apply f a => .kind (.apply f) :: exactTokens a
  | log base a => .kind .log :: (exactTokens base ++ exactTokens a)
  | derivative a v order =>
    .kind .derivative :: (exactTokens a ++ (exactTokens v ++ [.count order]))
  | integral a v order =>
    .kind .integral :: (exactTokens a ++ (exactTokens v ++ [.count order]))
  | limit a v destination side =>
    .kind .limit ::
      (exactTokens a ++ (exactTokens v ++ (exactTokens destination ++ [.side side])))
  | tensor dims elements =>
    .kind .tensor :: (Token.counts dims ++ .count elements.length :: exactTokensList elements)

def exactTokensList : List Expr → List Token
  | [] => []
  | t :: ts => exactTokens t ++ exactTokensList ts

end

mutual

/-- The nodes from the root down without literals. -/
def shapeTokens : Expr → List Token
  | num _ => [.kind .num]
  | var name => [.kind .var, .name name]
  | binary op a b => .kind (.binary op) :: (shapeTokens a ++ shapeTokens b)
  | apply f a => .kind (.apply f) :: shapeTokens a
  | log base a => .kind .log :: (shapeTokens base ++ shapeTokens a)
  | derivative a v order => .kind .derivative :: .count order :: (shapeTokens a ++ shapeTokens v)
  | integral a v order => .kind .integral :: .count order :: (shapeTokens a ++ shapeTokens v)
  | limit a v destination side =>
    .kind .limit :: .side side :: (shapeTokens a ++ (shapeTokens v ++ shapeTokens destination))
  | tensor dims elements => .kind .tensor :: (Token.counts dims ++ shapeTokensList elements)

def shapeTokensList : List Expr → List Token
  | [] => []
  | t :: ts => shapeTokens t ++ shapeTokensList ts

end

theorem exactTokensList_eq (ts : List Expr) :
    exactTokensList ts = (ts.map exactTokens).flatten := by
  induction ts with
  | nil => rfl
  | cons t ts ih => rw [exactTokensList, ih, List.map_cons, List.flatten_cons]

theorem shapeTokensList_eq (ts : List Expr) :
    shapeTokensList ts = (ts.map shapeTokens).flatten := by
  induction ts with
  | nil => rfl
  | cons t ts ih => rw [shapeTokensList, ih, List.map_cons, List.flatten_cons]

/-- As many lists as before, each of which can be told from what follows it. -/
theorem sameList_of_flatten {f : Expr → List Token} {g : Expr → Expr} {ts us : List Expr}
    {r r' : List Token} (hlength : ts.length = us.length)
    (h : (ts.map f).flatten ++ r = (us.map f).flatten ++ r')
    (hinj : ∀ t ∈ ts, ∀ u ∈ us, ∀ r r', f t ++ r = f u ++ r' →
      (g t).same (g u) = true ∧ r = r') :
    sameList (ts.map g) (us.map g) = true ∧ r = r' := by
  induction ts generalizing us with
  | nil =>
    cases us with
    | nil => exact ⟨rfl, h⟩
    | cons u us => cases hlength
  | cons t ts ih =>
    cases us with
    | nil => cases hlength
    | cons u us =>
      rw [List.map_cons, List.map_cons, List.flatten_cons, List.flatten_cons, List.append_assoc,
        List.append_assoc] at h
      obtain ⟨hhead, hrest⟩ := hinj t List.mem_cons_self u List.mem_cons_self _ _ h
      obtain ⟨htail, hr⟩ := ih (Nat.succ.inj hlength) hrest fun v hv w hw =>
        hinj v (List.mem_cons_of_mem t hv) w (List.mem_cons_of_mem u hw)
      exact ⟨Bool.and_eq_true_iff.mpr ⟨hhead, htail⟩, hr⟩

/-! ## The whole tree -/

/-- The tokens of a tree can be told from what follows them. -/
theorem exactTokens_append_inj {t u : Expr} {r r' : List Token}
    (h : t.exactTokens ++ r = u.exactTokens ++ r') : t.same u = true ∧ r = r' := by
  induction t generalizing u r r' with
  | tensor dims elements ih =>
    cases u <;> simp only [exactTokens, List.cons_append, List.append_assoc, List.cons.injEq,
      Token.kind.injEq, reduceCtorEq, false_and, true_and] at h
    obtain ⟨hdims, h⟩ := Token.counts_append_inj h
    rw [List.cons.injEq, Token.count.injEq, exactTokensList_eq, exactTokensList_eq] at h
    obtain ⟨helements, hr⟩ := sameList_of_flatten (g := id) h.1 h.2 fun e he e' _ r r' => ih e he
    rw [List.map_id, List.map_id] at helements
    simp [same, hdims, helements, hr]
  | _ =>
    -- The first token tells the kind of the node, so just the case of the same kind is left.
    cases u <;> simp only [exactTokens, List.cons_append, List.append_assoc, List.nil_append,
      List.cons.injEq, Token.kind.injEq, NodeKind.binary.injEq, NodeKind.apply.injEq,
      Token.name.injEq, reduceCtorEq, false_and, true_and] at h
    all_goals
      simp only [same, Bool.and_eq_true, decide_eq_true_eq, beq_iff_eq]
      grind [Number.tokens_append_inj]

theorem exactTokens_eq_of_same {t u : Expr} (h : t.same u = true) :
    t.exactTokens = u.exactTokens := by
  induction t generalizing u with
  | tensor dims elements ih =>
    cases u <;> simp only [same, Bool.false_eq_true, Bool.and_eq_true, decide_eq_true_eq] at h
    have helements := map_eq_of_sameList (fun e he u => ih e he) h.2
    have hlength := congrArg List.length helements
    rw [List.length_map, List.length_map] at hlength
    simp only [exactTokens, exactTokensList_eq, h.1, helements, hlength]
  | _ =>
    cases u <;> simp only [same, Bool.false_eq_true, Bool.and_eq_true, decide_eq_true_eq,
      beq_iff_eq] at h
    all_goals grind [exactTokens, Number.tokens_eq_of_same]

theorem exactTokens_eq_iff {t u : Expr} : t.exactTokens = u.exactTokens ↔ t.same u = true :=
  ⟨fun h => (exactTokens_append_inj (congrArg (· ++ []) h)).1, exactTokens_eq_of_same⟩

/-! ## The shape -/

theorem shapeTokens_eq_of_same {t u : Expr} (h : t.same u = true) :
    t.shapeTokens = u.shapeTokens := by
  induction t generalizing u with
  | tensor dims elements ih =>
    cases u <;> simp only [same, Bool.false_eq_true, Bool.and_eq_true, decide_eq_true_eq] at h
    have helements := map_eq_of_sameList (fun e he u => ih e he) h.2
    simp only [shapeTokens, shapeTokensList_eq, h.1, helements]
  | _ =>
    cases u <;> simp only [same, Bool.false_eq_true, Bool.and_eq_true, decide_eq_true_eq,
      beq_iff_eq] at h
    all_goals grind [shapeTokens]

theorem shapeList_eq (ts : List Expr) : shapeList ts = ts.map shape := by
  induction ts with
  | nil => rfl
  | cons t ts ih => rw [shapeList, ih, List.map_cons]

/-- The shape of a tree is hashed like the tree. -/
theorem shapeTokens_shape (t : Expr) : t.shape.shapeTokens = t.shapeTokens := by
  induction t with
  | tensor dims elements ih =>
    have helements : elements.map (fun e => e.shape.shapeTokens) = elements.map shapeTokens :=
      List.map_congr_left ih
    rw [shape, shapeTokens, shapeTokens, shapeList_eq, shapeTokensList_eq, shapeTokensList_eq,
      List.map_map, Function.comp_def, helements]
  | _ => simp_all [shape, shapeTokens]

theorem shapeTokens_eq_of_shape_same {t u : Expr} (h : t.shape.same u.shape = true) :
    t.shapeTokens = u.shapeTokens := by
  rw [← shapeTokens_shape t, shapeTokens_eq_of_same h, shapeTokens_shape]

/-- Where tensors fit their dimensions, the tokens of a shape can be told from what follows them. -/
theorem shapeTokens_append_inj {t u : Expr} {r r' : List Token} (ht : t.TensorsFit)
    (hu : u.TensorsFit) (h : t.shapeTokens ++ r = u.shapeTokens ++ r') :
    t.shape.same u.shape = true ∧ r = r' := by
  induction t generalizing u r r' with
  | tensor dims elements ih =>
    cases u <;> simp only [shapeTokens, List.cons_append, List.append_assoc, List.cons.injEq,
      Token.kind.injEq, reduceCtorEq, false_and, true_and] at h
    obtain ⟨rfl, -⟩ := Token.counts_append_inj h
    -- The number of elements is not hashed; here the dimensions give it.
    have hlength := ht.prod_eq.symm.trans hu.prod_eq
    obtain ⟨-, h⟩ := Token.counts_append_inj h
    rw [shapeTokensList_eq, shapeTokensList_eq] at h
    obtain ⟨helements, hr⟩ := sameList_of_flatten hlength h fun e he e' he' r r' =>
      ih e he (ht.of_mem_children he) (hu.of_mem_children he')
    simp [shape, same, shapeList_eq, helements, hr]
  | _ =>
    have hchildren := fun c => @TensorsFit.of_mem_children _ c ht
    have hchildren' := fun c => @TensorsFit.of_mem_children _ c hu
    cases u <;> simp only [shapeTokens, List.cons_append, List.append_assoc, List.nil_append,
      List.cons.injEq, Token.kind.injEq, NodeKind.binary.injEq, NodeKind.apply.injEq,
      Token.name.injEq, Token.count.injEq, Token.side.injEq, reduceCtorEq, false_and,
      true_and] at h
    all_goals
      simp only [shape, same, Bool.and_eq_true, decide_eq_true_eq, beq_iff_eq]
      simp only [children, List.mem_cons, List.not_mem_nil, or_false] at hchildren hchildren'
      grind

theorem name_mem_shapeTokens {t : Expr} {x : String} :
    .name x ∈ t.shapeTokens ↔ var x ∈ t.preorder := by
  induction t with
  | tensor dims elements ih =>
    simp only [shapeTokens, shapeTokensList_eq, preorder_eq (tensor dims elements), children,
      Token.counts, List.mem_cons, List.mem_append, List.mem_map, List.mem_flatten,
      List.mem_flatMap, reduceCtorEq, false_or, and_false, exists_false]
    grind
  | _ => simp_all [shapeTokens, preorder]

/-- The free variables can be read off the shape, whether tensors fit their dimensions or not. -/
theorem freeVariables_eq_of_shapeTokens {t u : Expr} (h : t.shapeTokens = u.shapeTokens) :
    t.freeVariables = u.freeVariables := by
  refine freeVariables_eq_iff.mpr fun x => ?_
  rw [mem_freeVariables, mem_freeVariables, ← name_mem_shapeTokens, h, name_mem_shapeTokens]

def withoutLiteral : Expr → Expr
  | num _ => int 0
  | t => t

theorem shape_eq_rewrite (t : Expr) : t.shape = t.rewrite withoutLiteral := by
  induction t with
  | tensor dims elements ih =>
    rw [shape, rewrite, shapeList_eq, rewriteList_eq, List.map_congr_left ih]
    rfl
  | _ => simp_all [shape, rewrite, withoutLiteral]

theorem congruent_shape : Congruent shape := by
  have hnode : Congruent withoutLiteral := by
    intro t u h
    cases t with
    | num c =>
      obtain ⟨d, rfl, -⟩ := num_same_iff.mp h
      exact BEq.rfl
    | _ => cases u <;> exact h
  intro t u h
  rw [shape_eq_rewrite, shape_eq_rewrite]
  exact hnode.rewrite t u h

end Expr

namespace SortLevel

open SymbolicAlgebra.Expr

/-- What is hashed of a term at a level. -/
def tokens : SortLevel → Expr → List Token
  | exact, t => t.exactTokens
  | shape, t => t.shapeTokens
  | loose, t => t.freeVariables.map .name

/-- The next coarser level; there is none beyond `loose`. -/
def coarser : SortLevel → SortLevel
  | exact => shape
  | shape => loose
  | loose => loose

variable {level : SortLevel} {t u : Expr}

/-- Up to collisions of the hash, terms agree just if they have the same key. -/
theorem agree_iff_tokens_eq (hfit : level = shape → t.TensorsFit ∧ u.TensorsFit) :
    level.agree t u = true ↔ level.tokens t = level.tokens u := by
  cases level with
  | exact => exact exactTokens_eq_iff.symm
  | shape =>
    refine ⟨shapeTokens_eq_of_shape_same, fun h => ?_⟩
    obtain ⟨ht, hu⟩ := hfit rfl
    exact (shapeTokens_append_inj ht hu (congrArg (· ++ []) h)).1
  | loose =>
    rw [agree, beq_iff_eq, tokens, tokens,
      (List.map_injective_iff.mpr fun _ _ => Token.name.inj).eq_iff]

theorem tokens_coarser_eq (h : level.tokens t = level.tokens u) :
    level.coarser.tokens t = level.coarser.tokens u := by
  cases level with
  | exact => exact shapeTokens_eq_of_same (exactTokens_eq_iff.mp h)
  | shape => exact congrArg (List.map Token.name) (freeVariables_eq_of_shapeTokens h)
  | loose => exact h

theorem agree_coarser (h : level.agree t u = true) : level.coarser.agree t u = true := by
  cases level with
  | exact => exact congruent_shape t u h
  | shape => exact beq_iff_eq.mpr (freeVariables_eq_of_shapeTokens (shapeTokens_eq_of_shape_same h))
  | loose => exact h

end SortLevel

end SymbolicAlgebra
