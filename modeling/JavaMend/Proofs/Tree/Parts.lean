import Mathlib.Algebra.BigOperators.Group.List.Basic
import Mathlib.Algebra.Order.Group.Multiset
import Mathlib.Tactic.GCongr
import Mathlib.Tactic.Abel
import JavaMend.Proofs.Tree.Places

/-!
# What new nodes are made of

The nodes of a tree are a multiset, `Node.parts`: a node that stands at two places
counts twice. A maker spends a budget of nodes (`Fresh.Spends`) if what it makes
consists of nodes of the budget, each used at most as often as the budget has it,
and of nodes that were drawn from the supply meanwhile, each used once. Makers that
are run one after the other share the budget between them, as in a logic of
resources, so a node that is moved is never there twice.

Some expressions can be left out of the count, by a predicate `hidden`.
-/

namespace JavaMend

namespace Node

/-- Is the node one of the expressions that are left out? -/
def isHidden (hidden : Expr → Bool) (n : Node) : Bool := n.expr?.any hidden

/-- The nodes of a tree but for the expressions that are left out, each as often as
it stands in the tree. -/
def parts (hidden : Expr → Bool) (n : Node) : Multiset Node :=
  (n.subtree.filter fun m => !m.isHidden hidden : List Node)

/-- The nodes of some trees. -/
def partsOf (hidden : Expr → Bool) (nodes : List Node) : Multiset Node :=
  (nodes.map (·.parts hidden)).sum

variable {hidden : Expr → Bool} {n c : Node}

@[simp]
theorem partsOf_nil : partsOf hidden [] = 0 := rfl

@[simp]
theorem partsOf_cons (n : Node) (nodes : List Node) :
    partsOf hidden (n :: nodes) = n.parts hidden + partsOf hidden nodes := by
  simp [partsOf]

@[simp]
theorem partsOf_append (nodes more : List Node) :
    partsOf hidden (nodes ++ more) = partsOf hidden nodes + partsOf hidden more := by
  simp [partsOf]

theorem filter_flatMap_subtree (nodes : List Node) :
    ((nodes.flatMap subtree).filter fun m => !m.isHidden hidden : Multiset Node) =
      partsOf hidden nodes := by
  induction nodes with
  | nil => rfl
  | cons n nodes ih =>
    rw [partsOf_cons, ← ih, List.flatMap_cons, List.filter_append, ← Multiset.coe_add]
    rfl

theorem parts_eq (n : Node) :
    n.parts hidden = (if n.isHidden hidden then 0 else {n}) + partsOf hidden n.children := by
  rw [← filter_flatMap_subtree]
  unfold parts
  rw [subtree_eq, List.filter_cons]
  cases n.isHidden hidden <;> rfl

/-- A node and its children. -/
theorem parts_le (hidden : Expr → Bool) (n : Node) :
    n.parts hidden ≤ {n} + partsOf hidden n.children := by
  rw [parts_eq]
  gcongr
  split
  · exact Multiset.zero_le _
  · exact le_rfl

theorem partsOf_children_le (hidden : Expr → Bool) (n : Node) :
    partsOf hidden n.children ≤ n.parts hidden := by
  rw [parts_eq]
  exact Multiset.le_add_left _ _

theorem parts_le_of_mem (mem : c ∈ n.children) : c.parts hidden ≤ n.parts hidden := by
  refine le_trans ?_ (partsOf_children_le hidden n)
  obtain ⟨front, back, split⟩ := List.append_of_mem mem
  rw [split, partsOf_append, partsOf_cons]
  exact le_trans (Multiset.le_add_right _ _) (Multiset.le_add_left _ _)

theorem mem_parts {m : Node} (mem : m ∈ n.subtree) (seen : m.isHidden hidden = false) :
    m ∈ n.parts hidden :=
  Multiset.mem_coe.mpr (List.mem_filter.mpr ⟨mem, by rw [seen]; rfl⟩)

/-- Where nothing is left out, all nodes are there. -/
theorem parts_all (n : Node) : n.parts (fun _ => false) = (n.subtree : Multiset Node) := by
  unfold parts
  rw [List.filter_eq_self.mpr]
  intro m _
  cases m <;> rfl

/-- Leaving out more leaves less. -/
theorem parts_anti {hidden' : Expr → Bool} (more : ∀ e, hidden e = true → hidden' e = true)
    (n : Node) : n.parts hidden' ≤ n.parts hidden := by
  refine Multiset.coe_le.mpr (List.Sublist.subperm ?_)
  refine List.monotone_filter_right _ fun m kept => ?_
  cases m with
  | expr e =>
    simp only [isHidden, expr?, Option.any_some, Bool.not_eq_true'] at kept ⊢
    by_contra present
    rw [more e (Bool.not_eq_false _ ▸ present)] at kept
    cases kept
  | _ => rfl

end Node

/-- The nodes of an expression. -/
def Expr.parts (hidden : Expr → Bool) (e : Expr) : Multiset Node := (Node.expr e).parts hidden

/-- The nodes of a statement. -/
def Stmt.parts (hidden : Expr → Bool) (s : Stmt) : Multiset Node := (Node.stmt s).parts hidden

/-- The nodes of a block. -/
def Block.parts (hidden : Expr → Bool) (b : Block) : Multiset Node := (Node.block b).parts hidden

/-- The nodes of some expressions. -/
def Expr.partsOf (hidden : Expr → Bool) (es : List Expr) : Multiset Node :=
  Node.partsOf hidden (es.map .expr)

/-- The nodes of some statements. -/
def Stmt.partsOf (hidden : Expr → Bool) (stmts : List Stmt) : Multiset Node :=
  Node.partsOf hidden (stmts.map .stmt)

section

variable {hidden : Expr → Bool}

@[simp]
theorem Expr.partsOf_nil : Expr.partsOf hidden [] = 0 := rfl

@[simp]
theorem Expr.partsOf_cons (e : Expr) (es : List Expr) :
    Expr.partsOf hidden (e :: es) = e.parts hidden + Expr.partsOf hidden es :=
  Node.partsOf_cons _ _

@[simp]
theorem Expr.partsOf_append (es more : List Expr) :
    Expr.partsOf hidden (es ++ more) = Expr.partsOf hidden es + Expr.partsOf hidden more := by
  simp [Expr.partsOf]

@[simp]
theorem Stmt.partsOf_nil : Stmt.partsOf hidden [] = 0 := rfl

@[simp]
theorem Stmt.partsOf_cons (s : Stmt) (stmts : List Stmt) :
    Stmt.partsOf hidden (s :: stmts) = s.parts hidden + Stmt.partsOf hidden stmts :=
  Node.partsOf_cons _ _

@[simp]
theorem Stmt.partsOf_append (stmts more : List Stmt) :
    Stmt.partsOf hidden (stmts ++ more) = Stmt.partsOf hidden stmts + Stmt.partsOf hidden more := by
  simp [Stmt.partsOf]

/-- The parts of an expression are those of its sub-expressions, and itself. -/
theorem Expr.partsOf_children_le (e : Expr) :
    Expr.partsOf hidden e.children ≤ e.parts hidden :=
  Node.partsOf_children_le hidden (.expr e)

theorem Block.partsOf_stmts_le (b : Block) : Stmt.partsOf hidden b.stmts ≤ b.parts hidden :=
  Node.partsOf_children_le hidden (.block b)

end

/-! ## Drawing ids -/

/-- Nodes that were made while the supply went from `low` to `high`: their ids are in
between, and no two are the same. -/
structure Drawn (low high : NodeId) (new : Multiset Node) : Prop where
  le : low ≤ high
  distinct : (new.map Node.id).Nodup
  within : ∀ n ∈ new, low ≤ n.id ∧ n.id < high

namespace Drawn

/-- The nodes of a tree with distinct ids that are older than some supply. -/
theorem of_distinct {n : Node} {next : NodeId} (distinct : (n.subtree.map Node.id).Nodup)
    (old : ∀ m ∈ n.subtree, m.id < next) : Drawn 0 next (n.parts fun _ => false) := by
  rw [Node.parts_all]
  refine ⟨Nat.zero_le _, ?_, fun m mem => ⟨Nat.zero_le _, old m (Multiset.mem_coe.mp mem)⟩⟩
  rw [Multiset.map_coe, Multiset.coe_nodup]
  exact distinct

variable {low mid high : NodeId} {new more : Multiset Node}

/-- A tree of such nodes has distinct ids. -/
theorem subtree {n : Node} (h : Drawn low high (n.parts fun _ => false)) :
    (n.subtree.map Node.id).Nodup ∧ ∀ m ∈ n.subtree, m.id < high := by
  obtain ⟨-, distinct, within⟩ := h
  rw [Node.parts_all] at distinct within
  rw [Multiset.map_coe, Multiset.coe_nodup] at distinct
  exact ⟨distinct, fun m mem => (within m (Multiset.mem_coe.mpr mem)).2⟩

theorem zero (le : low ≤ high) : Drawn low high 0 :=
  ⟨le, Multiset.nodup_zero, fun _ mem => (Multiset.notMem_zero _ mem).elim⟩

theorem single {n : Node} (at_ : n.id = low) : Drawn low (low + 1) {n} where
  le := Nat.le_succ low
  distinct := Multiset.nodup_singleton _
  within m mem := by
    cases Multiset.mem_singleton.mp mem
    exact ⟨Nat.le_of_eq at_.symm, at_ ▸ Nat.lt_succ_self _⟩

theorem mono {low' high' : NodeId} (h : Drawn low high new) (hlow : low' ≤ low)
    (hhigh : high ≤ high') : Drawn low' high' new where
  le := Nat.le_trans hlow (Nat.le_trans h.le hhigh)
  distinct := h.distinct
  within n mem := ⟨Nat.le_trans hlow (h.within n mem).1, Nat.lt_of_lt_of_le (h.within n mem).2 hhigh⟩

theorem of_le (h : Drawn low high new) (fewer : more ≤ new) : Drawn low high more where
  le := h.le
  distinct := Multiset.nodup_of_le (Multiset.map_le_map fewer) h.distinct
  within n mem := h.within n (Multiset.mem_of_le fewer mem)

/-- What was made earlier and what was made later. -/
theorem add (h : Drawn low mid new) (hmore : Drawn mid high more) : Drawn low high (new + more) where
  le := Nat.le_trans h.le hmore.le
  distinct := by
    rw [Multiset.map_add, Multiset.nodup_add]
    refine ⟨h.distinct, hmore.distinct, Multiset.disjoint_left.mpr ?_⟩
    intro id early late
    obtain ⟨n, hn, rfl⟩ := Multiset.mem_map.mp early
    obtain ⟨m, hm, same⟩ := Multiset.mem_map.mp late
    have apart : n.id < m.id := Nat.lt_of_lt_of_le (h.within n hn).2 (hmore.within m hm).1
    exact Nat.ne_of_gt apart same
  within n mem := by
    rcases Multiset.mem_add.mp mem with early | late
    · exact ⟨(h.within n early).1, Nat.lt_of_lt_of_le (h.within n early).2 hmore.le⟩
    · exact ⟨Nat.le_trans h.le (hmore.within n late).1, (hmore.within n late).2⟩

end Drawn

/-! ## Supplies that only grow -/

/-- A maker never hands an id out again. -/
def Fresh.Grows {α : Type} (make : Fresh α) : Prop := ∀ next, next ≤ (make next).2

namespace Fresh.Grows

variable {α β : Type}

theorem pure (a : α) : Grows (Pure.pure a) := fun next => Nat.le_refl next

theorem bind {make : Fresh α} {next : α → Fresh β} (h : make.Grows) (hnext : ∀ a, (next a).Grows) :
    (make >>= next).Grows :=
  fun start => Nat.le_trans (h start) (hnext _ _)

theorem freshId : Grows JavaMend.freshId := Nat.le_succ

theorem le {make : Fresh α} (h : make.Grows) {next used : NodeId} {a : α}
    (ran : make next = (a, used)) : next ≤ used := by
  have grown := h next
  rwa [ran] at grown

theorem mapM {f : α → Fresh β} {items : List α} (h : ∀ a ∈ items, (f a).Grows) :
    (items.mapM f).Grows := by
  induction items with
  | nil =>
    rw [List.mapM_nil]
    exact pure _
  | cons a items ih =>
    rw [List.mapM_cons]
    refine (h a List.mem_cons_self).bind fun _ => bind ?_ fun _ => pure _
    exact ih fun a' mem => h a' (List.mem_cons_of_mem _ mem)

end Fresh.Grows

/-! ## Makers -/

/-- What the maker makes consists of nodes of the budget and of new ones. -/
def Fresh.Spends {α : Type} (budget : Multiset Node) (make : Fresh α) (parts : α → Multiset Node) :
    Prop :=
  ∀ next, ∃ new, Drawn next (make next).2 new ∧ parts (make next).1 ≤ budget + new

namespace Fresh.Spends

variable {α β : Type} {budget rest all : Multiset Node} {make : Fresh α} {parts : α → Multiset Node}
  {parts' : β → Multiset Node}

theorem grows (h : Spends budget make parts) : make.Grows := by
  intro next
  obtain ⟨new, drawn, -⟩ := h next
  exact drawn.le

theorem pure {a : α} (h : parts a ≤ budget) : Spends budget (Pure.pure a) parts :=
  fun next => ⟨0, .zero (Nat.le_refl next), by rwa [add_zero]⟩

/-- The second maker has what the first one made, and the rest of the budget. -/
theorem bind {next : α → Fresh β} (h : Spends budget make parts)
    (hnext : ∀ a, Spends (parts a + rest) (next a) parts') :
    Spends (budget + rest) (make >>= next) parts' := by
  intro start
  obtain ⟨new, drawn, made⟩ := h start
  obtain ⟨more, drawn', made'⟩ := hnext (make start).1 (make start).2
  refine ⟨new + more, drawn.add drawn', le_trans made' ?_⟩
  calc parts (make start).1 + rest + more
      ≤ budget + new + rest + more := by gcongr
    _ = budget + rest + (new + more) := by abel

/-- A first maker that needs nothing of the budget. -/
theorem bind_new {next : α → Fresh β} (h : Spends 0 make parts)
    (hnext : ∀ a, Spends (parts a + all) (next a) parts') : Spends all (make >>= next) parts' := by
  have := h.bind hnext
  rwa [zero_add] at this

/-- A larger budget will do as well. -/
theorem of_le (h : Spends budget make parts) (le : budget ≤ all) : Spends all make parts := by
  intro next
  obtain ⟨new, drawn, made⟩ := h next
  exact ⟨new, drawn, le_trans made (by gcongr)⟩

/-- A second maker that needs only what the first one made. -/
theorem then_ {next : α → Fresh β} (h : Spends budget make parts)
    (hnext : ∀ a, Spends (parts a) (next a) parts') : Spends budget (make >>= next) parts' := by
  have all := h.bind fun a => (hnext a).of_le (le_of_eq (add_zero _).symm)
  rwa [add_zero] at all

/-- A second maker that has `rest` of the budget besides what the first one made. -/
theorem next {next : α → Fresh β} (rest : Multiset Node) (h : Spends budget make parts)
    (hnext : ∀ a, Spends (parts a + rest) (next a) parts') (le : budget + rest ≤ all) :
    Spends all (make >>= next) parts' :=
  (h.bind hnext).of_le le

/-- Less can be said about what is made. -/
theorem weaken {less : α → Multiset Node} (h : Spends budget make parts)
    (le : ∀ a, less a ≤ parts a) : Spends budget make less := by
  intro next
  obtain ⟨new, drawn, made⟩ := h next
  exact ⟨new, drawn, le_trans (le _) made⟩

theorem map {f : α → β} (h : Spends budget make parts) (le : ∀ a, parts' (f a) ≤ parts a) :
    Spends budget (f <$> make) parts' := by
  intro next
  obtain ⟨new, drawn, made⟩ := h next
  exact ⟨new, drawn, le_trans (le _) made⟩

/-- Makers that are run in a row, each with a budget of its own. -/
theorem mapM {f : α → Fresh β} {budget : α → Multiset Node} {items : List α}
    (h : ∀ a ∈ items, Spends (budget a) (f a) parts') :
    Spends (items.map budget).sum (items.mapM f) fun outs => (outs.map parts').sum := by
  induction items with
  | nil =>
    rw [List.mapM_nil]
    exact pure le_rfl
  | cons a items ih =>
    rw [List.mapM_cons, List.map_cons, List.sum_cons]
    refine (h a List.mem_cons_self).bind fun b => ?_
    have tail := ih fun a' mem => h a' (List.mem_cons_of_mem _ mem)
    rw [add_comm]
    exact tail.bind fun outs => pure (by rw [List.map_cons, List.sum_cons, add_comm])

/-- Makers in a row that need nothing. -/
theorem mapM_new {f : α → Fresh β} {items : List α} (h : ∀ a ∈ items, Spends 0 (f a) parts') :
    Spends 0 (items.mapM f) fun outs => (outs.map parts').sum := by
  have all := mapM h
  rwa [List.map_const', List.sum_replicate, nsmul_zero] at all

end Fresh.Spends

/-! ## Making nodes -/

section

variable (hidden : Expr → Bool)

open Fresh (Spends)

/-- A new node around some children has these and itself. -/
theorem Fresh.spends_node {α : Type} (make : NodeId → α) (node : α → Node) {budget : Multiset Node}
    (at_ : ∀ id, (node (make id)).id = id)
    (children : ∀ id, Node.partsOf hidden (node (make id)).children ≤ budget) :
    Spends budget (do return make (← freshId) : Fresh α) fun a => (node a).parts hidden := by
  intro next
  refine ⟨{node (make next)}, .single (at_ next), ?_⟩
  calc (node (make next)).parts hidden
      ≤ {node (make next)} + Node.partsOf hidden (node (make next)).children := Node.parts_le hidden _
    _ ≤ {node (make next)} + budget := by gcongr; exact children next
    _ = budget + {node (make next)} := add_comm _ _

namespace Expr

theorem make_spends (form : ExprForm Expr) (ty : Ty) :
    Spends (partsOf hidden form.children) (make form ty) (parts hidden) :=
  Fresh.spends_node hidden (fun id => ⟨id, ty, form⟩) .expr (fun _ => rfl)
    fun _ => le_rfl

/-- An expression without sub-expressions is all new. -/
theorem make_leaf_spends {form : ExprForm Expr} (leaf : form.children = []) (ty : Ty) :
    Spends 0 (make form ty) (parts hidden) := by
  have made := make_spends hidden form ty
  rwa [leaf] at made

theorem mkIdent_spends (name : String) (ty : Ty) : Spends 0 (mkIdent name ty) (parts hidden) :=
  make_leaf_spends hidden rfl ty

theorem mkTypeName_spends (ty : Ty) : Spends 0 (mkTypeName ty) (parts hidden) :=
  mkIdent_spends hidden _ ty

theorem mkString_spends (value : String) : Spends 0 (mkString value) (parts hidden) :=
  make_leaf_spends hidden rfl _

theorem mkInt_spends (value : Int) : Spends 0 (mkInt value) (parts hidden) :=
  make_leaf_spends hidden rfl _

theorem mkBool_spends (value : Bool) : Spends 0 (mkBool value) (parts hidden) :=
  make_leaf_spends hidden rfl _

theorem mkNull_spends : Spends 0 mkNull (parts hidden) := make_leaf_spends hidden rfl _

theorem mkField_spends (target : Expr) (name : String) (ty : Ty) :
    Spends (target.parts hidden) (mkField target name ty) (parts hidden) :=
  (make_spends hidden (.field target name) ty).of_le (by simp [ExprForm.children])

theorem mkStaticField_spends (owner : Ty) (name : String) (ty : Ty) :
    Spends 0 (mkStaticField owner name ty) (parts hidden) :=
  (mkTypeName_spends hidden owner).bind_new fun target =>
    (mkField_spends hidden target name ty).of_le (Multiset.le_add_right _ _)

theorem mkCall_spends (receiver : Expr) (method : MethodRef) (args : List Expr) :
    Spends (receiver.parts hidden + partsOf hidden args) (mkCall receiver method args)
      (parts hidden) :=
  (make_spends hidden (.call (some receiver) method.name args (some method)) _).of_le
    (by simp [ExprForm.children])

theorem mkStaticCall_spends (method : MethodRef) (args : List Expr) :
    Spends (partsOf hidden args) (mkStaticCall method args) (parts hidden) :=
  (mkTypeName_spends hidden method.owner).bind_new fun owner => mkCall_spends hidden owner method args

theorem mkLocalCall_spends (method : MethodRef) (args : List Expr) :
    Spends (partsOf hidden args) (mkLocalCall method args) (parts hidden) :=
  (make_spends hidden (.call none method.name args (some method)) _).of_le (by simp [ExprForm.children])

theorem mkCreate_spends (constructor : MethodRef) (args : List Expr) :
    Spends (partsOf hidden args) (mkCreate constructor args) (parts hidden) :=
  make_spends hidden (.create _ args (some constructor)) _

theorem mkArray_spends (element : Ty) (size : Expr) :
    Spends (size.parts hidden) (mkArray element size) (parts hidden) :=
  (make_spends hidden (.array _ size) _).of_le (by simp [ExprForm.children])

theorem mkAdd_spends (left right : Expr) :
    Spends (left.parts hidden + right.parts hidden) (mkAdd left right) (parts hidden) :=
  (make_spends hidden (.binary .add left right) _).of_le (by simp [ExprForm.children])

theorem mkNot_spends (operand : Expr) :
    Spends (operand.parts hidden) (mkNot operand) (parts hidden) :=
  (make_spends hidden (.unary .not operand) _).of_le (by simp [ExprForm.children])

theorem mkAssign_spends (target value : Expr) :
    Spends (target.parts hidden + value.parts hidden) (mkAssign target value) (parts hidden) :=
  (make_spends hidden (.assign none target value) _).of_le (by simp [ExprForm.children])

/-- A copy is all new. -/
theorem freshCopy_spends (e : Expr) : Spends 0 e.freshCopy (parts hidden) := by
  intro next
  obtain ⟨copies, next', run, -, copied⟩ :=
    mapM_copies (fun c (_ : c ∈ e.children) => freshCopy_copies c) next
  have inner : Spends 0 (e.children.mapM freshCopy) fun outs => (outs.map (parts hidden)).sum :=
    .mapM_new fun c mem => freshCopy_spends c
  obtain ⟨new, drawn, made⟩ := inner next
  rw [run] at drawn made
  have result : e.freshCopy next = (e.withChildren next' copies, next' + 1) := by
    rw [freshCopy_eq, Fresh.bind_of_eq run]
    rfl
  have refilled := e.refilled_withChildren next' copied.length_eq.symm
  have children : (Node.expr (e.withChildren next' copies)).children = copies.map .expr :=
    congrArg (List.map Node.expr) refilled.children
  rw [result]
  refine ⟨new + {.expr (e.withChildren next' copies)}, drawn.add (.single rfl), ?_⟩
  calc (e.withChildren next' copies).parts hidden
      ≤ {.expr (e.withChildren next' copies)} + Node.partsOf hidden (copies.map .expr) :=
        children ▸ Node.parts_le hidden _
    _ = {.expr (e.withChildren next' copies)} + (copies.map (parts hidden)).sum := by
        rw [Node.partsOf, List.map_map]
        rfl
    _ ≤ {.expr (e.withChildren next' copies)} + (0 + new) := by gcongr
    _ = 0 + (new + {.expr (e.withChildren next' copies)}) := by abel
termination_by sizeOf e
decreasing_by exact sizeOf_lt_of_mem_children mem

end Expr

theorem Variable.make_spends (name : String) (ty : Ty) (init : Option Expr) :
    Spends (Expr.partsOf hidden init.toList) (Variable.make name ty init)
      fun v => (Node.var v).parts hidden :=
  Fresh.spends_node hidden (fun id => ⟨id, name, ty, init⟩) .var
    (fun _ => rfl) fun _ => le_rfl

theorem Block.make_spends (stmts : List Stmt) (isStatic : Bool) :
    Spends (Stmt.partsOf hidden stmts) (Block.make stmts isStatic) (Block.parts hidden) :=
  Fresh.spends_node hidden (fun id => ⟨id, isStatic, stmts⟩) .block (fun _ => rfl)
    fun _ => le_rfl

namespace Stmt

theorem make_spends (form : StmtForm Expr Variable Stmt Block) :
    Spends (Node.partsOf hidden (Stmt.children ⟨0, form⟩)) (make form) (parts hidden) :=
  Fresh.spends_node hidden (fun id => ⟨id, form⟩) .stmt (fun _ => rfl)
    fun _ => le_rfl

theorem mkExpr_spends (e : Expr) : Spends (e.parts hidden) (mkExpr e) (parts hidden) :=
  (make_spends hidden (.expr e)).of_le (by simp [Stmt.children, Expr.parts])

theorem mkDeclare_spends (modifiers : List Modifier) (ty : Ty) (name : String)
    (init : Option Expr) :
    Spends (Expr.partsOf hidden init.toList) (mkDeclare modifiers ty name init) (parts hidden) := by
  refine (Variable.make_spends hidden name ty init).then_ fun v => ?_
  exact (make_spends hidden _).of_le (by simp [Stmt.children, Declaration.children])

theorem mkBlock_spends (stmts : List Stmt) :
    Spends (partsOf hidden stmts) (mkBlock stmts) (parts hidden) := by
  refine (Block.make_spends hidden stmts false).then_ fun b => ?_
  exact (make_spends hidden _).of_le (by simp [Stmt.children, Block.parts])

theorem mkIf_spends (condition : Expr) (onTrue : Stmt) (onFalse : Option Stmt) :
    Spends (condition.parts hidden + onTrue.parts hidden + partsOf hidden onFalse.toList)
      (mkIf condition onTrue onFalse) (parts hidden) :=
  (make_spends hidden (.ifElse condition onTrue onFalse)).of_le
    (by simp [Stmt.children, Expr.parts, Stmt.parts, partsOf, add_assoc])

theorem mkThrowNew_spends (exception : Ty) (message : String) :
    Spends 0 (mkThrowNew exception message) (parts hidden) := by
  refine (Expr.mkString_spends hidden message).bind_new fun text => ?_
  refine ((Expr.mkCreate_spends hidden _ [text]).of_le (by simp)).then_ fun e => ?_
  exact (make_spends hidden (.throwStmt e)).of_le (by simp [Stmt.children, Expr.parts])

end Stmt

theorem CatchClause.make_spends (exception : Ty) (name : String) (body : Block) :
    Spends (body.parts hidden) (CatchClause.make exception name body)
      fun clause => Node.partsOf hidden clause.children :=
  (Variable.make_spends hidden name exception none).bind_new fun v =>
    Spends.pure (by simp [CatchClause.children, Block.parts])

end

end JavaMend
