import Mathlib.Algebra.GroupWithZero.Nat
import Mathlib.Data.List.Pairwise
import JavaMend.Proofs.Tree.Fresh

/-!
# Places of an expression

An expression can stand at several places of a tree, as one shared node.
`Node.copies` counts them. Where there is one place only, it is below one child
of every node around it.

Ids stand for nodes: `Node.Coherent` says that two nodes with one id are one node,
which holds of every tree that was made from one supply.

Two nodes of one label have the same slots, and what fills them can be compared slot by
slot. `ExprForm.Related` and `StmtForm.Related` say this for the forms of expressions and of
statements. Trees are alike if this holds all the way down (`Node.alike_iff`).
-/

namespace JavaMend

namespace Node

/-- At how many places below a node an expression stands. -/
def copies (n : Node) (e : Expr) : Nat := n.subtree.countP (·.same (.expr e))

variable {n c : Node} {e source : Expr}

theorem copies_eq (n : Node) (e : Expr) :
    n.copies e = (n.children.map (·.copies e)).sum + if n.same (.expr e) then 1 else 0 := by
  unfold copies
  rw [subtree_eq, List.countP_cons, List.countP_flatMap]
  rfl

theorem copies_le_of_mem (mem : c ∈ n.children) : c.copies e ≤ n.copies e := by
  obtain ⟨front, back, split⟩ := List.append_of_mem mem
  rw [copies_eq n, split, List.map_append, List.sum_append, List.map_cons, List.sum_cons]
  omega

theorem copies_eq_zero_of_mem (free : n.copies e = 0) (mem : c ∈ n.children) : c.copies e = 0 := by
  have below := copies_le_of_mem (e := e) mem
  omega

/-- Where an expression stands in one place, it does not stand beside the child
that it stands below. -/
theorem copies_beside (once : n.copies e ≤ 1) {front back : List Node}
    (split : n.children = front ++ c :: back) (here : 1 ≤ c.copies e) :
    ∀ d ∈ front ++ back, d.copies e = 0 := by
  have total := copies_eq n e
  rw [split, List.map_append, List.sum_append, List.map_cons, List.sum_cons] at total
  have beside : ((front ++ back).map (·.copies e)).sum = 0 := by
    rw [List.map_append, List.sum_append]
    omega
  intro d mem
  rw [List.sum_eq_zero_iff_forall_eq_nat] at beside
  exact beside _ (List.mem_map_of_mem mem)

/-- Where an expression stands in one place, it stands below one child only. -/
theorem eq_or_copies_eq_zero (once : n.copies e ≤ 1) (mem : c ∈ n.children)
    (here : 1 ≤ c.copies e) {d : Node} (mem' : d ∈ n.children) : d = c ∨ d.copies e = 0 := by
  obtain ⟨front, back, split⟩ := List.append_of_mem mem
  have beside := copies_beside once split here
  rw [split, List.mem_append, List.mem_cons] at mem'
  rcases mem' with before | same | after
  · exact .inr (beside d (List.mem_append_left _ before))
  · exact .inl same
  · exact .inr (beside d (List.mem_append_right _ after))

/-- A statement behind one of a block adds only the places below it. -/
theorem copies_block_le {block block' : Block} {front back : List Stmt} {stmt new : Stmt}
    (split : block.stmts = front ++ stmt :: back)
    (stmts : block'.stmts = front ++ stmt :: new :: back) (free : (Node.stmt new).copies e = 0) :
    (Node.block block').copies e ≤ (Node.block block).copies e := by
  rw [copies_eq (.block block'), copies_eq (.block block)]
  show (block'.stmts.map _ |>.map _).sum + _ ≤ (block.stmts.map _ |>.map _).sum + _
  rw [stmts, split]
  simp only [List.map_append, List.map_cons, List.sum_append, List.sum_cons, free, same,
    Bool.false_eq_true, if_false]
  omega

/-- Where an expression stands in one place, it does not stand below itself. -/
theorem copies_part (once : (Node.expr e).copies e ≤ 1) {part : Expr} (mem : part ∈ e.children) :
    (Node.expr part).copies e = 0 := by
  have total := copies_eq (Node.expr e) e
  have self : (Node.expr e).same (.expr e) = true := beq_self_eq_true e.id
  rw [self, if_pos rfl] at total
  have below : ((Node.expr e).children.map (·.copies e)).sum = 0 := by omega
  rw [List.sum_eq_zero_iff_forall_eq_nat] at below
  exact below _ (List.mem_map_of_mem (List.mem_map_of_mem mem))

/-- An expression stands below the parentheses around it. -/
theorem copies_unparen (e : Expr) : 1 ≤ (Node.expr e).copies e.unparen := by
  fun_induction Expr.unparen e with
  | case1 id ty inner ih => exact Nat.le_trans ih (copies_le_of_mem List.mem_cons_self)
  | case2 e plain =>
    have self : (Node.expr e).same (.expr e) = true := beq_self_eq_true e.id
    rw [copies_eq, self]
    exact Nat.le_add_left _ _

theorem copies_unparen_le (e target : Expr) :
    (Node.expr e.unparen).copies target ≤ (Node.expr e).copies target := by
  fun_induction Expr.unparen e with
  | case1 id ty inner ih => exact Nat.le_trans ih (copies_le_of_mem List.mem_cons_self)
  | case2 e plain => exact Nat.le_refl _

theorem copies_eq_zero_iff : n.copies e = 0 ↔ ∀ m ∈ n.subtree, m.same (.expr e) = false := by
  simp only [copies, List.countP_eq_zero, Bool.not_eq_true]

/-- The sub-expressions of an expression are nodes below it. -/
theorem expr_mem_subtree {e sub : Expr} (mem : sub ∈ e.subterms) :
    Node.expr sub ∈ (Node.expr e).subtree := by
  rw [Expr.subterms_eq, List.mem_cons] at mem
  rw [subtree_eq, List.mem_cons]
  cases mem with
  | inl same => exact .inl (congrArg Node.expr same)
  | inr below =>
    obtain ⟨child, hchild, below⟩ := List.mem_flatMap.mp below
    right
    exact List.mem_flatMap.mpr
      ⟨.expr child, List.mem_map_of_mem hchild, expr_mem_subtree below⟩
termination_by sizeOf e
decreasing_by exact Expr.sizeOf_lt_of_mem_children hchild

/-- Below an expression there are only expressions. -/
theorem expr?_of_child (mem : c ∈ n.children) (kind : c.expr? = none) : n.expr? = none := by
  cases n with
  | expr e =>
    obtain ⟨c, -, same⟩ := List.mem_map.mp mem
    rw [← same] at kind
    cases kind
  | _ => rfl

theorem same_expr_of_kind (kind : n.expr? = none) : n.same (.expr e) = false := by
  cases n with
  | expr e => cases kind
  | _ => rfl

/-- How many of some nodes are statements. -/
def stmtCount (nodes : List Node) : Nat := (nodes.filterMap stmt?).length

theorem stmtCount_cons (n : Node) (nodes : List Node) :
    stmtCount (n :: nodes) = stmtCount nodes + n.stmt?.toList.length := by
  unfold stmtCount
  cases h : n.stmt? with
  | none => rw [List.filterMap_cons_none h]; rfl
  | some stmt => rw [List.filterMap_cons_some h]; rfl

/-- Nodes below it that are the same are equal. -/
def Coherent (n : Node) : Prop := ∀ a ∈ n.subtree, ∀ b ∈ n.subtree, a.same b = true → a = b

theorem mem_subtree_self : n ∈ n.subtree := by
  rw [subtree_eq]
  exact List.mem_cons_self

theorem mem_subtree_of_child (mem : c ∈ n.children) {m : Node} (below : m ∈ c.subtree) :
    m ∈ n.subtree := by
  rw [subtree_eq]
  exact List.mem_cons_of_mem _ (List.mem_flatMap.mpr ⟨c, mem, below⟩)

theorem subtree_trans {m k : Node} (below : m ∈ n.subtree) (inside : k ∈ m.subtree) : k ∈ n.subtree := by
  induction n using Node.inductionOn with
  | step n ih =>
    rw [subtree_eq, List.mem_cons] at below
    rcases below with rfl | below
    · exact inside
    · obtain ⟨c, hc, below⟩ := List.mem_flatMap.mp below
      exact mem_subtree_of_child hc (ih c hc below)

theorem Coherent.child (h : n.Coherent) (mem : c ∈ n.children) : c.Coherent := by
  intro a ha b hb
  exact h a (mem_subtree_of_child mem ha) b (mem_subtree_of_child mem hb)

/-- Children that are the same are equal. -/
theorem Coherent.eq_of_same (h : n.Coherent) (mem : c ∈ n.children) {d : Node}
    (mem' : d ∈ n.children) (same : c.same d = true) : c = d :=
  h c (mem_subtree_of_child mem mem_subtree_self) d
    (mem_subtree_of_child mem' mem_subtree_self) same

theorem Coherent.eq_of_split (h : n.Coherent) {front back : List Node} {d : Node}
    (split : n.children = front ++ c :: back) (mem : d ∈ n.children) (same : c.same d = true) : c = d := by
  refine h.eq_of_same ?_ mem same
  rw [split]
  exact List.mem_append_right _ List.mem_cons_self

theorem id_of_same {a b : Node} (same : a.same b = true) : a.id = b.id := by
  cases a <;> cases b <;> first | exact eq_of_beq same | cases same

theorem same_comm (a b : Node) : a.same b = b.same a := by
  cases a <;> cases b <;> simp only [same, BEq.comm]

/-- A tree is coherent when its nodes are among nodes of which no two are the
same. -/
theorem coherent_of_distinct {nodes : List Node} (among : ∀ m ∈ n.subtree, m ∈ nodes)
    (distinct : nodes.Pairwise fun a b => a.same b = false) : n.Coherent := by
  intro a ha b hb same
  by_contra different
  have : Std.Symm fun a b : Node => a.same b = false := ⟨fun a b h => by rwa [same_comm]⟩
  have apart := distinct.forall (among a ha) (among b hb) different
  rw [same] at apart
  cases apart

/-- What was made since `next` holds nothing from before. -/
theorem NewSince.copies_eq_zero {next : NodeId} (new : n.NewSince next) (before : e.id < next) :
    n.copies e = 0 := by
  rw [copies_eq_zero_iff]
  intro m hm
  have since := new m hm
  cases m with
  | expr e' =>
    have other : e'.id ≠ e.id := Nat.ne_of_gt (Nat.lt_of_lt_of_le before since)
    exact beq_eq_false_iff_ne.mpr other
  | _ => rfl

/-- The nodes of a child are its own. -/
theorem distinct_of_split {front back : List Node} (split : n.children = front ++ c :: back)
    (distinct : (n.subtree.map Node.id).Nodup) :
    (c.subtree.map Node.id).Nodup ∧
      ∀ d ∈ front ++ back, ∀ k ∈ d.subtree, ∀ m ∈ c.subtree, k.id ≠ m.id := by
  rw [subtree_eq, split, List.flatMap_append, List.flatMap_cons, List.map_cons,
    List.nodup_cons, List.map_append, List.map_append] at distinct
  obtain ⟨-, distinct⟩ := distinct
  obtain ⟨-, inner, before⟩ := List.nodup_append.mp distinct
  obtain ⟨own, -, after⟩ := List.nodup_append.mp inner
  refine ⟨own, fun d hd k hk m hm => ?_⟩
  rcases List.mem_append.mp hd with hd | hd
  · exact before _ (List.mem_map_of_mem (List.mem_flatMap.mpr ⟨d, hd, hk⟩)) _
      (List.mem_append_left _ (List.mem_map_of_mem hm))
  · exact (after _ (List.mem_map_of_mem hm) _
      (List.mem_map_of_mem (List.mem_flatMap.mpr ⟨d, hd, hk⟩))).symm

/-- Where ids are distinct, a node is the child of one node only. -/
theorem eq_of_child {root a b : Node} (distinct : (root.subtree.map Node.id).Nodup)
    (ha : a ∈ root.subtree) (hb : b ∈ root.subtree) (ca : c ∈ a.children) (cb : c ∈ b.children) :
    a = b := by
  induction root using Node.inductionOn with
  | step root ih =>
    -- A child of the root is no child of a node below the root.
    have apart {d m : Node} (child : c ∈ root.children) (hd : d ∈ root.children)
        (hm : m ∈ d.subtree) (cm : c ∈ m.children) : False := by
      obtain ⟨front, back, split⟩ := List.append_of_mem hd
      obtain ⟨own, beside⟩ := distinct_of_split split distinct
      have inside : c ∈ d.subtree := subtree_trans hm (mem_subtree_of_child cm mem_subtree_self)
      by_cases same : c = d
      · subst same
        rw [subtree_eq, List.map_cons, List.nodup_cons] at own
        refine own.1 (List.mem_map_of_mem (List.mem_flatMap.mpr ?_))
        rw [subtree_eq, List.mem_cons] at hm
        rcases hm with rfl | hm
        · exact ⟨_, cm, mem_subtree_self⟩
        · obtain ⟨k, hk, hm⟩ := List.mem_flatMap.mp hm
          exact ⟨k, hk, subtree_trans hm (mem_subtree_of_child cm mem_subtree_self)⟩
      · refine beside c ?_ c mem_subtree_self c inside rfl
        rw [split, List.mem_append, List.mem_cons] at child
        exact List.mem_append.mpr (child.imp_right fun other => other.resolve_left same)
    rw [subtree_eq, List.mem_cons] at ha hb
    rcases ha with rfl | ha <;> rcases hb with rfl | hb
    · rfl
    · obtain ⟨d, hd, hb⟩ := List.mem_flatMap.mp hb
      exact (apart ca hd hb cb).elim
    · obtain ⟨d, hd, ha⟩ := List.mem_flatMap.mp ha
      exact (apart cb hd ha ca).elim
    · obtain ⟨d, hd, ha⟩ := List.mem_flatMap.mp ha
      obtain ⟨k, hk, hb⟩ := List.mem_flatMap.mp hb
      obtain ⟨front, back, split⟩ := List.append_of_mem hd
      obtain ⟨own, beside⟩ := distinct_of_split split distinct
      have one : k = d := by
        by_contra other
        refine beside k ?_ c (subtree_trans hb (mem_subtree_of_child cb mem_subtree_self)) c
          (subtree_trans ha (mem_subtree_of_child ca mem_subtree_self)) rfl
        rw [split, List.mem_append, List.mem_cons] at hk
        exact List.mem_append.mpr (hk.imp_right fun h => h.resolve_left other)
      exact ih d hd own ha (one ▸ hb)

/-- Every node is alike to itself. -/
theorem alike_refl (n : Node) : n.alike n = true := by
  induction n using Node.inductionOn with
  | step n ih =>
    rw [Node.alike]
    simp only [beq_self_eq_true, Bool.true_and, List.all_eq_true]
    intro h hmem
    obtain ⟨⟨c, hc⟩, d⟩ := h
    obtain ⟨i, hi, at_⟩ := List.mem_iff_getElem.mp hmem
    simp only [List.getElem_zip, List.getElem_attach, Prod.mk.injEq, Subtype.mk.injEq] at at_
    have same : c = d := at_.1.symm.trans at_.2
    exact same ▸ ih c hc

end Node

/-! ## Related trees -/

/-- One form over two sorts of sub-expressions that are related, one by one. -/
inductive ExprForm.Related {ε δ : Type} (r : ε → δ → Prop) : ExprForm ε → ExprForm δ → Prop where
  | ident (name : String) (owner : Option Ty) : Related r (.ident name owner) (.ident name owner)
  | literal (value : Literal) : Related r (.literal value) (.literal value)
  | field {target : ε} {target' : δ} (name : String) (related : r target target') :
      Related r (.field target name) (.field target' name)
  | call {receiver : Option ε} {receiver' : Option δ} {args : List ε} {args' : List δ} (name : String)
      (method : Option MethodRef) (related : Option.Rel r receiver receiver')
      (relatedArgs : List.Forall₂ r args args') :
      Related r (.call receiver name args method) (.call receiver' name args' method)
  | create {args : List ε} {args' : List δ} (className : String) (method : Option MethodRef)
      (relatedArgs : List.Forall₂ r args args') :
      Related r (.create className args method) (.create className args' method)
  | array {size : ε} {size' : δ} (element : String) (related : r size size') :
      Related r (.array element size) (.array element size')
  | binary {left right : ε} {left' right' : δ} (op : BinaryOp) (relatedLeft : r left left')
      (relatedRight : r right right') : Related r (.binary op left right) (.binary op left' right')
  | unary {operand : ε} {operand' : δ} (op : UnaryOp) (related : r operand operand') :
      Related r (.unary op operand) (.unary op operand')
  | assign {target value : ε} {target' value' : δ} (op : Option BinaryOp) (relatedTarget : r target target')
      (relatedValue : r value value') : Related r (.assign op target value) (.assign op target' value')
  | parens {inner : ε} {inner' : δ} (related : r inner inner') :
      Related r (.parens inner) (.parens inner')
  | cast {operand : ε} {operand' : δ} (typeName : String) (related : r operand operand') :
      Related r (.cast typeName operand) (.cast typeName operand')
  | ternary {condition onTrue onFalse : ε} {condition' onTrue' onFalse' : δ}
      (relatedCondition : r condition condition') (relatedTrue : r onTrue onTrue')
      (relatedFalse : r onFalse onFalse') :
      Related r (.ternary condition onTrue onFalse) (.ternary condition' onTrue' onFalse')

/-- Forms are related if they are the same without their sub-expressions, and these are
related in their order. -/
theorem ExprForm.related_iff {ε δ : Type} {r : ε → δ → Prop} {f : ExprForm ε} {f' : ExprForm δ} :
    Related r f f' ↔
      f'.map (fun _ => ()) = f.map (fun _ => ()) ∧ List.Forall₂ r f.children f'.children := by
  constructor
  · intro h
    cases h with
    | call name method related relatedArgs =>
      cases related with
      | none => simp [map, children, relatedArgs.length_eq, relatedArgs]
      | some related => simp [map, children, relatedArgs.length_eq, relatedArgs, related]
    | create _ _ relatedArgs => simp [map, children, relatedArgs.length_eq, relatedArgs]
    | _ => simp_all [map, children]
  · rintro ⟨label, related⟩
    cases f with
    | call receiver name args method =>
      cases f' <;> simp only [map, reduceCtorEq, call.injEq] at label
      next receiver' _ args' _ =>
      obtain ⟨receivers, rfl, -, rfl⟩ := label
      cases receiver <;> cases receiver' <;> simp only [Option.map, reduceCtorEq] at receivers
      · exact .call _ _ .none related
      · cases related with
        | cons related relatedArgs => exact .call _ _ (.some related) relatedArgs
    | create className args method =>
      cases f' <;> simp only [map, reduceCtorEq, create.injEq] at label
      obtain ⟨rfl, -, rfl⟩ := label
      exact .create _ _ related
    | _ =>
      cases f' <;> simp only [map, reduceCtorEq] at label
      cases label
      simp only [children, List.forall₂_cons, List.forall₂_nil_left_iff, and_true] at related
      constructor <;> tauto

/-- Expressions of one label whose sub-expressions are related. -/
theorem ExprForm.related_of_label {r : Node → Node → Prop} {e e' : Expr}
    (label : (Node.expr e').label = (Node.expr e).label)
    (children : List.Forall₂ r (Node.expr e).children (Node.expr e').children) :
    e'.ty = e.ty ∧ Related (fun c c' => r (.expr c) (.expr c')) e.form e'.form := by
  obtain ⟨ty, form⟩ := Node.Label.expr.inj label
  change List.Forall₂ r (e.children.map Node.expr) (e'.children.map Node.expr) at children
  rw [List.forall₂_map_left_iff, List.forall₂_map_right_iff] at children
  exact ⟨ty, related_iff.mpr ⟨form, children⟩⟩

/-- Related calls are calls of one method, and their arguments are related. -/
theorem Expr.args_related {r : Expr → Expr → Prop} {e e' : Expr}
    (related : ExprForm.Related r e.form e'.form) :
    e'.method? = e.method? ∧ List.Forall₂ r e.args e'.args := by
  unfold method? args
  generalize e.form = form at related ⊢
  generalize e'.form = form' at related ⊢
  cases related with
  | call _ _ _ args => exact ⟨rfl, args⟩
  | create _ _ args => exact ⟨rfl, args⟩
  | _ => exact ⟨rfl, .nil⟩

/-! ## Related statements -/

/-- Lists that are related are so up to where both are cut. -/
theorem forall₂_append_split {α β : Type} {R : α → β → Prop} {as bs : List α} {as' bs' : List β}
    (size : as'.length = as.length) (h : List.Forall₂ R (as ++ bs) (as' ++ bs')) :
    List.Forall₂ R as as' ∧ List.Forall₂ R bs bs' := by
  have first := List.forall₂_take as.length h
  have rest := List.forall₂_drop as.length h
  rw [List.take_left, ← size, List.take_left] at first
  rw [List.drop_left, ← size, List.drop_left] at rest
  exact ⟨first, rest⟩

theorem optionRel_of_forall₂ {α β : Type} {R : Node → Node → Prop} {f : α → Node} {g : β → Node}
    {o : Option α} {o' : Option β} (h : List.Forall₂ R (o.toList.map f) (o'.toList.map g)) :
    Option.Rel (fun a b => R (f a) (g b)) o o' := by
  cases o <;> cases o'
  · exact .none
  · cases h
  · cases h
  · cases h with
    | cons related => exact .some related

theorem optionRel_imp {α β : Type} {R S : α → β → Prop} (weaker : ∀ a b, R a b → S a b) {o : Option α}
    {o' : Option β} (h : Option.Rel R o o') : Option.Rel S o o' := by
  cases h with
  | none => exact .none
  | some related => exact .some (weaker _ _ related)

/-- One form of statements over parts that are related, slot by slot. Of methods and classes
it says nothing. -/
inductive StmtForm.Related (r : Node → Node → Prop) :
    StmtForm Expr Variable Stmt Block → StmtForm Expr Variable Stmt Block → Prop where
  | declare {decl decl' : Declaration Variable}
      (vars : List.Forall₂ (fun v v' => r (.var v) (.var v')) decl.vars decl'.vars) :
      Related r (.declare decl) (.declare decl')
  | expr {e e' : Expr} (related : r (.expr e) (.expr e')) : Related r (.expr e) (.expr e')
  | ifElse {condition condition' : Expr} {onTrue onTrue' : Stmt} {onFalse onFalse' : Option Stmt}
      (tested : r (.expr condition) (.expr condition')) (yes : r (.stmt onTrue) (.stmt onTrue'))
      (no : Option.Rel (fun s s' => r (.stmt s) (.stmt s')) onFalse onFalse') :
      Related r (.ifElse condition onTrue onFalse) (.ifElse condition' onTrue' onFalse')
  | whileLoop {condition condition' : Expr} {body body' : Stmt}
      (tested : r (.expr condition) (.expr condition')) (inside : r (.stmt body) (.stmt body')) :
      Related r (.whileLoop condition body) (.whileLoop condition' body')
  | forLoop {init init' : List Stmt} {condition condition' : Option Expr} {update update' : List Expr}
      {body body' : Stmt} (starts : List.Forall₂ (fun s s' => r (.stmt s) (.stmt s')) init init')
      (tested : Option.Rel (fun e e' => r (.expr e) (.expr e')) condition condition')
      (updates : List.Forall₂ (fun e e' => r (.expr e) (.expr e')) update update')
      (inside : r (.stmt body) (.stmt body')) :
      Related r (.forLoop init condition update body) (.forLoop init' condition' update' body')
  | forEach (typeName : String) {item item' : Variable} {iterable iterable' : Expr} {body body' : Stmt}
      (items : r (.var item) (.var item')) (walked : r (.expr iterable) (.expr iterable'))
      (inside : r (.stmt body) (.stmt body')) :
      Related r (.forEach typeName item iterable body) (.forEach typeName item' iterable' body')
  | tryCatch {resources resources' : List (Declaration Variable)} {body body' : Block}
      {catches catches' : List (CatchClause Variable Block)} {finish finish' : Option Block}
      (opened : List.Forall₂ (fun v v' => r (.var v) (.var v'))
        (resources.flatMap (·.vars)) (resources'.flatMap (·.vars)))
      (tried : r (.block body) (.block body'))
      (caught : List.Forall₂ (fun c c' => r (.var c.parameter) (.var c'.parameter) ∧
        r (.block c.body) (.block c'.body)) catches catches')
      (last : Option.Rel (fun b b' => r (.block b) (.block b')) finish finish') :
      Related r (.tryCatch resources body catches finish) (.tryCatch resources' body' catches' finish')
  | block {body body' : Block} (inside : r (.block body) (.block body')) :
      Related r (.block body) (.block body')
  | returnStmt {value value' : Option Expr}
      (related : Option.Rel (fun e e' => r (.expr e) (.expr e')) value value') :
      Related r (.returnStmt value) (.returnStmt value')
  | throwStmt {value value' : Expr} (related : r (.expr value) (.expr value')) :
      Related r (.throwStmt value) (.throwStmt value')
  | breakStmt : Related r .breakStmt .breakStmt
  | continueStmt : Related r .continueStmt .continueStmt
  | method (head head' : MethodHead) (body body' : Option Block) :
      Related r (.method head body) (.method head' body')
  | cls (head head' : ClassHead) (body body' : Block) : Related r (.cls head body) (.cls head' body')

theorem Node.clauses_related {r : Node → Node → Prop} {catches catches' : List (CatchClause Variable Block)}
    (size : catches'.length = catches.length)
    (h : List.Forall₂ r (catches.flatMap (·.children)) (catches'.flatMap (·.children))) :
    List.Forall₂ (fun c c' => r (.var c.parameter) (.var c'.parameter) ∧
      r (.block c.body) (.block c'.body)) catches catches' := by
  induction catches generalizing catches' with
  | nil =>
    cases List.length_eq_zero_iff.mp size
    exact .nil
  | cons c catches ih =>
    obtain ⟨c', catches', rfl⟩ := List.exists_cons_of_length_eq_add_one size
    rw [List.flatMap_cons, List.flatMap_cons] at h
    have pair : c'.children.length = c.children.length := rfl
    obtain ⟨first, rest⟩ := forall₂_append_split pair h
    obtain ⟨parameter, first⟩ := List.forall₂_cons.mp first
    exact .cons ⟨parameter, (List.forall₂_cons.mp first).1⟩ (ih (Nat.succ.inj size) rest)

/-- Statements of one label whose parts are related. -/
theorem StmtForm.related_of_label {r : Node → Node → Prop} {s s' : Stmt}
    (label : (Node.stmt s').label = (Node.stmt s).label)
    (children : List.Forall₂ r (Node.stmt s).children (Node.stmt s').children) :
    Related r s.form s'.form := by
  obtain ⟨id, form⟩ := s
  obtain ⟨id', form'⟩ := s'
  have blank : form'.blank = form.blank := Node.Label.stmt.inj label
  change List.Forall₂ r (Stmt.children ⟨id, form⟩) (Stmt.children ⟨id', form'⟩) at children
  cases form <;> cases form' <;> simp only [StmtForm.blank, reduceCtorEq] at blank
  case declare decl decl' =>
    change List.Forall₂ r (decl.vars.map Node.var) (decl'.vars.map Node.var) at children
    rw [List.forall₂_map_left_iff, List.forall₂_map_right_iff] at children
    exact .declare children
  case expr => exact .expr (List.forall₂_cons.mp children).1
  case ifElse =>
    obtain ⟨tested, children⟩ := List.forall₂_cons.mp children
    obtain ⟨yes, children⟩ := List.forall₂_cons.mp children
    exact .ifElse tested yes (optionRel_of_forall₂ children)
  case whileLoop =>
    obtain ⟨tested, children⟩ := List.forall₂_cons.mp children
    exact .whileLoop tested (List.forall₂_cons.mp children).1
  case forLoop init condition update body init' condition' update' body' =>
    obtain ⟨inits, conditions, updates, -⟩ := StmtForm.forLoop.inj blank
    change List.Forall₂ r
      (init.map Node.stmt ++ condition.toList.map Node.expr ++ update.map Node.expr ++ [.stmt body])
      (init'.map Node.stmt ++ condition'.toList.map Node.expr ++ update'.map Node.expr ++ [.stmt body'])
      at children
    simp only [List.append_assoc] at children
    have starts : init'.length = init.length := by simpa using congrArg List.length inits
    have steps : update'.length = update.length := by simpa using congrArg List.length updates
    have tested : condition'.toList.length = condition.toList.length := by
      cases condition <;> cases condition' <;> simp at conditions ⊢
    obtain ⟨first, children⟩ := forall₂_append_split (by simpa using starts) children
    obtain ⟨second, children⟩ := forall₂_append_split (by simpa using tested) children
    obtain ⟨third, children⟩ := forall₂_append_split (by simpa using steps) children
    rw [List.forall₂_map_left_iff, List.forall₂_map_right_iff] at first third
    exact .forLoop first (optionRel_of_forall₂ second) third (List.forall₂_cons.mp children).1
  case forEach =>
    obtain ⟨rfl, -⟩ := StmtForm.forEach.inj blank
    obtain ⟨items, children⟩ := List.forall₂_cons.mp children
    obtain ⟨walked, children⟩ := List.forall₂_cons.mp children
    exact .forEach _ items walked (List.forall₂_cons.mp children).1
  case tryCatch resources body catches finish resources' body' catches' finish' =>
    obtain ⟨blanks, -, clauses, -⟩ := StmtForm.tryCatch.inj blank
    have vars (decls : List (Declaration Variable)) :
        decls.flatMap (·.children) = (decls.flatMap (·.vars)).map Node.var := by
      rw [List.map_flatMap]
      rfl
    have count (decls : List (Declaration Variable)) : (decls.flatMap (·.vars)).length =
        ((decls.map (·.map fun _ => ())).map (·.vars.length)).sum := by
      simp [List.length_flatMap, Declaration.map, Function.comp_def]
    have opened : (resources'.flatMap (·.vars)).length = (resources.flatMap (·.vars)).length := by
      rw [count, count, blanks]
    have caught : catches'.length = catches.length := by simpa using congrArg List.length clauses
    have handlers (clauses : List (CatchClause Variable Block)) :
        (clauses.flatMap (·.children)).length = 2 * clauses.length := by
      simp [CatchClause.children, List.length_flatMap, Nat.mul_comm]
    change List.Forall₂ r (resources.flatMap (·.children) ++ [.block body] ++
      catches.flatMap (·.children) ++ finish.toList.map Node.block) (resources'.flatMap (·.children) ++
        [.block body'] ++ catches'.flatMap (·.children) ++ finish'.toList.map Node.block) at children
    simp only [List.append_assoc, List.singleton_append] at children
    rw [vars, vars] at children
    obtain ⟨first, children⟩ := forall₂_append_split (by simpa using opened) children
    obtain ⟨tried, children⟩ := List.forall₂_cons.mp children
    obtain ⟨second, children⟩ := forall₂_append_split (by rw [handlers, handlers, caught]) children
    rw [List.forall₂_map_left_iff, List.forall₂_map_right_iff] at first
    exact .tryCatch first tried (Node.clauses_related caught second) (optionRel_of_forall₂ children)
  case block => exact .block (List.forall₂_cons.mp children).1
  case returnStmt => exact .returnStmt (optionRel_of_forall₂ children)
  case throwStmt => exact .throwStmt (List.forall₂_cons.mp children).1
  case breakStmt => exact .breakStmt
  case continueStmt => exact .continueStmt
  case method => exact .method ..
  case cls => exact .cls ..

/-! ## Alike trees -/

/-- Trees are alike if their labels are equal and their children alike. -/
theorem Node.alike_iff {a b : Node} : a.alike b = true ↔
    a.label = b.label ∧ List.Forall₂ (fun c d => Node.alike c d = true) a.children b.children := by
  rw [Node.alike]
  simp only [Bool.and_eq_true, beq_iff_eq, List.all_eq_true, List.forall₂_iff_get, and_assoc]
  refine and_congr_right fun _ => and_congr_right fun lengths => ⟨fun all i hi hi' => ?_, ?_⟩
  · refine all ⟨⟨a.children[i], List.getElem_mem hi⟩, b.children[i]⟩ ?_
    exact List.mem_iff_getElem.mpr ⟨i, by simp; omega, by simp⟩
  · rintro pairs ⟨⟨c, hc⟩, d⟩ mem
    obtain ⟨i, hi, at_⟩ := List.mem_iff_getElem.mp mem
    rw [List.length_zip, List.length_attach] at hi
    simp only [List.getElem_zip, List.getElem_attach, Prod.mk.injEq, Subtype.mk.injEq] at at_
    obtain ⟨rfl, rfl⟩ := at_
    exact pairs i (by omega) (by omega)

namespace Node

variable {a b c : Node}

theorem alike_symm (h : a.alike b = true) : b.alike a = true := by
  induction a using inductionOn generalizing b with
  | step a ih =>
    rw [alike_iff] at h ⊢
    obtain ⟨label, children⟩ := h
    refine ⟨label.symm, List.Forall₂.flip ?_⟩
    rw [List.forall₂_iff_zip] at children ⊢
    refine ⟨children.1, fun mem => ih _ (List.of_mem_zip mem).1 (children.2 mem)⟩

theorem alike_trans (first : a.alike b = true) (second : b.alike c = true) :
    a.alike c = true := by
  induction a using inductionOn generalizing b c with
  | step a ih =>
    rw [alike_iff] at first second ⊢
    obtain ⟨label, children⟩ := first
    obtain ⟨label', children'⟩ := second
    refine ⟨label.trans label', ?_⟩
    rw [List.forall₂_iff_get] at children children' ⊢
    refine ⟨children.1.trans children'.1, fun i hi hk => ?_⟩
    have hj : i < b.children.length := children.1 ▸ hi
    exact ih _ (List.getElem_mem hi) (children.2 i hi hj) (children'.2 i hj hk)

/-- Nodes that are alike have alike nodes in them. -/
theorem exists_alike_of_mem (h : a.alike b = true) {m : Node} (mem : m ∈ a.subtree) :
    ∃ m' ∈ b.subtree, m.alike m' = true := by
  induction a using inductionOn generalizing b with
  | step a ih =>
    rw [subtree_eq, List.mem_cons, List.mem_flatMap] at mem
    rcases mem with rfl | ⟨c, hc, mem⟩
    · exact ⟨b, mem_subtree_self, h⟩
    · obtain ⟨i, hi, rfl⟩ := List.mem_iff_getElem.mp hc
      have children := List.forall₂_iff_get.mp (alike_iff.mp h).2
      have hj : i < b.children.length := children.1 ▸ hi
      obtain ⟨m', mem', alike⟩ := ih _ hc (children.2 i hi hj) mem
      exact ⟨m', mem_subtree_of_child (List.getElem_mem hj) mem', alike⟩

end Node

end JavaMend
