import JavaMend.Proofs.Tree.Lens
import JavaMend.Proofs.Tree.Places

/-!
# Reading and refilling

`Node.children` takes a node apart and `Node.withChildren` puts it together again, each by its
own case analysis. Together they are a lens (`Node.withChildren_lens`): what is read back is
what was put in, putting back what was read changes nothing (`Node.withChildren_self`), and what
is no child stays as it is whatever is handed out.

The proofs go slot by slot: `SlotM.Restores` says that an action which is handed what its slots
held gives back what they were the slots of, and `SlotM.Shapes` what the answer has in common
with that whatever the action is handed.

That the label holds everything but the children is the other half of it: a node is known by its
id, its label and its children (`Node.eq_of_parts`), so there is only one node that refilling
can come to.
-/

namespace JavaMend

/-! ## Putting children back -/

namespace SlotM

variable {ν α β : Type} {put : α → ν} {view : ν → Option α}

/-- Handed the children `olds`, the action takes these and gives back `old`. -/
def Restores (olds : List ν) (old : α) (action : SlotM ν α) : Prop :=
  ∀ rest, action (olds ++ rest) = (old, rest)

theorem Restores.pure {a : α} : Restores ([] : List ν) a (Pure.pure a) := fun _ => rfl

theorem Restores.bind {olds more : List ν} {a : α} {b : β} {first : SlotM ν α}
    {next : α → SlotM ν β} (h : Restores olds a first) (h' : Restores more b (next a)) :
    Restores (olds ++ more) b (first >>= next) := by
  intro rest
  show StateT.bind first next (olds ++ more ++ rest) = (b, rest)
  rw [StateT.bind, List.append_assoc, h]
  exact h' rest

theorem Restores.map {olds : List ν} {a : α} {action : SlotM ν α} (h : Restores olds a action)
    (f : α → β) : Restores olds (f a) (action >>= fun a => Pure.pure (f a)) := by
  intro rest
  show StateT.bind action _ (olds ++ rest) = (f a, rest)
  rw [StateT.bind, h]
  rfl

theorem Restores.slot (back : ∀ a, view (put a) = some a) (old : α) :
    Restores [put old] old (SlotM.slot view old) := by
  intro rest
  show ((view (put old)).getD old, rest) = (old, rest)
  rw [back]
  rfl

theorem Restores.slots (back : ∀ a, view (put a) = some a) (olds : List α) :
    Restores (olds.map put) olds (SlotM.slots view olds) := by
  induction olds with
  | nil => exact .pure
  | cons old olds ih => exact (Restores.slot back old).bind (ih.map _)

theorem Restores.slot? (back : ∀ a, view (put a) = some a) (old : Option α) :
    Restores (old.toList.map put) old (SlotM.slot? view old) := by
  cases old with
  | none => exact .pure
  | some old => exact (Restores.slot back old).map _

theorem Restores.fill {olds : List ν} {old : α} {action : SlotM ν α}
    (h : Restores olds old action) : action.fill olds = old := by
  have whole := h []
  rw [List.append_nil] at whole
  exact congrArg Prod.fst whole

end SlotM

open SlotM

/-! ## Expressions -/

theorem ExprForm.refill_restores (form : ExprForm Expr) :
    Restores form.children form form.refill := by
  have back : ∀ e : Expr, some (id e) = some e := fun _ => rfl
  have list : ∀ es : List Expr, es.map id = es := List.map_id
  have option : ∀ e : Option Expr, e.toList.map id = e.toList := fun e => list e.toList
  cases form with
  | ident => exact .pure
  | literal => exact .pure
  | field target => exact (Restores.slot back target).map _
  | call receiver name args method =>
    have receivers := Restores.slot? back receiver
    have rest := Restores.slots back args
    rw [option] at receivers
    rw [list] at rest
    exact receivers.bind (rest.map _)
  | create className args =>
    have all := Restores.slots back args
    rw [list] at all
    exact all.map _
  | array element size => exact (Restores.slot back size).map _
  | binary op left right => exact (Restores.slot back left).bind ((Restores.slot back right).map _)
  | unary op operand => exact (Restores.slot back operand).map _
  | assign op target value =>
    exact (Restores.slot back target).bind ((Restores.slot back value).map _)
  | parens inner => exact (Restores.slot back inner).map _
  | cast typeName operand => exact (Restores.slot back operand).map _
  | ternary condition onTrue onFalse =>
    exact (Restores.slot back condition).bind
      ((Restores.slot back onTrue).bind ((Restores.slot back onFalse).map _))

/-! ## Statements -/

theorem Node.var?_var (v : Variable) : var? (var v) = some v := rfl

theorem Node.block?_block (b : Block) : block? (block b) = some b := rfl

theorem Node.stmt?_stmt (s : Stmt) : stmt? (stmt s) = some s := rfl

theorem Node.expr?_expr (e : Expr) : expr? (expr e) = some e := rfl

theorem Declaration.refill_restores (decl : Declaration Variable) :
    Restores decl.children decl decl.refill :=
  (Restores.slots Node.var?_var decl.vars).map
    (Declaration.mk decl.modifiers decl.typeName)

theorem Declaration.refillAll_restores (decls : List (Declaration Variable)) :
    Restores (decls.flatMap (·.children)) decls (refillAll decls) := by
  induction decls with
  | nil => exact .pure
  | cons decl decls ih => exact decl.refill_restores.bind (ih.map _)

theorem CatchClause.refill_restores (clause : CatchClause Variable Block) :
    Restores clause.children clause clause.refill :=
  (Restores.slot Node.var?_var clause.parameter).bind
    ((Restores.slot Node.block?_block clause.body).map _)

theorem CatchClause.refillAll_restores (clauses : List (CatchClause Variable Block)) :
    Restores (clauses.flatMap (·.children)) clauses (refillAll clauses) := by
  induction clauses with
  | nil => exact .pure
  | cons clause clauses ih => exact clause.refill_restores.bind (ih.map _)

theorem Stmt.refill_restores (stmt : Stmt) : Restores stmt.children stmt.form stmt.refill := by
  have exprs := Node.expr?_expr
  have stmts := Node.stmt?_stmt
  have blocks := Node.block?_block
  obtain ⟨id, form⟩ := stmt
  cases form with
  | declare decl => exact decl.refill_restores.map _
  | expr e => exact (Restores.slot exprs e).map _
  | ifElse condition onTrue onFalse =>
    exact (Restores.slot exprs condition).bind
      ((Restores.slot stmts onTrue).bind ((Restores.slot? stmts onFalse).map _))
  | whileLoop condition body =>
    exact (Restores.slot exprs condition).bind ((Restores.slot stmts body).map _)
  | forLoop init condition update body =>
    show Restores (init.map Node.stmt ++ condition.toList.map Node.expr ++ update.map Node.expr ++
      [Node.stmt body]) _ _
    rw [List.append_assoc, List.append_assoc]
    exact (Restores.slots stmts init).bind ((Restores.slot? exprs condition).bind
      ((Restores.slots exprs update).bind ((Restores.slot stmts body).map _)))
  | forEach typeName item iterable body =>
    exact (Restores.slot Node.var?_var item).bind
      ((Restores.slot exprs iterable).bind ((Restores.slot stmts body).map _))
  | tryCatch resources body catches finish =>
    show Restores (resources.flatMap (·.children) ++ [Node.block body] ++
      catches.flatMap (·.children) ++ finish.toList.map Node.block) _ _
    rw [List.append_assoc, List.append_assoc]
    exact (Declaration.refillAll_restores resources).bind ((Restores.slot blocks body).bind
      ((CatchClause.refillAll_restores catches).bind ((Restores.slot? blocks finish).map _)))
  | block body => exact (Restores.slot blocks body).map _
  | returnStmt value => exact (Restores.slot? exprs value).map _
  | throwStmt value => exact (Restores.slot exprs value).map _
  | breakStmt => exact .pure
  | continueStmt => exact .pure
  | method head body => exact (Restores.slot? blocks body).map _
  | cls head body => exact (Restores.slot blocks body).map _

/-! ## Nodes -/

/-- A node around the children it has. -/
theorem Node.withChildren_self (n : Node) : n.withChildren n.id n.children = n := by
  cases n with
  | unit u =>
    have back := (Restores.slots (fun _ => rfl : ∀ c, cls? (cls c) = some c) u.classes).fill
    exact congrArg (fun classes => unit { u with classes }) back
  | cls c =>
    have back := (Restores.slot block?_block c.body).fill
    exact congrArg (fun body => cls { c with body }) back
  | block b =>
    obtain ⟨id, isStatic, stmts⟩ := b
    have back := (Restores.slots stmt?_stmt stmts).fill
    exact congrArg (fun stmts => block ⟨id, isStatic, stmts⟩) back
  | stmt s =>
    obtain ⟨id, form⟩ := s
    exact congrArg (fun form => stmt ⟨id, form⟩) (Stmt.refill_restores ⟨id, form⟩).fill
  | var v =>
    have back := (Restores.slot? expr?_expr v.init).fill
    exact congrArg (fun init => var { v with init }) back
  | expr e =>
    obtain ⟨id, ty, form⟩ := e
    have parts : (form.children.map expr).filterMap expr? = form.children := by
      rw [List.filterMap_map]
      exact List.filterMap_some
    show expr ⟨id, ty, form.refill.fill ((form.children.map expr).filterMap expr?)⟩ = _
    rw [parts]
    exact congrArg (fun form => expr ⟨id, ty, form⟩) form.refill_restores.fill

/-! ## What stays, whatever is handed out -/

namespace SlotM

variable {ν α β γ δ : Type} {shape : α → γ} {shape' : β → δ} {c : γ} {d : δ}

/-- Whatever is handed out, the answer has the shape `c`. -/
def Shapes (shape : α → γ) (c : γ) (action : SlotM ν α) : Prop := ∀ news, shape (action news).1 = c

theorem Shapes.pure {a : α} (h : shape a = c) : Shapes (ν := ν) shape c (Pure.pure a) := fun _ => h

theorem Shapes.bind {first : SlotM ν α} {next : α → SlotM ν β} (h : Shapes shape c first)
    (h' : ∀ a, shape a = c → Shapes shape' d (next a)) : Shapes shape' d (first >>= next) :=
  fun news => h' _ (h news) (first news).2

theorem Shapes.map {action : SlotM ν α} (f : α → β) (h : Shapes shape c action)
    (imp : ∀ a, shape a = c → shape' (f a) = d) :
    Shapes shape' d (action >>= fun a => Pure.pure (f a)) :=
  h.bind fun a holds => .pure (imp a holds)

theorem Shapes.slot (view : ν → Option α) (old : α) :
    Shapes (fun _ => ()) () (SlotM.slot view old) := fun _ => rfl

theorem Shapes.slots (view : ν → Option α) (olds : List α) :
    Shapes (List.map fun _ => ()) (olds.map fun _ => ()) (SlotM.slots view olds) := by
  induction olds with
  | nil => exact .pure rfl
  | cons old olds ih =>
    exact (Shapes.slot view old).bind fun _ _ => ih.map _ fun _ others => congrArg (() :: ·) others

theorem Shapes.slot? (view : ν → Option α) (old : Option α) :
    Shapes (Option.map fun _ => ()) (old.map fun _ => ()) (SlotM.slot? view old) := by
  cases old with
  | none => exact .pure rfl
  | some old => exact (Shapes.slot view old).map _ fun _ _ => rfl

end SlotM

open SlotM

theorem ExprForm.refill_shapes (form : ExprForm Expr) :
    Shapes (ExprForm.map fun _ => ()) (form.map fun _ => ()) form.refill := by
  have one := Shapes.slot (some : Expr → Option Expr)
  cases form with
  | ident => exact .pure rfl
  | literal => exact .pure rfl
  | field target => exact (one target).map _ fun _ _ => rfl
  | call receiver name args method =>
    refine (Shapes.slot? some receiver).bind fun r receivers => ?_
    refine (Shapes.slots some args).map _ fun as rest => ?_
    show call _ name _ method = call _ name _ method
    rw [receivers, rest]
  | create className args method =>
    refine (Shapes.slots some args).map _ fun as rest => ?_
    show create className _ method = create className _ method
    rw [rest]
  | array element size => exact (one size).map _ fun _ _ => rfl
  | binary op left right =>
    exact (one left).bind fun _ _ => (one right).map _ fun _ _ => rfl
  | unary op operand => exact (one operand).map _ fun _ _ => rfl
  | assign op target value =>
    exact (one target).bind fun _ _ => (one value).map _ fun _ _ => rfl
  | parens inner => exact (one inner).map _ fun _ _ => rfl
  | cast typeName operand => exact (one operand).map _ fun _ _ => rfl
  | ternary condition onTrue onFalse =>
    exact (one condition).bind fun _ _ => (one onTrue).bind fun _ _ =>
      (one onFalse).map _ fun _ _ => rfl

theorem Declaration.refill_shapes (decl : Declaration Variable) :
    Shapes (Declaration.map fun _ => ()) (decl.map fun _ => ()) decl.refill := by
  refine (Shapes.slots Node.var? decl.vars).map _ fun vars held => ?_
  show Declaration.mk _ _ _ = Declaration.mk _ _ _
  rw [held]

theorem Declaration.refillAll_shapes (decls : List (Declaration Variable)) :
    Shapes (List.map (Declaration.map fun _ => ())) (decls.map (Declaration.map fun _ => ()))
      (refillAll decls) := by
  induction decls with
  | nil => exact .pure rfl
  | cons decl decls ih =>
    exact decl.refill_shapes.bind fun _ first => ih.map _ fun _ others =>
      congrArg₂ List.cons first others

theorem CatchClause.refill_shapes (clause : CatchClause Variable Block) :
    Shapes (CatchClause.map (fun _ => ()) fun _ => ()) (clause.map (fun _ => ()) fun _ => ())
      clause.refill :=
  (Shapes.slot Node.var? clause.parameter).bind fun _ _ =>
    (Shapes.slot Node.block? clause.body).map _ fun _ _ => rfl

theorem CatchClause.refillAll_shapes (clauses : List (CatchClause Variable Block)) :
    Shapes (List.map (CatchClause.map (fun _ => ()) fun _ => ()))
      (clauses.map (CatchClause.map (fun _ => ()) fun _ => ())) (refillAll clauses) := by
  induction clauses with
  | nil => exact .pure rfl
  | cons clause clauses ih =>
    exact clause.refill_shapes.bind fun _ first => ih.map _ fun _ others =>
      congrArg₂ List.cons first others

theorem Stmt.refill_shapes (stmt : Stmt) :
    Shapes StmtForm.blank stmt.form.blank stmt.refill := by
  have expr := Shapes.slot Node.expr?
  have inner := Shapes.slot Node.stmt?
  have braces := Shapes.slot Node.block?
  obtain ⟨id, form⟩ := stmt
  cases form with
  | declare decl =>
    exact decl.refill_shapes.map _ fun _ held => congrArg StmtForm.declare held
  | expr e => exact (expr e).map _ fun _ _ => rfl
  | ifElse condition onTrue onFalse =>
    refine (expr condition).bind fun _ _ => (inner onTrue).bind fun _ _ => ?_
    exact (Shapes.slot? Node.stmt? onFalse).map _ fun _ held =>
      congrArg (StmtForm.ifElse () ()) held
  | whileLoop condition body =>
    exact (expr condition).bind fun _ _ => (inner body).map _ fun _ _ => rfl
  | forLoop init condition update body =>
    refine (Shapes.slots Node.stmt? init).bind fun inits first => ?_
    refine (Shapes.slot? Node.expr? condition).bind fun c second => ?_
    refine (Shapes.slots Node.expr? update).bind fun updates third => ?_
    refine (inner body).map _ fun _ _ => ?_
    show StmtForm.forLoop _ _ _ () = StmtForm.forLoop _ _ _ ()
    rw [first, second, third]
  | forEach typeName item iterable body =>
    exact (Shapes.slot Node.var? item).bind fun _ _ => (expr iterable).bind fun _ _ =>
      (inner body).map _ fun _ _ => rfl
  | tryCatch resources body catches finish =>
    refine (Declaration.refillAll_shapes resources).bind fun declared first => ?_
    refine (braces body).bind fun _ _ => ?_
    refine (CatchClause.refillAll_shapes catches).bind fun caught second => ?_
    refine (Shapes.slot? Node.block? finish).map _ fun last third => ?_
    show StmtForm.tryCatch _ () _ _ = StmtForm.tryCatch _ () _ _
    exact congr (congrArg₂ (StmtForm.tryCatch · () ·) first second) third
  | block body => exact (braces body).map _ fun _ _ => rfl
  | returnStmt value =>
    exact (Shapes.slot? Node.expr? value).map _ fun _ held => congrArg StmtForm.returnStmt held
  | throwStmt value => exact (expr value).map _ fun _ _ => rfl
  | breakStmt => exact .pure rfl
  | continueStmt => exact .pure rfl
  | method head body =>
    exact (Shapes.slot? Node.block? body).map _ fun _ held => congrArg (StmtForm.method head) held
  | cls head body => exact (braces body).map _ fun _ _ => rfl

/-- The label stays, even if too few or too many children are handed out or some that do not
fit. -/
theorem Node.label_withChildren (n : Node) (id : NodeId) (news : List Node) :
    (n.withChildren id news).label = n.label := by
  cases n with
  | stmt s => exact congrArg Label.stmt (s.refill_shapes news)
  | expr e => exact congrArg (Label.expr e.ty) (e.form.refill_shapes (news.filterMap expr?))
  | _ => rfl

/-! ## What a node is known by -/

section Parts

variable {α β : Type} {put : α → β} (inj : Function.Injective put)

include inj

/-- Children in a run of slots, with others after them, tell the runs apart if these are of one
length. -/
theorem slots_inj {olds olds' : List α} {more more' : List β}
    (blank : (olds.map fun _ => ()) = olds'.map fun _ => ())
    (children : olds.map put ++ more = olds'.map put ++ more') : olds = olds' ∧ more = more' := by
  have lengths : (olds.map put).length = (olds'.map put).length := by
    simpa using congrArg List.length blank
  obtain ⟨first, rest⟩ := List.append_inj children lengths
  exact ⟨List.map_injective_iff.mpr inj first, rest⟩

theorem slot?_inj {old old' : Option α} {more more' : List β}
    (blank : (old.map fun _ => ()) = old'.map fun _ => ())
    (children : old.toList.map put ++ more = old'.toList.map put ++ more') :
    old = old' ∧ more = more' := by
  cases old <;> cases old' <;> simp at blank children ⊢
  · exact children
  · exact ⟨inj children.1, children.2⟩

end Parts

namespace Node

theorem stmt_injective : Function.Injective stmt := fun _ _ => stmt.inj

theorem expr_injective : Function.Injective expr := fun _ _ => expr.inj

theorem block_injective : Function.Injective block := fun _ _ => block.inj

theorem var_injective : Function.Injective var := fun _ _ => var.inj

theorem cls_injective : Function.Injective cls := fun _ _ => cls.inj

end Node

theorem Declaration.eq_of_parts {decl decl' : Declaration Variable} {more more' : List Node}
    (blank : (decl.map fun _ => ()) = decl'.map fun _ => ())
    (children : decl.children ++ more = decl'.children ++ more') : decl = decl' ∧ more = more' := by
  obtain ⟨modifiers, typeName, vars⟩ := decl
  obtain ⟨modifiers', typeName', vars'⟩ := decl'
  obtain ⟨rfl, rfl, lengths⟩ := Declaration.mk.inj blank
  obtain ⟨rfl, rest⟩ := slots_inj Node.var_injective lengths children
  exact ⟨rfl, rest⟩

theorem Declaration.all_eq_of_parts {decls decls' : List (Declaration Variable)}
    {more more' : List Node}
    (blank : decls.map (·.map fun _ => ()) = decls'.map (·.map fun _ => ()))
    (children : decls.flatMap (·.children) ++ more = decls'.flatMap (·.children) ++ more') :
    decls = decls' ∧ more = more' := by
  induction decls generalizing decls' with
  | nil =>
    cases decls' with
    | nil => exact ⟨rfl, children⟩
    | cons => cases blank
  | cons decl decls ih =>
    cases decls' with
    | nil => cases blank
    | cons decl' decls' =>
      obtain ⟨first, others⟩ := List.cons.inj blank
      rw [List.flatMap_cons, List.flatMap_cons, List.append_assoc, List.append_assoc] at children
      obtain ⟨rfl, below⟩ := Declaration.eq_of_parts first children
      obtain ⟨rfl, rest⟩ := ih others below
      exact ⟨rfl, rest⟩

theorem CatchClause.all_eq_of_parts {clauses clauses' : List (CatchClause Variable Block)}
    {more more' : List Node}
    (blank : clauses.map (·.map (fun _ => ()) fun _ => ()) =
      clauses'.map (·.map (fun _ => ()) fun _ => ()))
    (children : clauses.flatMap (·.children) ++ more = clauses'.flatMap (·.children) ++ more') :
    clauses = clauses' ∧ more = more' := by
  induction clauses generalizing clauses' with
  | nil =>
    cases clauses' with
    | nil => exact ⟨rfl, children⟩
    | cons => cases blank
  | cons clause clauses ih =>
    cases clauses' with
    | nil => cases blank
    | cons clause' clauses' =>
      obtain ⟨first, others⟩ := List.cons.inj blank
      obtain ⟨names, types, parameter, body⟩ := clause
      obtain ⟨names', types', parameter', body'⟩ := clause'
      obtain ⟨rfl, rfl, -, -⟩ := CatchClause.mk.inj first
      obtain ⟨parameters, after⟩ := List.cons.inj children
      obtain ⟨bodies, below⟩ := List.cons.inj after
      obtain ⟨rfl, rest⟩ := ih others below
      cases parameters
      cases bodies
      exact ⟨rfl, rest⟩

/-- Statements of one label with the same children differ in their ids at most. -/
theorem Stmt.form_eq_of_parts {s s' : Stmt} (blank : s.form.blank = s'.form.blank)
    (children : s.children = s'.children) : s.form = s'.form := by
  obtain ⟨id, form⟩ := s
  obtain ⟨id', form'⟩ := s'
  -- Of two different forms the labels differ.
  cases form <;> cases form' <;> simp only [StmtForm.blank, reduceCtorEq] at blank
  case declare.declare decl decl' =>
    have parts := congrArg (· ++ []) children
    exact congrArg StmtForm.declare (Declaration.eq_of_parts (StmtForm.declare.inj blank) parts).1
  case expr.expr =>
    cases children
    rfl
  case ifElse.ifElse =>
    obtain ⟨-, -, last⟩ := StmtForm.ifElse.inj blank
    obtain ⟨conditions, after⟩ := List.cons.inj children
    obtain ⟨branches, below⟩ := List.cons.inj after
    obtain ⟨rfl, -⟩ := slot?_inj Node.stmt_injective last (congrArg (· ++ []) below)
    cases conditions
    cases branches
    rfl
  case whileLoop.whileLoop =>
    cases children
    rfl
  case forLoop.forLoop =>
    obtain ⟨inits, conditions, updates, -⟩ := StmtForm.forLoop.inj blank
    simp only [Stmt.children, List.append_assoc] at children
    obtain ⟨rfl, others⟩ := slots_inj Node.stmt_injective inits children
    obtain ⟨rfl, below⟩ := slot?_inj Node.expr_injective conditions others
    obtain ⟨rfl, last⟩ := slots_inj Node.expr_injective updates below
    cases last
    rfl
  case forEach.forEach =>
    obtain ⟨rfl, -⟩ := StmtForm.forEach.inj blank
    cases children
    rfl
  case tryCatch.tryCatch =>
    obtain ⟨resources, -, clauses, last⟩ := StmtForm.tryCatch.inj blank
    simp only [Stmt.children, List.append_assoc] at children
    obtain ⟨rfl, others⟩ := Declaration.all_eq_of_parts resources children
    obtain ⟨bodies, handlers⟩ := List.cons.inj others
    obtain ⟨rfl, below⟩ := CatchClause.all_eq_of_parts clauses handlers
    obtain ⟨rfl, -⟩ := slot?_inj Node.block_injective last (congrArg (· ++ []) below)
    cases bodies
    rfl
  case block.block =>
    cases children
    rfl
  case returnStmt.returnStmt =>
    have parts := congrArg (· ++ []) children
    exact congrArg StmtForm.returnStmt
      (slot?_inj Node.expr_injective (StmtForm.returnStmt.inj blank) parts).1
  case throwStmt.throwStmt =>
    cases children
    rfl
  case breakStmt.breakStmt => rfl
  case continueStmt.continueStmt => rfl
  case method.method =>
    obtain ⟨rfl, bodies⟩ := StmtForm.method.inj blank
    have parts := congrArg (· ++ []) children
    exact congrArg (StmtForm.method _) (slot?_inj Node.block_injective bodies parts).1
  case cls.cls =>
    obtain ⟨rfl, -⟩ := StmtForm.cls.inj blank
    cases children
    rfl

/-- Expressions of one label with the same sub-expressions differ in their ids at most. -/
theorem ExprForm.eq_of_parts {form form' : ExprForm Expr}
    (blank : (form.map fun _ => ()) = form'.map fun _ => ())
    (children : form.children = form'.children) : form = form' := by
  have same {es es' : List Expr} : List.Forall₂ Eq es es' ↔ es = es' := by
    rw [List.forall₂_eq_eq_eq]
  have related := related_iff.mpr ⟨blank.symm, same.mpr children⟩
  cases related with
  | call name method receivers args =>
    rw [same.mp args]
    cases receivers with
    | none => rfl
    | some receivers => rw [receivers]
  | create className method args => rw [same.mp args]
  | _ => simp_all

/-- A node is its id, its label and its children. -/
theorem Node.eq_of_parts {a b : Node} (id : a.id = b.id) (label : a.label = b.label)
    (children : a.children = b.children) : a = b := by
  -- Of two different variants the labels differ.
  cases a <;> cases b <;> simp only [Node.label, reduceCtorEq] at label
  case unit.unit u v =>
    obtain ⟨_, _, _, classes⟩ := u
    obtain ⟨_, _, _, classes'⟩ := v
    obtain ⟨rfl, rfl⟩ := Label.unit.inj label
    obtain rfl : classes = classes' := List.map_injective_iff.mpr cls_injective children
    cases id
    rfl
  case cls.cls c d =>
    obtain ⟨_, _, _⟩ := c
    obtain ⟨_, _, _⟩ := d
    cases label
    cases children
    cases id
    rfl
  case block.block b c =>
    obtain ⟨_, _, stmts⟩ := b
    obtain ⟨_, _, stmts'⟩ := c
    obtain rfl : stmts = stmts' := List.map_injective_iff.mpr stmt_injective children
    cases label
    cases id
    rfl
  case stmt.stmt s t =>
    have forms := Stmt.form_eq_of_parts (Label.stmt.inj label) children
    cases s
    cases t
    cases forms
    cases id
    rfl
  case var.var v w =>
    obtain ⟨_, _, _, init⟩ := v
    obtain ⟨_, _, _, init'⟩ := w
    have inits := List.map_injective_iff.mpr expr_injective children
    cases label
    cases id
    cases init <;> cases init' <;> cases inits <;> rfl
  case expr.expr e d =>
    obtain ⟨types, blank⟩ := Label.expr.inj label
    have forms := ExprForm.eq_of_parts blank (List.map_injective_iff.mpr expr_injective children)
    cases e
    cases d
    cases types
    cases forms
    cases id
    rfl

/-! ## The lens -/

namespace Node

variable {n : Node} {news : List Node}

/-- Children that stay of the variant they are of fit where they stand. -/
theorem fits_children (n : Node) : List.Forall₂ SameSort n.children n.children :=
  List.forall₂_same.mpr fun _ _ => rfl

/-- Whether children fit is a matter of their variants alone. -/
theorem fits_iff {olds : List Node} :
    List.Forall₂ SameSort olds news ↔ olds.map variant = news.map variant := by
  rw [← List.forall₂_eq_eq_eq, List.forall₂_map_left_iff, List.forall₂_map_right_iff]

theorem withChildren_alike (n : Node) (id : NodeId) :
    (n.withChildren id n.children).alike n = true := by
  have refilled := n.refilled_withChildren id n.fits_children
  refine alike_iff.mpr ⟨refilled.label, ?_⟩
  rw [refilled.children]
  exact List.forall₂_same.mpr fun c _ => alike_refl c

/-- What `withChildren` makes of a node and of replacements for its children, up to the id, which
it is handed too. -/
structure Lens (n : Node) (id : NodeId) (news : List Node) : Prop where
  /-- Putting back what was read changes nothing. -/
  restores : n.withChildren n.id n.children = n
  alike : (n.withChildren id n.children).alike n = true
  named : (n.withChildren id news).id = id
  /-- What was put in is read back. -/
  reads : (n.withChildren id news).children = news
  /-- What is no child stays, whatever is put in. -/
  keeps : ∀ others, (n.withChildren id others).label = n.label
  /-- The next replacements are put in as if there had been none before. -/
  forgets : ∀ id' others, List.Forall₂ SameSort n.children others →
    (n.withChildren id news).withChildren id' others = n.withChildren id' others
  /-- There is nothing else to a node. -/
  only : ∀ m : Node, m.id = id → m.label = n.label → m.children = news → m = n.withChildren id news

/-- Reading the children of a node and putting others of the same variants in their places is a
lens. -/
theorem withChildren_lens (n : Node) (id : NodeId) (news : List Node)
    (fits : List.Forall₂ SameSort n.children news) : n.Lens id news where
  restores := n.withChildren_self
  alike := n.withChildren_alike id
  named := n.id_withChildren id news
  reads := (n.refilled_withChildren id fits).children
  keeps := n.label_withChildren id
  forgets id' others fits' := by
    have refilled := n.refilled_withChildren id fits
    have refits : List.Forall₂ SameSort (n.withChildren id news).children others := by
      rw [refilled.children, fits_iff, ← fits_iff.mp fits]
      exact fits_iff.mp fits'
    have again := (n.withChildren id news).refilled_withChildren id' refits
    have once := n.refilled_withChildren id' fits'
    refine eq_of_parts ?_ ?_ ?_
    · rw [id_withChildren, id_withChildren]
    · rw [again.label, refilled.label, once.label]
    · rw [again.children, once.children]
  only m same label children := by
    have refilled := n.refilled_withChildren id fits
    refine eq_of_parts ?_ ?_ ?_
    · rw [same, id_withChildren]
    · rw [label, refilled.label]
    · rw [children, refilled.children]

/-- `try (Reader in) {} catch (IOException e) {} finally {}` -/
def emptyAttempt : Node :=
  .stmt ⟨0, .tryCatch [⟨[.final], "Reader", [⟨1, "in", .unknown, none⟩]⟩] ⟨2, false, []⟩
    [⟨["IOException"], [.unknown], ⟨3, "e", .unknown, none⟩, ⟨4, false, []⟩⟩] (some ⟨5, false, []⟩)⟩

/-- A resource, a body, the parameter and the body of a handler, and a last block. -/
def attemptParts : List Node :=
  [.var ⟨6, "out", .string, none⟩, .block ⟨7, false, [⟨8, .breakStmt⟩]⟩,
    .var ⟨9, "failure", .unknown, none⟩, .block ⟨10, false, [⟨11, .continueStmt⟩]⟩,
    .block ⟨12, false, [⟨13, .returnStmt none⟩]⟩]

theorem lens_emptyAttempt :
    List.Forall₂ SameSort emptyAttempt.children attemptParts ∧
      emptyAttempt.Lens 14 attemptParts := by
  have fits : List.Forall₂ SameSort emptyAttempt.children attemptParts :=
    .cons rfl (.cons rfl (.cons rfl (.cons rfl (.cons rfl .nil))))
  exact ⟨fits, withChildren_lens emptyAttempt 14 attemptParts fits⟩

end Node

end JavaMend
