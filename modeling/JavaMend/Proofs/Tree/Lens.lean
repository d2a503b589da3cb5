import JavaMend.Tree.Node
import Mathlib.Data.List.Forall2

/-!
# Children and labels

A node is its label and its children. Putting other children in their places
gives a node with exactly these children and the old label, if there are as many
as before and each is of the sort that its place can hold
(`Node.children_withChildren`, `Node.label_withChildren`).

The places are refilled one after the other, so the proof follows `SlotM`:
`SlotM.Refills` says that an action takes the replacements for some children and
leaves those of the children after them.
-/

namespace JavaMend

/-! ## Refilling -/

namespace SlotM

variable {ν α β : Type} {fits : ν → ν → Prop} {olds more : List ν}

/-- The action takes fitting replacements for `olds` off the front of the list;
its answer and the replacements satisfy `post`. -/
def Refills (fits : ν → ν → Prop) (olds : List ν) (post : α → List ν → Prop)
    (action : SlotM ν α) : Prop :=
  ∀ news rest, List.Forall₂ fits olds news →
    ∃ a, action (news ++ rest) = (a, rest) ∧ post a news

theorem Refills.pure {post : α → List ν → Prop} {a : α} (h : post a []) :
    Refills fits [] post (Pure.pure a) := by
  intro news rest fit
  cases fit
  exact ⟨a, rfl, h⟩

theorem Refills.bind {post : α → List ν → Prop} {post' : β → List ν → Prop} {first : SlotM ν α}
    {next : α → SlotM ν β} (h : Refills fits olds post first)
    (h' : ∀ a news, post a news →
      Refills fits more (fun b news' => post' b (news ++ news')) (next a)) :
    Refills fits (olds ++ more) post' (first >>= next) := by
  intro news rest fit
  have fit₁ := List.forall₂_take olds.length fit
  have fit₂ := List.forall₂_drop olds.length fit
  rw [List.take_left] at fit₁
  rw [List.drop_left] at fit₂
  obtain ⟨a, run₁, post₁⟩ := h _ (news.drop olds.length ++ rest) fit₁
  obtain ⟨b, run₂, post₂⟩ := h' a _ post₁ _ rest fit₂
  rw [← List.append_assoc, List.take_append_drop] at run₁
  rw [List.take_append_drop] at post₂
  refine ⟨b, ?_, post₂⟩
  show StateT.bind first next (news ++ rest) = (b, rest)
  rw [StateT.bind, run₁]
  exact run₂

theorem Refills.map {post : α → List ν → Prop} {post' : β → List ν → Prop} {action : SlotM ν α}
    (f : α → β) (h : Refills fits olds post action)
    (imp : ∀ a news, post a news → post' (f a) news) :
    Refills fits olds post' (action >>= fun a => Pure.pure (f a)) := by
  intro news rest fit
  obtain ⟨a, run, holds⟩ := h news rest fit
  refine ⟨f a, ?_, imp a news holds⟩
  show StateT.bind action _ (news ++ rest) = (f a, rest)
  rw [StateT.bind, run]
  rfl

/-- A slot for children of one sort: `put` makes a child of what the slot holds,
and `view` gets that back from every child that fits. -/
structure Slot (fits : ν → ν → Prop) (put : α → ν) (view : ν → Option α) : Prop where
  holds : ∀ old new, fits (put old) new → ∃ a, new = put a ∧ view new = some a

variable {put : α → ν} {view : ν → Option α}

theorem Refills.slot (place : Slot fits put view) (old : α) :
    Refills fits [put old] (fun a news => news = [put a]) (SlotM.slot view old) := by
  intro news rest fit
  cases fit with
  | cons fit none =>
    cases none
    obtain ⟨a, rfl, seen⟩ := place.holds old _ fit
    refine ⟨a, ?_, rfl⟩
    show ((view (put a)).getD old, rest) = (a, rest)
    rw [seen]
    rfl

theorem Refills.slots (place : Slot fits put view) (olds : List α) :
    Refills fits (olds.map put) (fun as news => news = as.map put ∧ as.length = olds.length)
      (SlotM.slots view olds) := by
  induction olds with
  | nil => exact .pure ⟨rfl, rfl⟩
  | cons old olds ih =>
    refine Refills.bind (.slot place old) fun a news first => ?_
    refine ih.map _ fun as news' rest => ⟨?_, congrArg (· + 1) rest.2⟩
    rw [first, rest.1]
    rfl

theorem Refills.slot? (place : Slot fits put view) (old : Option α) :
    Refills fits (old.toList.map put)
      (fun a news => news = a.toList.map put ∧ a.isSome = old.isSome) (SlotM.slot? view old) := by
  cases old with
  | none => exact .pure ⟨rfl, rfl⟩
  | some old => exact (Refills.slot place old).map _ fun a news held => ⟨held, rfl⟩

theorem Refills.fill {post : α → List ν → Prop} {action : SlotM ν α} {news : List ν}
    (h : Refills fits olds post action) (fit : List.Forall₂ fits olds news) :
    post (action.fill news) news := by
  obtain ⟨a, run, holds⟩ := h news [] fit
  rw [List.append_nil] at run
  have same : action.fill news = a := congrArg Prod.fst run
  rwa [same]

end SlotM

open SlotM

theorem blanks_eq {α : Type} {as bs : List α} (h : as.length = bs.length) :
    (as.map fun _ => ()) = bs.map fun _ => () := by
  rw [List.map_const', List.map_const', h]

theorem blank_eq {α : Type} {a b : Option α} (h : a.isSome = b.isSome) :
    (a.map fun _ => ()) = b.map fun _ => () := by
  cases a <;> cases b <;> simp_all

/-! ## Expressions -/

namespace ExprForm

/-- Any expression fits the place of another. -/
abbrev AnyFits (_ _ : Expr) : Prop := True

theorem slot_expr : Slot AnyFits id (some : Expr → Option Expr) :=
  ⟨fun _ new _ => ⟨new, rfl, rfl⟩⟩

/-- The form with other parts: these are its parts, and nothing else changes. -/
structure Refilled (form new : ExprForm Expr) (news : List Expr) : Prop where
  children : new.children = news
  blank : new.map (fun _ => ()) = form.map fun _ => ()

theorem refills (form : ExprForm Expr) :
    Refills AnyFits form.children form.Refilled form.refill := by
  cases form with
  | ident name owner => exact .pure ⟨rfl, rfl⟩
  | literal value => exact .pure ⟨rfl, rfl⟩
  | field target name =>
    exact (Refills.slot slot_expr target).map _ fun a news held => ⟨held.symm, rfl⟩
  | call receiver name args method =>
    have receivers := Refills.slot? slot_expr receiver
    have arguments := Refills.slots slot_expr args
    simp only [List.map_id_fun, id_eq] at receivers arguments
    refine receivers.bind fun r news first => ?_
    refine arguments.map _ fun as news' rest => ⟨?_, ?_⟩
    · rw [first.1, rest.1]
      rfl
    · show call _ name _ method = call _ name _ method
      rw [blank_eq first.2, blanks_eq rest.2]
  | create className args method =>
    have arguments := Refills.slots slot_expr args
    simp only [List.map_id_fun, id_eq] at arguments
    refine arguments.map _ fun as news held => ⟨held.1.symm, ?_⟩
    show create className _ method = create className _ method
    rw [blanks_eq held.2]
  | array element size =>
    exact (Refills.slot slot_expr size).map _ fun a news held => ⟨held.symm, rfl⟩
  | binary op left right =>
    refine (Refills.slot slot_expr left).bind fun a news first => ?_
    refine (Refills.slot slot_expr right).map _ fun b news' second => ⟨?_, rfl⟩
    rw [first, second]
    rfl
  | unary op operand =>
    exact (Refills.slot slot_expr operand).map _ fun a news held => ⟨held.symm, rfl⟩
  | assign op target value =>
    refine (Refills.slot slot_expr target).bind fun a news first => ?_
    refine (Refills.slot slot_expr value).map _ fun b news' second => ⟨?_, rfl⟩
    rw [first, second]
    rfl
  | parens inner =>
    exact (Refills.slot slot_expr inner).map _ fun a news held => ⟨held.symm, rfl⟩
  | cast typeName operand =>
    exact (Refills.slot slot_expr operand).map _ fun a news held => ⟨held.symm, rfl⟩
  | ternary condition onTrue onFalse =>
    refine (Refills.slot slot_expr condition).bind fun a news first => ?_
    refine (Refills.slot slot_expr onTrue).bind fun b news' second => ?_
    refine (Refills.slot slot_expr onFalse).map _ fun c news'' third => ⟨?_, rfl⟩
    rw [first, second, third]
    rfl

end ExprForm

/-- An expression with as many other parts has these parts and the old label. -/
theorem Expr.refilled_withChildren (e : Expr) (id : NodeId) {news : List Expr}
    (length : news.length = e.children.length) :
    e.form.Refilled (e.withChildren id news).form news := by
  refine e.form.refills.fill (List.forall₂_iff_zip.mpr ⟨length.symm, ?_⟩)
  intros
  trivial

/-! ## Nodes -/

namespace Node

/-- The variant of a node. Methods and nested classes are statements. -/
def variant : Node → NodeKind
  | unit _ => .unit
  | cls _ => .cls
  | block _ => .block
  | stmt _ => .stmt
  | var _ => .var
  | expr _ => .expr

/-- Two nodes of one variant. -/
abbrev SameSort (a b : Node) : Prop := a.variant = b.variant

theorem slot_cls : Slot SameSort cls cls? := ⟨fun _ new fit => by
  cases new with
  | cls c => exact ⟨c, rfl, rfl⟩
  | _ => cases fit⟩

theorem slot_block : Slot SameSort block block? := ⟨fun _ new fit => by
  cases new with
  | block b => exact ⟨b, rfl, rfl⟩
  | _ => cases fit⟩

theorem slot_stmt : Slot SameSort stmt stmt? := ⟨fun _ new fit => by
  cases new with
  | stmt s => exact ⟨s, rfl, rfl⟩
  | _ => cases fit⟩

theorem slot_var : Slot SameSort var var? := ⟨fun _ new fit => by
  cases new with
  | var v => exact ⟨v, rfl, rfl⟩
  | _ => cases fit⟩

theorem slot_expr : Slot SameSort expr expr? := ⟨fun _ new fit => by
  cases new with
  | expr e => exact ⟨e, rfl, rfl⟩
  | _ => cases fit⟩

end Node

open Node

theorem Declaration.refills (decl : Declaration Variable) :
    Refills SameSort decl.children
      (fun new news => news = new.children ∧ new.map (fun _ => ()) = decl.map fun _ => ())
      decl.refill := by
  refine (Refills.slots slot_var decl.vars).map _ fun vars news held => ⟨held.1, ?_⟩
  simp only [Declaration.map, blanks_eq held.2]

theorem Declaration.refillsAll (decls : List (Declaration Variable)) :
    Refills SameSort (decls.flatMap (·.children))
      (fun new news => news = new.flatMap (·.children) ∧
        new.map (·.map fun _ => ()) = decls.map (·.map fun _ => ()))
      (Declaration.refillAll decls) := by
  induction decls with
  | nil => exact .pure ⟨rfl, rfl⟩
  | cons decl decls ih =>
    rw [List.flatMap_cons]
    refine decl.refills.bind fun new news first => ?_
    refine ih.map _ fun rest news' others => ⟨?_, ?_⟩
    · rw [first.1, others.1, List.flatMap_cons]
    · rw [List.map_cons, List.map_cons, first.2, others.2]

theorem CatchClause.refills (clause : CatchClause Variable Block) :
    Refills SameSort clause.children
      (fun new news => news = new.children ∧
        new.map (fun _ => ()) (fun _ => ()) = clause.map (fun _ => ()) fun _ => ())
      clause.refill := by
  refine (Refills.slot slot_var clause.parameter).bind fun parameter news first => ?_
  refine (Refills.slot slot_block clause.body).map _ fun body news' second => ⟨?_, rfl⟩
  rw [first, second]
  rfl

theorem CatchClause.refillsAll (clauses : List (CatchClause Variable Block)) :
    Refills SameSort (clauses.flatMap (·.children))
      (fun new news => news = new.flatMap (·.children) ∧
        new.map (·.map (fun _ => ()) fun _ => ()) = clauses.map (·.map (fun _ => ()) fun _ => ()))
      (CatchClause.refillAll clauses) := by
  induction clauses with
  | nil => exact .pure ⟨rfl, rfl⟩
  | cons clause clauses ih =>
    rw [List.flatMap_cons]
    refine clause.refills.bind fun new news first => ?_
    refine ih.map _ fun rest news' others => ⟨?_, ?_⟩
    · rw [first.1, others.1, List.flatMap_cons]
    · rw [List.map_cons, List.map_cons, first.2, others.2]

/-- The form of a statement with other children: these are its children, and
nothing else changes. -/
structure Stmt.Refilled (stmt : Stmt) (new : StmtForm Expr Variable Stmt Block)
    (news : List Node) : Prop where
  children : ∀ id, Stmt.children ⟨id, new⟩ = news
  blank : new.blank = stmt.form.blank

theorem Stmt.refills (stmt : Stmt) :
    Refills SameSort stmt.children stmt.Refilled stmt.refill := by
  obtain ⟨id, form⟩ := stmt
  cases form with
  | declare decl =>
    refine decl.refills.map _ fun new news held => ⟨fun _ => held.1.symm, ?_⟩
    show StmtForm.declare _ = StmtForm.declare _
    rw [held.2]
  | expr e => exact (Refills.slot slot_expr e).map _ fun a news held => ⟨fun _ => held.symm, rfl⟩
  | ifElse condition onTrue onFalse =>
    refine (Refills.slot slot_expr condition).bind fun c news₁ first => ?_
    refine (Refills.slot slot_stmt onTrue).bind fun yes news₂ second => ?_
    refine (Refills.slot? slot_stmt onFalse).map _ fun no news₃ third => ⟨fun _ => ?_, ?_⟩
    · rw [first, second, third.1]
      rfl
    · show StmtForm.ifElse () () _ = StmtForm.ifElse () () _
      rw [blank_eq third.2]
  | whileLoop condition body =>
    refine (Refills.slot slot_expr condition).bind fun c news₁ first => ?_
    refine (Refills.slot slot_stmt body).map _ fun b news₂ second => ⟨fun _ => ?_, rfl⟩
    rw [first, second]
    rfl
  | forLoop init condition update body =>
    simp only [Stmt.children, List.append_assoc]
    refine (Refills.slots slot_stmt init).bind fun inits news₁ first => ?_
    refine (Refills.slot? slot_expr condition).bind fun c news₂ second => ?_
    refine (Refills.slots slot_expr update).bind fun updates news₃ third => ?_
    refine (Refills.slot slot_stmt body).map _ fun b news₄ fourth => ⟨fun _ => ?_, ?_⟩
    · rw [first.1, second.1, third.1, fourth]
      simp only [Stmt.children, List.append_assoc]
    · show StmtForm.forLoop _ _ _ () = StmtForm.forLoop _ _ _ ()
      rw [blanks_eq first.2, blank_eq second.2, blanks_eq third.2]
  | forEach typeName item iterable body =>
    refine (Refills.slot slot_var item).bind fun v news₁ first => ?_
    refine (Refills.slot slot_expr iterable).bind fun e news₂ second => ?_
    refine (Refills.slot slot_stmt body).map _ fun b news₃ third => ⟨fun _ => ?_, rfl⟩
    rw [first, second, third]
    rfl
  | tryCatch resources body catches finish =>
    simp only [Stmt.children, List.append_assoc]
    refine (Declaration.refillsAll resources).bind fun declared news₁ first => ?_
    refine (Refills.slot slot_block body).bind fun b news₂ second => ?_
    refine (CatchClause.refillsAll catches).bind fun caught news₃ third => ?_
    refine (Refills.slot? slot_block finish).map _ fun last news₄ fourth => ⟨fun _ => ?_, ?_⟩
    · rw [first.1, second, third.1, fourth.1]
      simp only [Stmt.children, List.append_assoc]
    · show StmtForm.tryCatch _ () _ _ = StmtForm.tryCatch _ () _ _
      rw [first.2, third.2, blank_eq fourth.2]
  | block body =>
    exact (Refills.slot slot_block body).map _ fun a news held => ⟨fun _ => held.symm, rfl⟩
  | returnStmt value =>
    refine (Refills.slot? slot_expr value).map _ fun a news held => ⟨fun _ => held.1.symm, ?_⟩
    show StmtForm.returnStmt _ = StmtForm.returnStmt _
    rw [blank_eq held.2]
  | throwStmt value =>
    exact (Refills.slot slot_expr value).map _ fun a news held => ⟨fun _ => held.symm, rfl⟩
  | breakStmt => exact .pure ⟨fun _ => rfl, rfl⟩
  | continueStmt => exact .pure ⟨fun _ => rfl, rfl⟩
  | method head body =>
    refine (Refills.slot? slot_block body).map _ fun a news held => ⟨fun _ => held.1.symm, ?_⟩
    show StmtForm.method head _ = StmtForm.method head _
    rw [blank_eq held.2]
  | cls head body =>
    exact (Refills.slot slot_block body).map _ fun a news held => ⟨fun _ => held.symm, rfl⟩

namespace Node

/-- The node with other children: these are its children, and its label stays. -/
structure Refilled (n new : Node) (news : List Node) : Prop where
  children : new.children = news
  label : new.label = n.label

/-- What fits the places of expressions are expressions. -/
theorem exprs_of_fits {olds : List Expr} {news : List Node}
    (fits : List.Forall₂ SameSort (olds.map expr) news) :
    ∃ es : List Expr, news = es.map expr ∧ es.length = olds.length := by
  induction olds generalizing news with
  | nil =>
    cases fits
    exact ⟨[], rfl, rfl⟩
  | cons old olds ih =>
    cases fits with
    | cons fit rest =>
      obtain ⟨e, rfl, -⟩ := slot_expr.holds old _ fit
      obtain ⟨es, rfl, length⟩ := ih rest
      exact ⟨e :: es, rfl, congrArg (· + 1) length⟩

@[simp]
theorem id_withChildren (n : Node) (id : NodeId) (news : List Node) :
    (n.withChildren id news).id = id := by
  cases n <;> rfl

/-- A node with fitting children in the places of its own has these children and
the old label. -/
theorem refilled_withChildren (n : Node) (id : NodeId) {news : List Node}
    (fits : List.Forall₂ SameSort n.children news) : n.Refilled (n.withChildren id news) news := by
  cases n with
  | unit u =>
    have held := (Refills.slots slot_cls u.classes).fill fits
    exact ⟨held.1.symm, rfl⟩
  | cls c =>
    have held := (Refills.slot slot_block c.body).fill fits
    exact ⟨held.symm, rfl⟩
  | block b =>
    have held := (Refills.slots slot_stmt b.stmts).fill fits
    exact ⟨held.1.symm, rfl⟩
  | stmt s =>
    have held := s.refills.fill fits
    exact ⟨held.children id, congrArg Label.stmt held.blank⟩
  | var v =>
    have held := (Refills.slot? slot_expr v.init).fill fits
    exact ⟨held.1.symm, rfl⟩
  | expr e =>
    obtain ⟨es, rfl, length⟩ := exprs_of_fits fits
    have parts : (es.map expr).filterMap expr? = es := by
      rw [List.filterMap_map]
      exact List.filterMap_some
    have held := e.refilled_withChildren id length
    rw [withChildren, parts]
    exact ⟨congrArg (List.map expr) held.children, congrArg (Label.expr e.ty) held.blank⟩

/-! ## Replacing one child -/

/-- Nodes with one label are of one variant. -/
theorem sameSort_of_label {a b : Node} (h : a.label = b.label) : SameSort a b := by
  cases a <;> cases b <;> first | cases h | rfl

theorem sameSort_of_same {a b : Node} (h : a.same b = true) : SameSort a b := by
  cases a <;> cases b <;> first | cases h | rfl

theorem same_self (n : Node) : n.same n = true := by
  cases n <;> exact beq_self_eq_true _

/-- Where `old` stands among children, `new` takes the place of the first that is
the same node. -/
theorem replaceFirst_of_mem {old : Node} {children : List Node} (mem : old ∈ children)
    (new : Node) :
    ∃ front found back, children = front ++ found :: back ∧ found.same old = true ∧
      replaceChild.replaceFirst old new children = front ++ new :: back := by
  induction children with
  | nil => cases mem
  | cons c rest ih =>
    by_cases here : c.same old = true
    · refine ⟨[], c, rest, rfl, here, ?_⟩
      rw [replaceChild.replaceFirst, if_pos here]
      rfl
    · have below : old ∈ rest := by
        cases mem with
        | head => exact (here (same_self old)).elim
        | tail _ mem => exact mem
      obtain ⟨front, found, back, split, same, replaced⟩ := ih below
      refine ⟨c :: front, found, back, ?_, same, ?_⟩
      · rw [split, List.cons_append]
      · rw [replaceChild.replaceFirst, if_neg here, replaced, List.cons_append]

/-- A node with one child replaced has the new child in the place of a child that
is the same node as the old one, and is otherwise as it was. -/
theorem replaceChild_refilled {n old new : Node} (id : NodeId) (mem : old ∈ n.children)
    (fit : SameSort old new) :
    ∃ front found back, n.children = front ++ found :: back ∧ found.same old = true ∧
      n.Refilled (n.replaceChild id old new) (front ++ new :: back) := by
  obtain ⟨front, found, back, split, same, replaced⟩ := replaceFirst_of_mem mem new
  refine ⟨front, found, back, split, same, ?_⟩
  have unchanged : ∀ nodes : List Node, List.Forall₂ SameSort nodes nodes :=
    fun nodes => List.forall₂_same.mpr fun _ _ => rfl
  have fits : List.Forall₂ SameSort n.children (front ++ new :: back) := by
    rw [split]
    exact List.rel_append (unchanged front)
      (.cons ((sameSort_of_same same).trans fit) (unchanged back))
  unfold replaceChild
  rw [replaced]
  exact n.refilled_withChildren id fits

end Node

/-- The member that a call was resolved to is part of its label. -/
theorem Expr.method?_of_label {e e' : Expr} (label : (Node.expr e).label = (Node.expr e').label) :
    e.method? = e'.method? := by
  obtain ⟨id, ty, form⟩ := e
  obtain ⟨id', ty', form'⟩ := e'
  obtain ⟨-, forms⟩ := Node.Label.expr.inj label
  cases form <;> cases form' <;> simp [ExprForm.map] at forms <;> simp [Expr.method?, forms]

/-- Parentheses are no call. -/
theorem Expr.unparen_of_method {e : Expr} {m : MethodRef} (found : e.method? = some m) :
    e.unparen = e := by
  fun_cases Expr.unparen e with
  | case1 => cases found
  | case2 => rfl

end JavaMend
