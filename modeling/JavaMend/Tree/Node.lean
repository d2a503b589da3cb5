import JavaMend.Tree.Stmt

/-!
# Nodes

`Node` is a handle on any node of a tree, so that paths, cursors and visitors
treat all of them alike. A node is its label (everything in it that is not a
child) and its children in source order; `Node.children` reads the children
off and `Node.withChildren` puts others in their place.

**Same and alike.** `Node.same` compares identities. `Node.alike` compares
structure: equal labels and, pairwise, alike children, whatever their ids.
-/

namespace JavaMend

/-- Any node of a tree. -/
inductive Node where
  | unit (unit : CompilationUnit)
  | cls (decl : ClassDecl)
  | block (block : Block)
  | stmt (stmt : Stmt)
  | var (decl : Variable)
  | expr (expr : Expr)

/-- What a node is, as far as questions about enclosing nodes go. -/
inductive NodeKind where
  | unit
  | cls
  | method
  | block
  | stmt
  | var
  | expr
deriving DecidableEq

namespace Node

/-- A statement that declares a method or a class is of that kind. -/
def kind : Node → NodeKind
  | unit _ => .unit
  | cls _ => .cls
  | block _ => .block
  | stmt ⟨_, .method _ _⟩ => .method
  | stmt ⟨_, .cls _ _⟩ => .cls
  | stmt _ => .stmt
  | var _ => .var
  | expr _ => .expr

def id : Node → NodeId
  | unit u => u.id
  | cls c => c.id
  | block b => b.id
  | stmt s => s.id
  | var v => v.id
  | expr e => e.id

/-- The same node: one variant and one id. -/
def same : Node → Node → Bool
  | unit a, unit b => a.id == b.id
  | cls a, cls b => a.id == b.id
  | block a, block b => a.id == b.id
  | stmt a, stmt b => a.id == b.id
  | var a, var b => a.id == b.id
  | expr a, expr b => a.id == b.id
  | _, _ => false

def unit? : Node → Option CompilationUnit
  | unit u => some u
  | _ => none

def cls? : Node → Option ClassDecl
  | cls c => some c
  | _ => none

def block? : Node → Option Block
  | block b => some b
  | _ => none

def stmt? : Node → Option Stmt
  | stmt s => some s
  | _ => none

def var? : Node → Option Variable
  | var v => some v
  | _ => none

def expr? : Node → Option Expr
  | expr e => some e
  | _ => none

/-- The method a statement declares. -/
def method? : Node → Option (MethodHead × Option Block)
  | stmt ⟨_, .method head body⟩ => some (head, body)
  | _ => none

/-- The class a node declares, top-level or nested. -/
def class? : Node → Option (ClassHead × Block)
  | cls c => some (c.head, c.body)
  | stmt ⟨_, .cls head body⟩ => some (head, body)
  | _ => none

end Node

/-- The nodes a catch clause holds: its parameter, then its body. -/
def CatchClause.children (clause : CatchClause Variable Block) : List Node :=
  [.var clause.parameter, .block clause.body]

/-- The variables a declaration holds. -/
def Declaration.children (decl : Declaration Variable) : List Node :=
  decl.vars.map .var

/-- The direct children of a statement in source order. -/
def Stmt.children (stmt : Stmt) : List Node :=
  match stmt.form with
  | .declare decl => decl.children
  | .expr e => [.expr e]
  | .ifElse condition onTrue onFalse => .expr condition :: .stmt onTrue :: onFalse.toList.map .stmt
  | .whileLoop condition body => [.expr condition, .stmt body]
  | .forLoop init condition update body =>
    init.map .stmt ++ condition.toList.map .expr ++ update.map .expr ++ [.stmt body]
  | .forEach _ item iterable body => [.var item, .expr iterable, .stmt body]
  | .tryCatch resources body catches finish =>
    resources.flatMap (·.children) ++ [.block body] ++ catches.flatMap (·.children) ++
      finish.toList.map .block
  | .block body => [.block body]
  | .returnStmt value => value.toList.map .expr
  | .throwStmt value => [.expr value]
  | .breakStmt => []
  | .continueStmt => []
  | .method _ body => body.toList.map .block
  | .cls _ body => [.block body]

namespace Node

/-- The direct children in source order. -/
def children : Node → List Node
  | unit u => u.classes.map cls
  | cls c => [block c.body]
  | block b => b.stmts.map stmt
  | stmt s => s.children
  | var v => v.init.toList.map expr
  | expr e => e.children.map expr

end Node

/-! ## Children are smaller -/

theorem Declaration.sizeOf_lt_of_mem_children {decl : Declaration Variable} {c : Node}
    (h : c ∈ decl.children) : sizeOf c < 1 + sizeOf decl := by
  obtain ⟨modifiers, typeName, vars⟩ := decl
  simp only [Declaration.children, List.mem_map] at h
  obtain ⟨v, hv, rfl⟩ := h
  have := List.sizeOf_lt_of_mem hv
  simp
  omega

theorem CatchClause.sizeOf_lt_of_mem_children {clause : CatchClause Variable Block} {c : Node}
    (h : c ∈ clause.children) : sizeOf c < 1 + sizeOf clause := by
  obtain ⟨typeNames, types, parameter, body⟩ := clause
  simp only [CatchClause.children, List.mem_cons, List.not_mem_nil, or_false] at h
  rcases h with rfl | rfl
  · simp only [Node.var.sizeOf_spec, CatchClause.mk.sizeOf_spec]
    omega
  · simp only [Node.block.sizeOf_spec, CatchClause.mk.sizeOf_spec]
    omega

theorem sizeOf_lt_of_mem_toList {α : Type} [SizeOf α] {o : Option α} {a : α} (h : a ∈ o.toList) :
    sizeOf a < sizeOf o := by
  cases o with
  | none => simp at h
  | some b => simp at h; subst h; simp

/-- The children of a statement are smaller than it, as nodes. -/
theorem Stmt.sizeOf_lt_of_mem_children {stmt : Stmt} {c : Node} (h : c ∈ stmt.children) :
    sizeOf c < 1 + sizeOf stmt := by
  obtain ⟨id, form⟩ := stmt
  cases form <;>
    simp only [Stmt.children, List.mem_map, List.mem_append, List.mem_cons, List.not_mem_nil,
      or_false, List.mem_flatMap] at h
  case declare decl =>
    have := Declaration.sizeOf_lt_of_mem_children h
    simp; omega
  case expr e => subst h; simp; omega
  case ifElse condition onTrue onFalse =>
    rcases h with rfl | rfl | ⟨s, hs, rfl⟩
    · simp; omega
    · simp; omega
    · have := sizeOf_lt_of_mem_toList hs
      simp; omega
  case whileLoop => rcases h with rfl | rfl <;> simp <;> omega
  case forLoop init condition update body =>
    rcases h with ((⟨s, hs, rfl⟩ | ⟨e, he, rfl⟩) | ⟨e, he, rfl⟩) | rfl
    · have := List.sizeOf_lt_of_mem hs
      simp; omega
    · have := sizeOf_lt_of_mem_toList he
      simp; omega
    · have := List.sizeOf_lt_of_mem he
      simp; omega
    · simp; omega
  case forEach => rcases h with rfl | rfl | rfl <;> simp <;> omega
  case tryCatch resources body catches finish =>
    rcases h with ((⟨r, hr, hc⟩ | rfl) | ⟨k, hk, hc⟩) | ⟨b, hb, rfl⟩
    · have := List.sizeOf_lt_of_mem hr
      have := Declaration.sizeOf_lt_of_mem_children hc
      simp; omega
    · simp; omega
    · have := List.sizeOf_lt_of_mem hk
      have := CatchClause.sizeOf_lt_of_mem_children hc
      simp; omega
    · have := sizeOf_lt_of_mem_toList hb
      simp; omega
  case block => subst h; simp; omega
  case returnStmt value =>
    obtain ⟨e, he, rfl⟩ := h
    have := sizeOf_lt_of_mem_toList he
    simp; omega
  case throwStmt => subst h; simp; omega
  case method head body =>
    obtain ⟨b, hb, rfl⟩ := h
    have := sizeOf_lt_of_mem_toList hb
    simp; omega
  case cls => subst h; simp; omega

/-- Children are smaller than their parent, which is what every walk over a
tree ends by. -/
theorem Node.sizeOf_lt_of_mem_children {n c : Node} (h : c ∈ n.children) : sizeOf c < sizeOf n := by
  cases n with
  | unit u =>
    simp only [Node.children, List.mem_map] at h
    obtain ⟨d, hd, rfl⟩ := h
    have := List.sizeOf_lt_of_mem hd
    cases u
    simp at *; omega
  | cls d =>
    simp only [Node.children, List.mem_cons, List.not_mem_nil, or_false] at h
    subst h
    cases d
    simp only [Node.block.sizeOf_spec, Node.cls.sizeOf_spec, ClassDecl.mk.sizeOf_spec]
    omega
  | block b =>
    simp only [Node.children, List.mem_map] at h
    obtain ⟨s, hs, rfl⟩ := h
    have := List.sizeOf_lt_of_mem hs
    cases b
    simp at *; omega
  | stmt s =>
    have := Stmt.sizeOf_lt_of_mem_children h
    simp; omega
  | var v =>
    simp only [Node.children, List.mem_map] at h
    obtain ⟨e, he, rfl⟩ := h
    have := sizeOf_lt_of_mem_toList he
    cases v
    simp at *; omega
  | expr e =>
    simp only [Node.children, List.mem_map] at h
    obtain ⟨d, hd, rfl⟩ := h
    have := Expr.sizeOf_lt_of_mem_children hd
    simp; omega

/-- A property of nodes that passes from the children to the parent holds of
every node. -/
theorem Node.inductionOn {motive : Node → Prop} (n : Node)
    (step : ∀ n : Node, (∀ c ∈ n.children, motive c) → motive n) : motive n :=
  step n fun c _ => inductionOn c step
termination_by sizeOf n
decreasing_by exact sizeOf_lt_of_mem_children ‹_›

/-! ## Putting other children in place -/

/-- A declaration with its variables refilled. -/
def Declaration.refill (decl : Declaration Variable) : SlotM Node (Declaration Variable) :=
  return { decl with vars := ← .slots Node.var? decl.vars }

/-- A run of declarations refilled from the left. -/
def Declaration.refillAll :
    List (Declaration Variable) → SlotM Node (List (Declaration Variable))
  | [] => pure []
  | decl :: decls => return (← decl.refill) :: (← refillAll decls)

/-- A catch clause with its parameter and body refilled. -/
def CatchClause.refill (clause : CatchClause Variable Block) :
    SlotM Node (CatchClause Variable Block) :=
  return { clause with
    parameter := ← .slot Node.var? clause.parameter
    body := ← .slot Node.block? clause.body }

/-- A run of catch clauses refilled from the left. -/
def CatchClause.refillAll :
    List (CatchClause Variable Block) → SlotM Node (List (CatchClause Variable Block))
  | [] => pure []
  | clause :: clauses => return (← clause.refill) :: (← refillAll clauses)

/-- The form of a statement with its children refilled in the order of
`Stmt.children`. -/
def Stmt.refill (stmt : Stmt) : SlotM Node (StmtForm Expr Variable Stmt Block) :=
  match stmt.form with
  | .declare decl => return .declare (← decl.refill)
  | .expr e => return .expr (← .slot Node.expr? e)
  | .ifElse condition onTrue onFalse =>
    return .ifElse (← .slot Node.expr? condition) (← .slot Node.stmt? onTrue)
      (← .slot? Node.stmt? onFalse)
  | .whileLoop condition body =>
    return .whileLoop (← .slot Node.expr? condition) (← .slot Node.stmt? body)
  | .forLoop init condition update body =>
    return .forLoop (← .slots Node.stmt? init) (← .slot? Node.expr? condition)
      (← .slots Node.expr? update) (← .slot Node.stmt? body)
  | .forEach typeName item iterable body =>
    return .forEach typeName (← .slot Node.var? item) (← .slot Node.expr? iterable)
      (← .slot Node.stmt? body)
  | .tryCatch resources body catches finish =>
    return .tryCatch (← Declaration.refillAll resources) (← .slot Node.block? body)
      (← CatchClause.refillAll catches) (← .slot? Node.block? finish)
  | .block body => return .block (← .slot Node.block? body)
  | .returnStmt value => return .returnStmt (← .slot? Node.expr? value)
  | .throwStmt value => return .throwStmt (← .slot Node.expr? value)
  | .breakStmt => return .breakStmt
  | .continueStmt => return .continueStmt
  | .method head body => return .method head (← .slot? Node.block? body)
  | .cls head body => return .cls head (← .slot Node.block? body)

namespace Node

/-- The node `id` that is `n` with its children replaced, in the order of
`Node.children`. A slot whose replacement is missing or of another variant
keeps its old child. An expression looks at the expressions among the
replacements only. -/
def withChildren (n : Node) (id : NodeId) (news : List Node) : Node :=
  match n with
  | unit u => unit { u with id, classes := (SlotM.slots cls? u.classes).fill news }
  | cls c => cls { c with id, body := (SlotM.slot block? c.body).fill news }
  | block b => block { b with id, stmts := (SlotM.slots stmt? b.stmts).fill news }
  | stmt s => stmt { id, form := s.refill.fill news }
  | var v => var { v with id, init := (SlotM.slot? expr? v.init).fill news }
  | expr e => expr (e.withChildren id (news.filterMap expr?))

/-- The node `id` that is `n` with the first child that is `old` replaced. -/
def replaceChild (n : Node) (id : NodeId) (old new : Node) : Node :=
  n.withChildren id (replaceFirst n.children)
where
  replaceFirst : List Node → List Node
    | [] => []
    | c :: rest => if c.same old then new :: rest else c :: replaceFirst rest

end Node

/-! ## Labels -/

/-- Everything in a node that is neither a child nor its identity. -/
inductive Node.Label where
  | unit (package : Option String) (imports : List Import)
  | cls (head : ClassHead)
  | block (isStatic : Bool)
  | stmt (form : StmtForm Unit Unit Unit Unit)
  | var (name : String) (ty : Ty)
  | expr (ty : Ty) (form : ExprForm Unit)
deriving DecidableEq

/-- A declaration over other variables. -/
def Declaration.map {ν ν' : Type} (f : ν → ν') (decl : Declaration ν) : Declaration ν' :=
  { modifiers := decl.modifiers, typeName := decl.typeName, vars := decl.vars.map f }

/-- A catch clause over another parameter and body. -/
def CatchClause.map {ν ν' β β' : Type} (f : ν → ν') (g : β → β') (clause : CatchClause ν β) :
    CatchClause ν' β' :=
  { typeNames := clause.typeNames, types := clause.types, parameter := f clause.parameter,
    body := g clause.body }

/-- A statement's form with its children forgotten. -/
def StmtForm.blank {ε ν σ β : Type} : StmtForm ε ν σ β → StmtForm Unit Unit Unit Unit
  | declare decl => declare (decl.map fun _ => ())
  | expr _ => expr ()
  | ifElse _ _ onFalse => ifElse () () (onFalse.map fun _ => ())
  | whileLoop _ _ => whileLoop () ()
  | forLoop init condition update _ =>
    forLoop (init.map fun _ => ()) (condition.map fun _ => ()) (update.map fun _ => ()) ()
  | forEach typeName _ _ _ => forEach typeName () () ()
  | tryCatch resources _ catches finish =>
    tryCatch (resources.map (·.map fun _ => ())) ()
      (catches.map (·.map (fun _ => ()) fun _ => ())) (finish.map fun _ => ())
  | block _ => block ()
  | returnStmt value => returnStmt (value.map fun _ => ())
  | throwStmt _ => throwStmt ()
  | breakStmt => breakStmt
  | continueStmt => continueStmt
  | method head body => method head (body.map fun _ => ())
  | cls head _ => cls head ()

namespace Node

/-- The label of a node: its names, types, modifiers and operators, and how
many children stand in which of its slots. -/
def label : Node → Label
  | unit u => .unit u.package u.imports
  | cls c => .cls c.head
  | block b => .block b.isStatic
  | stmt s => .stmt s.form.blank
  | var v => .var v.name v.ty
  | expr e => .expr e.ty (e.form.map fun _ => ())

/-- Structural equality: equal labels and alike children, whatever the ids. -/
def alike (a b : Node) : Bool :=
  a.label == b.label && a.children.length == b.children.length &&
    (a.children.attach.zip b.children).all fun (⟨c, _⟩, d) => c.alike d
termination_by sizeOf a
decreasing_by exact sizeOf_lt_of_mem_children ‹_›

/-- Every node of the subtree in pre-order, the node itself first. -/
def subtree (n : Node) : List Node :=
  n :: n.children.attach.flatMap fun ⟨c, _⟩ => c.subtree
termination_by sizeOf n
decreasing_by exact sizeOf_lt_of_mem_children ‹_›

end Node

/-- Structural equality of expressions. -/
def Expr.alike (a b : Expr) : Bool := (Node.expr a).alike (.expr b)

/-- Structural equality of statements. -/
def Stmt.alike (a b : Stmt) : Bool := (Node.stmt a).alike (.stmt b)

/-- Structural equality of units. -/
def CompilationUnit.alike (a b : CompilationUnit) : Bool := (Node.unit a).alike (.unit b)

/-- The same node, not merely an equal one. -/
def CompilationUnit.same (a b : CompilationUnit) : Bool := a.id == b.id

end JavaMend
