import JavaMend.Match.Shape
import JavaMend.Tree.Fresh

/-!
# Looking around

Questions that remediations ask about the surroundings of a node: what is
evaluated below it, which statement it belongs to, which variable it
initializes, which call it is an operand of. Methods and classes declared
below a node are scopes of their own, and none of these questions looks into
them.
-/

namespace JavaMend

/-! ## Expressions below a node -/

/-- Does the node declare a method or a class? -/
def Node.opensScope (n : Node) : Bool := n.kind == .method || n.kind == .cls

/-- The expressions strictly below a node, in source order. -/
def Node.exprsBelow (n : Node) : List Expr :=
  n.children.attach.flatMap fun ⟨c, _⟩ =>
    if c.opensScope then [] else c.expr?.toList ++ c.exprsBelow
termination_by sizeOf n
decreasing_by exact sizeOf_lt_of_mem_children ‹_›

/-- The expressions of a node, itself first if it is one. -/
def Node.exprs (n : Node) : List Expr := n.expr?.toList ++ n.exprsBelow

/-- The paths to the expressions strictly below a node, in source order, where
`above` are the ancestors of the node, nearest first. -/
def Node.exprPathsBelow (above : List Node) (n : Node) : List Path :=
  n.children.attach.flatMap fun ⟨c, _⟩ =>
    if c.opensScope then []
    else (c.expr?.toList.map fun _ => ⟨c :: n :: above⟩) ++ c.exprPathsBelow (n :: above)
termination_by sizeOf n
decreasing_by exact sizeOf_lt_of_mem_children ‹_›

namespace Path

/-- The paths to the expressions strictly below the end of the path. -/
def exprPaths (p : Path) : List Path :=
  match p.outward with
  | [] => []
  | n :: above => n.exprPathsBelow above

/-- The expression at the end of the path. -/
def expr? (p : Path) : Option Expr := p.value?.bind Node.expr?

/-! ## What stands around a node -/

/-- The statement of the nearest block that the path goes through. -/
def anchor? (p : Path) : Option Stmt := do
  let (index, _) ← p.nearestBlock?
  p.stmtIn? index

/-- Is the end of the path the body of a method or an initializer? -/
def endsAtBody (p : Path) : Bool := p.outerBody?.any fun (index, _) => index + 1 == p.length

/-- The variable around an expression, going outward through parentheses. -/
def variableAround? (e : Expr) : List Node → Option Variable
  | .expr ⟨_, _, .parens _⟩ :: above => variableAround? e above
  | .var v :: _ => if v.init.any (·.unparen.same e) then some v else none
  | _ => none

/-- The variable that the expression at the end of the path initializes, with
any parentheses around it. -/
def initialized? (p : Path) : Option Variable :=
  match p.outward with
  | .expr e :: above => variableAround? e above
  | _ => none

/-- The first node of an outward list that is not parentheses, if it is a
call. -/
def callAbove? : List Node → Option Expr
  | .expr e :: above =>
    match e.form with
    | .parens _ => callAbove? above
    | .call .. | .create .. => some e
    | _ => none
  | _ => none

/-- The call that the end of the path is an operand of, with any parentheses
around it. -/
def operandOf? (p : Path) : Option Expr := callAbove? p.outward.tail

/-- The path with another block in place of the one it ends at. -/
def onBlock (p : Path) (block : Block) : Fresh Path := p.replacing (p.length - 1) (.block block)

/-- The name that a class or method gives to a location. -/
def nameOf? : Node → Option String
  | .cls c => some c.head.name
  | .stmt ⟨_, .cls head _⟩ => some head.name
  | .stmt ⟨_, .method head _⟩ => some head.name
  | _ => none

/-- The names of the classes and methods that the path goes through. -/
def location (p : Path) : String := ".".intercalate (p.inward.filterMap nameOf?)

/-! ## Class bodies -/

/-- The type of the class whose body the path ends at. -/
def bodyOwner? (p : Path) : Option Ty := (p.parent?.bind Node.class?).map (·.1.ty)

/-- A member of a class body that is executed: a method or an initializer. -/
def isExecutable (stmt : Stmt) : Bool :=
  match stmt.form with
  | .method _ _ | .block _ => true
  | _ => false

/-- The paths to the bodies of the methods and initializers in the class body
that the path ends at. -/
def executedBodies (p : Path) : List Path :=
  match p.value? with
  | some (.block body) =>
    (body.stmts.filter isExecutable).flatMap fun member =>
      (Node.stmt member).children.map fun c => (p.child (.stmt member)).child c
  | _ => []

end Path

/-! ## Variables -/

/-- Is the expression a method call on the local `name`? -/
def Expr.callsLocal (e : Expr) (name : String) : Bool :=
  (e.receiver?.bind (·.unparen.localName?)) == some name

/-- The name of the variable that is read: a plain name or `this.name`. -/
def Expr.variableName? (e : Expr) : Option String :=
  match e.form with
  | .ident name _ => some name
  | .field ⟨_, _, .ident "this" _⟩ name => some name
  | _ => none

/-- The variable that a method is called on. -/
def Expr.receiverName? (e : Expr) : Option String :=
  e.receiver?.bind (·.unparen.variableName?)

/-- A variable that is configured by calls on it. -/
inductive Receiver where
  /-- A local. -/
  | localVar (name : String)
  /-- A field of the enclosing class, read by its name or through `this`. -/
  | field (name : String)
deriving DecidableEq

namespace Receiver

def name : Receiver → String
  | localVar name => name
  | field name => name

/-- Is the expression a method call on the variable? -/
def isReceiverOf : Receiver → Expr → Bool
  | localVar name, e => e.callsLocal name
  | field name, e => e.receiverName? == some name

end Receiver

/-- A read of a variable: of a field of `owner`, or of a local if there is no
owner. -/
def Variable.mkRead (v : Variable) (owner : Option Ty) : Fresh Expr :=
  Expr.make (.ident v.name owner) v.ty

/-- An initializer block to follow a field declaration, static if the field
is. -/
def mkFieldInitializer (declaration : Stmt) (stmts : List Stmt) : Fresh Stmt := do
  let isStatic := declaration.declaration?.any (·.modifiers.contains .static)
  Stmt.make (.block (← Block.make stmts isStatic))

end JavaMend
