import JavaMend.Tree.Node

/-!
# Making nodes

A new node takes its id from a supply, the state of `Fresh`. Ids are handed
out in increasing order, so a node made later is never the same as one made
earlier, and a supply that starts above every id of a tree makes only nodes
that are not in it.

The constructors below attach the type and the attribution that a resolver
would have given to the same source text.
-/

namespace JavaMend

/-- A computation that makes nodes; the state is the next unused id. -/
abbrev Fresh := StateM NodeId

/-- Takes the next id from the supply. -/
def freshId : Fresh NodeId := fun next => (next, next + 1)

/-- One more than every id below a node: a supply that makes none of its nodes
again. -/
def Node.supply (n : Node) : NodeId :=
  n.subtree.foldl (fun next m => max next (m.id + 1)) 0

namespace Expr

/-- A new expression node. -/
def make (form : ExprForm Expr) (ty : Ty) : Fresh Expr :=
  return { id := ← freshId, ty, form }

/-- A read of a local or parameter. -/
def mkIdent (name : String) (ty : Ty) : Fresh Expr := make (.ident name none) ty

/-- A type name used as a qualifier, such as `File` in `File.separator`. -/
def mkTypeName (ty : Ty) : Fresh Expr := mkIdent (ty.simpleName?.getD "") ty

def mkString (value : String) : Fresh Expr := make (.literal (.string value)) .string
def mkChar (value : Char) : Fresh Expr := make (.literal (.char value)) (.primitive .char)
def mkInt (value : Int) : Fresh Expr := make (.literal (.int value)) .int
def mkLong (value : Int) : Fresh Expr := make (.literal (.long value)) .long
def mkBool (value : Bool) : Fresh Expr := make (.literal (.boolean value)) .boolean
def mkNull : Fresh Expr := make (.literal .null) .null

/-- `target.name` -/
def mkField (target : Expr) (name : String) (ty : Ty) : Fresh Expr :=
  make (.field target name) ty

/-- `Owner.name` -/
def mkStaticField (owner : Ty) (name : String) (ty : Ty) : Fresh Expr := do
  mkField (← mkTypeName owner) name ty

/-- `receiver.name(args)`, named and typed by its method. -/
def mkCall (receiver : Expr) (method : MethodRef) (args : List Expr) : Fresh Expr :=
  make (.call (some receiver) method.name args (some method)) method.result

/-- `Owner.name(args)` -/
def mkStaticCall (method : MethodRef) (args : List Expr) : Fresh Expr := do
  mkCall (← mkTypeName method.owner) method args

/-- `name(args)`, a method of the enclosing class. -/
def mkLocalCall (method : MethodRef) (args : List Expr) : Fresh Expr :=
  make (.call none method.name args (some method)) method.result

/-- `new Owner(args)` -/
def mkCreate (constructor : MethodRef) (args : List Expr) : Fresh Expr :=
  make (.create (constructor.owner.simpleName?.getD "") args (some constructor)) constructor.owner

/-- `new element[size]`; arrays have no static type of their own. -/
def mkArray (element : Ty) (size : Expr) : Fresh Expr :=
  make (.array (element.simpleName?.getD "Object") size) .unknown

def mkBinary (op : BinaryOp) (left right : Expr) (ty : Ty) : Fresh Expr :=
  make (.binary op left right) ty

/-- `left + right`: a string when either side is one, else of the left type. -/
def mkAdd (left right : Expr) : Fresh Expr :=
  mkBinary .add left right (if left.ty.isString || right.ty.isString then .string else left.ty)

def mkAnd (left right : Expr) : Fresh Expr := mkBinary .and left right .boolean
def mkOr (left right : Expr) : Fresh Expr := mkBinary .or left right .boolean
def mkNot (operand : Expr) : Fresh Expr := make (.unary .not operand) .boolean
def mkParens (inner : Expr) : Fresh Expr := make (.parens inner) inner.ty
def mkAssign (target value : Expr) : Fresh Expr := make (.assign none target value) target.ty

/-- `(Type) operand` -/
def mkCast (ty : Ty) (operand : Expr) : Fresh Expr :=
  make (.cast (ty.simpleName?.getD "") operand) ty

def mkTernary (condition onTrue onFalse : Expr) : Fresh Expr :=
  make (.ternary condition onTrue onFalse) onTrue.ty

/-- An alike expression all of whose nodes are new. -/
def freshCopy (e : Expr) : Fresh Expr := do
  let children ← e.children.attach.mapM fun ⟨c, _⟩ => c.freshCopy
  return e.withChildren (← freshId) children
termination_by sizeOf e
decreasing_by exact sizeOf_lt_of_mem_children ‹_›

end Expr

/-- A new variable node. -/
def Variable.make (name : String) (ty : Ty) (init : Option Expr) : Fresh Variable :=
  return { id := ← freshId, name, ty, init }

/-- A new block node. -/
def Block.make (stmts : List Stmt) (isStatic : Bool) : Fresh Block :=
  return { id := ← freshId, isStatic, stmts }

/-- The block with other statements, as a new node. -/
def Block.withStmts (block : Block) (stmts : List Stmt) : Fresh Block :=
  Block.make stmts block.isStatic

namespace Stmt

/-- A new statement node. -/
def make (form : StmtForm Expr Variable Stmt Block) : Fresh Stmt :=
  return { id := ← freshId, form }

/-- `e;` -/
def mkExpr (e : Expr) : Fresh Stmt := make (.expr e)

/-- One variable, declared with the simple name of its type. -/
def mkDeclare (modifiers : List Modifier) (ty : Ty) (name : String) (init : Option Expr) :
    Fresh Stmt := do
  let variable_ ← Variable.make name ty init
  make (.declare { modifiers, typeName := ty.simpleName?.getD "var", vars := [variable_] })

/-- `{ stmts }` -/
def mkBlock (stmts : List Stmt) : Fresh Stmt := do
  make (.block (← Block.make stmts false))

def mkIf (condition : Expr) (onTrue : Stmt) (onFalse : Option Stmt) : Fresh Stmt :=
  make (.ifElse condition onTrue onFalse)

/-- `throw new Exception("message");` -/
def mkThrowNew (exception : Ty) (message : String) : Fresh Stmt := do
  let text ← Expr.mkString message
  make (.throwStmt (← Expr.mkCreate (.constructor exception [.string]) [text]))

end Stmt

/-- A catch clause for one type of exception. -/
def CatchClause.make (exception : Ty) (name : String) (body : Block) :
    Fresh (CatchClause Variable Block) :=
  return {
    typeNames := [exception.simpleName?.getD "Exception"]
    types := [exception]
    parameter := ← Variable.make name exception none
    body }

/-- A parameter declared with the simple name of its type. -/
def Parameter.ofType (ty : Ty) (name : String) : Parameter :=
  { typeName := ty.simpleName?.getD "Object", name, ty }

/-- The node with other children, as a new node. -/
def Node.rebuild (n : Node) (news : List Node) : Fresh Node :=
  return n.withChildren (← freshId) news

end JavaMend
