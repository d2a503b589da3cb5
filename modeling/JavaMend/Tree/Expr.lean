import JavaMend.Tree.Slots
import JavaMend.Tree.Type

/-!
# Expressions

An expression is a form, a static type and an identity. The form, `ExprForm`,
is written over the type of its sub-expressions: at `Expr` it is the real
thing, and with the sub-expressions forgotten it is the part of an expression
that is not a child (operators, names, attributions), which is what
structural equality and rebuilding compare.

**Identity.** Every node carries a `NodeId`, drawn once from a supply when the
node is made. Two handles are the same node when their ids agree; two nodes
can be alike, equal in everything but ids, without being the same.
-/

namespace JavaMend

/-- What distinguishes one node from every other node, alike or not. -/
abbrev NodeId := Nat

inductive Literal where
  | string (value : String)
  | char (value : Char)
  | int (value : Int)
  | long (value : Int)
  | boolean (value : Bool)
  | null
deriving DecidableEq

inductive BinaryOp where
  | add
  | sub
  | mul
  | div
  | rem
  | eq
  | ne
  | lt
  | le
  | gt
  | ge
  | and
  | or
deriving DecidableEq

/-- The operator as it is written between its operands. -/
def BinaryOp.symbol : BinaryOp → String
  | .add => "+"
  | .sub => "-"
  | .mul => "*"
  | .div => "/"
  | .rem => "%"
  | .eq => "=="
  | .ne => "!="
  | .lt => "<"
  | .le => "<="
  | .gt => ">"
  | .ge => ">="
  | .and => "&&"
  | .or => "||"

/-- Every binary operator, in the order they are declared. -/
def BinaryOp.all : List BinaryOp :=
  [.add, .sub, .mul, .div, .rem, .eq, .ne, .lt, .le, .gt, .ge, .and, .or]

/-- The operator written with a symbol. -/
def BinaryOp.ofSymbol? (symbol : String) : Option BinaryOp :=
  BinaryOp.all.find? (·.symbol == symbol)

inductive UnaryOp where
  | not
  | negate
  | plus
deriving DecidableEq

/-- The operator as it is written before its operand. -/
def UnaryOp.symbol : UnaryOp → String
  | .not => "!"
  | .negate => "-"
  | .plus => "+"

/-- The forms of an expression over sub-expressions `ε`. -/
inductive ExprForm (ε : Type) where
  /-- A name. With an owner it names a field of that type, as after a static
  import; without one it names a local. -/
  | ident (name : String) (owner : Option Ty)
  | literal (value : Literal)
  /-- `target.name` -/
  | field (target : ε) (name : String)
  /-- `receiver.name(args)`, or `name(args)` on the enclosing class. -/
  | call (receiver : Option ε) (name : String) (args : List ε) (method : Option MethodRef)
  /-- `new className(args)` -/
  | create (className : String) (args : List ε) (method : Option MethodRef)
  /-- `new element[size]` -/
  | array (element : String) (size : ε)
  | binary (op : BinaryOp) (left right : ε)
  | unary (op : UnaryOp) (operand : ε)
  /-- `target = value`, or the compound assignment of an operator. -/
  | assign (op : Option BinaryOp) (target value : ε)
  | parens (inner : ε)
  | cast (typeName : String) (operand : ε)
  | ternary (condition onTrue onFalse : ε)
deriving DecidableEq

namespace ExprForm

/-- The direct sub-expressions, in the order they are evaluated. -/
def children {ε : Type} : ExprForm ε → List ε
  | ident _ _ => []
  | literal _ => []
  | field target _ => [target]
  | call receiver _ args _ => receiver.toList ++ args
  | create _ args _ => args
  | array _ size => [size]
  | binary _ left right => [left, right]
  | unary _ operand => [operand]
  | assign _ target value => [target, value]
  | parens inner => [inner]
  | cast _ operand => [operand]
  | ternary condition onTrue onFalse => [condition, onTrue, onFalse]

/-- The same form over other sub-expressions. -/
def map {ε δ : Type} (f : ε → δ) : ExprForm ε → ExprForm δ
  | ident name owner => ident name owner
  | literal value => literal value
  | field target name => field (f target) name
  | call receiver name args method => call (receiver.map f) name (args.map f) method
  | create className args method => create className (args.map f) method
  | array element size => array element (f size)
  | binary op left right => binary op (f left) (f right)
  | unary op operand => unary op (f operand)
  | assign op target value => assign op (f target) (f value)
  | parens inner => parens (f inner)
  | cast typeName operand => cast typeName (f operand)
  | ternary condition onTrue onFalse => ternary (f condition) (f onTrue) (f onFalse)

end ExprForm

/-- The form with its sub-expressions refilled in the order of
`ExprForm.children`. -/
def ExprForm.refill {ε : Type} : ExprForm ε → SlotM ε (ExprForm ε)
  | ident name owner => return ident name owner
  | literal value => return literal value
  | field target name => return field (← .slot some target) name
  | call receiver name args method =>
    return call (← .slot? some receiver) name (← .slots some args) method
  | create className args method => return create className (← .slots some args) method
  | array element size => return array element (← .slot some size)
  | binary op left right => return binary op (← .slot some left) (← .slot some right)
  | unary op operand => return unary op (← .slot some operand)
  | assign op target value => return assign op (← .slot some target) (← .slot some value)
  | parens inner => return parens (← .slot some inner)
  | cast typeName operand => return cast typeName (← .slot some operand)
  | ternary condition onTrue onFalse =>
    return ternary (← .slot some condition) (← .slot some onTrue) (← .slot some onFalse)

/-- A typed expression node. -/
structure Expr where
  id : NodeId
  ty : Ty
  form : ExprForm Expr

namespace Expr

/-- The direct sub-expressions, in the order they are evaluated. -/
def children (e : Expr) : List Expr := e.form.children

/-- Sub-expressions are smaller, which is what every walk over an expression
ends by. -/
theorem sizeOf_lt_of_mem_children {e c : Expr} (h : c ∈ e.children) : sizeOf c < sizeOf e := by
  obtain ⟨id, ty, form⟩ := e
  cases form <;> simp [children, ExprForm.children] at h ⊢
  case call receiver name args method =>
    rcases h with h | h
    · subst h; simp; omega
    · have := List.sizeOf_lt_of_mem h; omega
  case create className args method => have := List.sizeOf_lt_of_mem h; omega
  case binary => rcases h with h | h <;> subst h <;> omega
  case assign => rcases h with h | h <;> subst h <;> omega
  case ternary => rcases h with h | h | h <;> subst h <;> omega
  all_goals subst h; omega

/-- The same node, not merely an equal one. -/
def same (a b : Expr) : Bool := a.id == b.id

/-- The node `id` that is `e` with its sub-expressions replaced, in the order
of `Expr.children`. Missing replacements leave their slots as they were and
surplus ones are ignored. -/
def withChildren (e : Expr) (id : NodeId) (children : List Expr) : Expr :=
  { id, ty := e.ty, form := e.form.refill.fill children }

/-- Strips any number of enclosing parentheses. -/
def unparen (e : Expr) : Expr :=
  match e with
  | ⟨_, _, .parens inner⟩ => inner.unparen
  | e => e

/-- The name of the local this expression reads, if it is a plain name. -/
def localName? (e : Expr) : Option String :=
  match e.form with
  | .ident name none => some name
  | _ => none

/-- Method calls and instance creations. -/
def isCall (e : Expr) : Bool :=
  match e.form with
  | .call .. | .create .. => true
  | _ => false

/-- The member a call site was resolved to. -/
def method? (e : Expr) : Option MethodRef :=
  match e.form with
  | .call _ _ _ method => method
  | .create _ _ method => method
  | _ => none

/-- The arguments of a call site; none for anything else. -/
def args (e : Expr) : List Expr :=
  match e.form with
  | .call _ _ args _ => args
  | .create _ args _ => args
  | _ => []

/-- The receiver of a qualified method call. -/
def receiver? (e : Expr) : Option Expr :=
  match e.form with
  | .call receiver _ _ _ => receiver
  | _ => none

def literal? (e : Expr) : Option Literal :=
  match e.form with
  | .literal value => some value
  | _ => none

/-- The value of a string literal. -/
def stringValue? (e : Expr) : Option String :=
  match e.form with
  | .literal (.string value) => some value
  | _ => none

/-- Every sub-expression in pre-order, the expression itself first. -/
def subterms (e : Expr) : List Expr :=
  e :: e.children.attach.flatMap fun ⟨c, _⟩ => c.subterms
termination_by sizeOf e
decreasing_by exact sizeOf_lt_of_mem_children ‹_›

/-- Does `target` occur strictly below this expression, as the same node? -/
def contains (e target : Expr) : Bool :=
  e.subterms.tail.any (·.same target)

/-- The locals read anywhere in the expression, in evaluation order, once per
read. -/
def localReads (e : Expr) : List String := e.subterms.filterMap localName?

end Expr

end JavaMend
