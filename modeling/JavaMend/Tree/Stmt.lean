import JavaMend.Tree.Expr

/-!
# Statements and declarations

The tree of one Java compilation unit below its expressions. As for
expressions, the forms of a statement are written over the types of their
children: `ε` for expressions, `ν` for variables, `σ` for statements and `β`
for blocks. Members of a class body are statements too: fields are variable
declarations, initializers are blocks, methods and nested classes have forms of
their own.
-/

namespace JavaMend

inductive Modifier where
  | publicAccess
  | protectedAccess
  | privateAccess
  | static
  | final
  | abstract
  | synchronized
deriving DecidableEq

/-- The keyword a modifier is written with. -/
def Modifier.keyword : Modifier → String
  | .publicAccess => "public"
  | .protectedAccess => "protected"
  | .privateAccess => "private"
  | .static => "static"
  | .final => "final"
  | .abstract => "abstract"
  | .synchronized => "synchronized"

/-- Every modifier. -/
def Modifier.all : List Modifier :=
  [.publicAccess, .protectedAccess, .privateAccess, .static, .final, .abstract, .synchronized]

/-- The modifier written with a keyword. -/
def Modifier.ofKeyword? (keyword : String) : Option Modifier :=
  Modifier.all.find? (·.keyword == keyword)

/-- A declared variable: a local, a field, a resource, or the parameter of a
loop or of a catch clause. -/
structure Variable where
  id : NodeId
  name : String
  ty : Ty
  init : Option Expr

/-- One declaration of one or more variables of a written type. -/
structure Declaration (ν : Type) where
  modifiers : List Modifier
  typeName : String
  vars : List ν
deriving DecidableEq

structure Parameter where
  typeName : String
  name : String
  ty : Ty
deriving DecidableEq

/-- A catch clause. More than one type makes it a multi-catch. -/
structure CatchClause (ν β : Type) where
  typeNames : List String
  types : List Ty
  parameter : ν
  body : β
deriving DecidableEq

/-- A method declaration without its body. -/
structure MethodHead where
  modifiers : List Modifier
  /-- The written return type; a constructor has none. -/
  returnType : Option String
  name : String
  params : List Parameter
  throws : List Ty
deriving DecidableEq

/-- A class declaration without its body. -/
structure ClassHead where
  modifiers : List Modifier
  name : String
  ty : Ty
deriving DecidableEq

/-- Is an exception of class `thrown` an instance of one of `types`? -/
def acceptsThrowable (types : List Ty) (thrown : String) : Bool :=
  (types.filterMap Ty.fqn?).any ((Ty.known thrown).assignableTo ·)

/-- Does the clause catch an exception of class `thrown`? -/
def CatchClause.accepts {ν β : Type} (clause : CatchClause ν β) (thrown : String) : Bool :=
  acceptsThrowable clause.types thrown

/-- May the method let an exception of class `thrown` escape? -/
def MethodHead.mayThrow (head : MethodHead) (thrown : String) : Bool :=
  acceptsThrowable head.throws thrown

def MethodHead.isStatic (head : MethodHead) : Bool := head.modifiers.contains .static

/-- The forms of a statement over expressions `ε`, variables `ν`, statements
`σ` and blocks `β`. -/
inductive StmtForm (ε ν σ β : Type) where
  | declare (decl : Declaration ν)
  | expr (e : ε)
  | ifElse (condition : ε) (onTrue : σ) (onFalse : Option σ)
  | whileLoop (condition : ε) (body : σ)
  | forLoop (init : List σ) (condition : Option ε) (update : List ε) (body : σ)
  | forEach (typeName : String) (item : ν) (iterable : ε) (body : σ)
  | tryCatch (resources : List (Declaration ν)) (body : β) (catches : List (CatchClause ν β))
      (finish : Option β)
  | block (body : β)
  | returnStmt (value : Option ε)
  | throwStmt (value : ε)
  | breakStmt
  | continueStmt
  /-- A method of a class body; abstract methods have no body. -/
  | method (head : MethodHead) (body : Option β)
  /-- A nested or local class. -/
  | cls (head : ClassHead) (body : β)
deriving DecidableEq

mutual

/-- A statement node. -/
structure Stmt where
  id : NodeId
  form : StmtForm Expr Variable Stmt Block

/-- A sequence of statements in braces. -/
structure Block where
  id : NodeId
  /-- A `static` initializer. -/
  isStatic : Bool
  stmts : List Stmt

end

/-- A top-level class. -/
structure ClassDecl where
  id : NodeId
  head : ClassHead
  /-- Fields, methods, nested classes and initializers. -/
  body : Block

structure Import where
  /-- The imported name; a static import names a member. -/
  name : String
  isStatic : Bool
deriving DecidableEq

/-- An import of everything in a package. -/
def Import.isWildcard (i : Import) : Bool := ['*', '.'].isPrefixOf i.name.toList.reverse

/-- Everything before the last dot of an imported name. -/
def Import.package (i : Import) : String := Fqn.package i.name

/-- The root of a tree. -/
structure CompilationUnit where
  id : NodeId
  package : Option String
  imports : List Import
  classes : List ClassDecl

/-- Is the class visible by its simple name, without one more import? -/
def CompilationUnit.seesType (unit : CompilationUnit) (fqn : String) : Bool :=
  let package := Fqn.package fqn
  package == "java.lang" || unit.package == some package ||
    unit.imports.any fun i =>
      !i.isStatic && (i.name == fqn || (i.isWildcard && i.package == package))

/-- The same node, not merely an equal one. -/
def Stmt.same (a b : Stmt) : Bool := a.id == b.id

/-- The same node, not merely an equal one. -/
def Block.same (a b : Block) : Bool := a.id == b.id

/-- The position of a statement of the block, by identity. -/
def Block.position? (block : Block) (stmt : Stmt) : Option Nat :=
  block.stmts.findIdx? (·.same stmt)

mutual

/-- Statements after which the next sibling is unreachable. Only what can be
read off the statement itself counts: a jump, a block that ends in one, an
`if` both of whose branches do. -/
def Stmt.completesAbruptly : Stmt → Bool
  | ⟨_, .returnStmt _⟩ => true
  | ⟨_, .throwStmt _⟩ => true
  | ⟨_, .breakStmt⟩ => true
  | ⟨_, .continueStmt⟩ => true
  | ⟨_, .block body⟩ => body.completesAbruptly
  | ⟨_, .ifElse _ onTrue (some onFalse)⟩ => onTrue.completesAbruptly && onFalse.completesAbruptly
  | _ => false

/-- Can control not fall off the end of the block? -/
def Block.completesAbruptly : Block → Bool
  | ⟨_, _, stmts⟩ => lastCompletesAbruptly stmts

/-- Does the last statement of a list complete abruptly? -/
def lastCompletesAbruptly : List Stmt → Bool
  | [] => false
  | [stmt] => stmt.completesAbruptly
  | _ :: rest => lastCompletesAbruptly rest

end

/-- The names a statement declares itself, not those of the statements in it. -/
def Stmt.declaredNames (stmt : Stmt) : List String :=
  match stmt.form with
  | .declare decl => decl.vars.map (·.name)
  | _ => []

def Stmt.declaration? (stmt : Stmt) : Option (Declaration Variable) :=
  match stmt.form with
  | .declare decl => some decl
  | _ => none

/-- The expression of an expression statement. -/
def Stmt.expression? (stmt : Stmt) : Option Expr :=
  match stmt.form with
  | .expr e => some e
  | _ => none

end JavaMend
