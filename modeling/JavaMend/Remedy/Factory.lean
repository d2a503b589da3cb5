import JavaMend.Remedy.Pass
import JavaMend.Tree.Library

/-!
# Factories and their configuration

Several remedies protect a factory: an object that is made by a static method
and configured by calls on the variable that holds it. A local is configured by
the statements that follow its declaration; what is missing is written after
the last of them. A field is configured anywhere in its class; what is missing
goes into an initializer right after the field.
-/

namespace JavaMend

/-- A variable that is initialized with a new factory. -/
structure Factory where
  declaration : Stmt
  held : Variable
  init : Expr
  /-- The statements after the declaration. -/
  following : List Stmt

namespace Factory

/-- The variables of one declaration that hold a factory. -/
def ofDeclaration (matcher : CallMatcher) (creation : List Signature) (stmt : Stmt)
    (following : List Stmt) : List Factory :=
  match stmt.declaration? with
  | none => []
  | some decl => decl.vars.filterMap fun held => do
    let init ← held.init
    guard (matcher.acceptsAny init.unparen creation)
    return { declaration := stmt, held, init, following }

/-- The factories declared among some statements. -/
def declaredIn (matcher : CallMatcher) (creation : List Signature) : List Stmt → List Factory
  | [] => []
  | stmt :: following =>
    ofDeclaration matcher creation stmt following ++ declaredIn matcher creation following

/-- The statements of all methods and initializers of the class body that a
path ends at. -/
def classStmts (path : Path) : List Stmt :=
  path.executedBodies.flatMap fun p => ((p.value?.bind Node.block?).map (·.stmts)).getD []

/-- The variable as something that methods are called on; a field if the
factory is declared in the body of a class `owner`. -/
def receiver (f : Factory) (owner : Option Ty) : Receiver :=
  if owner.isSome then .field f.held.name else .localVar f.held.name

/-- The statements that may configure the factory. -/
def surroundings (f : Factory) (owner : Option Ty) (path : Path) : List Stmt :=
  if owner.isSome then classStmts path else f.following

/-- The calls on the factory in some statements. -/
def calls (f : Factory) (owner : Option Ty) (stmts : List Stmt) : List Expr :=
  (stmts.flatMap fun s => (Node.stmt s).exprs).filter (f.receiver owner).isReceiverOf

/-- The last of some statements that is nothing but a call on the factory of
one of the shapes. -/
def lastSetter? (f : Factory) (owner : Option Ty) (matcher : CallMatcher)
    (shapes : List Signature) (stmts : List Stmt) : Option Stmt :=
  (stmts.filter fun s => s.expression?.any fun e =>
    (f.receiver owner).isReceiverOf e && matcher.acceptsAny e shapes).getLast?

/-- Notes that the factory is to be configured further: after the statement
`last` or after its declaration, or in an initializer for a field. -/
def addConfiguration (f : Factory) (owner : Option Ty) (last : Option Stmt) (stmts : List Stmt)
    (imports : List String) : PassM Unit Unit := do
  let (anchor, stmts) ← match owner with
    | some _ => do
      pure (f.declaration, [← VisitM.fresh (mkFieldInitializer f.declaration stmts)])
    | none => pure (last.getD f.declaration, stmts)
  if ← PassM.noteFix { anchor, tainted := f.init, parent := none, kind := .insertAfter stmts } then
    PassM.requestImports imports

end Factory

/-- The name of the constant that an expression reads: a field access, or a
name with an owner. -/
def Expr.constantName? (e : Expr) : Option String :=
  match e.form with
  | .field _ name => some name
  | .ident name (some _) => some name
  | _ => none

end JavaMend
