import JavaMend.Remedy.Pass
import JavaMend.Tree.Library

/-!
# Predictable random strings

`RandomStringUtils` draws its strings from a generator that can be predicted.
A class that calls it gets a generator of its own and a method that draws from
it, and the calls become calls of that method:

    private static final SecureRandom SECURE_RANDOM = new SecureRandom();
    private static final int DEF_COUNT = 20;
    static {
        SECURE_RANDOM.nextBytes(new byte[64]);
    }
    ...
    private static String generateRandomAlphanumericString() {
        return RandomStringUtils.random(DEF_COUNT, 0, 0, true, true, null, SECURE_RANDOM);
    }

A field `DEF_COUNT` of the class gives way to the new one. A class that has a
field `SECURE_RANDOM` is taken to be done.
-/

namespace JavaMend.RandomString

def drawing : List Signature :=
  signatures ["org.apache.commons.lang*.RandomStringUtils random*(..)"]

def generatorField : String := "SECURE_RANDOM"

def lengthField : String := "DEF_COUNT"

def methodName : String := "generateRandomAlphanumericString"

/-- The declaration of a single field in a class body. -/
def loneField? (body : Block) (name : String) : Option Stmt :=
  body.stmts.find? fun member =>
    member.declaration?.any fun decl =>
      match decl.vars with
      | [v] => v.name == name
      | _ => false

/-- The calls in the fields, methods and initializers of the class body that
the path ends at. -/
def drawsIn (matcher : CallMatcher) (path : Path) (body : Block) : List Expr :=
  let fields := (body.stmts.filter (·.declaration?.isSome)).map Node.stmt
  let bodies := path.executedBodies.filterMap (·.value?)
  ((fields ++ bodies).flatMap Node.exprs).filter (matcher.acceptsAny · drawing)

/-- Is the expression a call of a method that the class `owner` declares? -/
def isMemberOf (owner : String) (e : Expr) : Bool :=
  match e.form with
  | .call _ _ _ (some method) => method.owner.isClass owner
  | _ => false

/-- The `RandomStringUtils` class for the new method: the old one, if nothing
in the class uses another. -/
def utilsFor (calls : List Expr) : String :=
  if calls.all (isMemberOf Fqn.legacyRandomStringUtils) then Fqn.legacyRandomStringUtils
  else Fqn.randomStringUtils

/-! ## The new members -/

def constantModifiers : List Modifier := [.privateAccess, .static, .final]

/-- A read of the generator. -/
def mkGeneratorRead (owner : Ty) : Fresh Expr :=
  Expr.make (.ident generatorField (some owner)) (.known Fqn.secureRandom)

/-- The two fields and the initializer. -/
def mkHead (owner : Ty) : Fresh (List Stmt) := do
  let generator ← Stmt.mkDeclare constantModifiers (.known Fqn.secureRandom) generatorField
    (some (← Expr.mkCreate Jdk.secureRandom []))
  let count ← Stmt.mkDeclare constantModifiers .int lengthField (some (← Expr.mkInt 20))
  let bytes ← Expr.mkArray (.primitive .byte) (← Expr.mkInt 64)
  let warmUp ← Stmt.mkExpr
    (← Expr.mkCall (← mkGeneratorRead owner) Jdk.secureRandomNextBytes [bytes])
  let initializer ← Stmt.make (.block (← Block.make [warmUp] true))
  return [generator, count, initializer]

/-- The method. -/
def mkMethod (owner : Ty) (utils : String) : Fresh Stmt := do
  let drawn ← Expr.mkStaticCall (Jdk.randomStringUtilsRandom utils)
    [← Expr.make (.ident lengthField (some owner)) .int, ← Expr.mkInt 0, ← Expr.mkInt 0,
      ← Expr.mkBool true, ← Expr.mkBool true, ← Expr.mkNull, ← mkGeneratorRead owner]
  let body ← Block.make [← Stmt.make (.returnStmt (some drawn))] false
  let head : MethodHead :=
    { modifiers := [.privateAccess, .static], returnType := some "String", name := methodName,
      params := [], throws := [] }
  Stmt.make (.method head (some body))

/-- Notes the new members for a class body, if it needs them. -/
def addMembers (env : PassEnv) (body : Block) (owner : Ty) : PassM Unit Unit := do
  if (loneField? body generatorField).isSome then return ()
  let calls := drawsIn env.matcher (← VisitM.path) body
  match calls, body.stmts.head?, body.stmts.getLast? with
  | call :: _, some first, some last =>
    let utils := utilsFor calls
    let fix (anchor : Stmt) (kind : FixKind) : PendingFix :=
      { anchor, tainted := call, parent := none, kind }
    if ← PassM.noteFix (fix first (.insertBefore (← VisitM.fresh (mkHead owner)))) then
      let method ← VisitM.fresh (mkMethod owner utils)
      let _ ← PassM.noteFix (fix last (.insertAfter [method]))
      match loneField? body lengthField with
      | some existing =>
        let _ ← PassM.noteFix (fix existing .remove)
      | none => pure ()
      PassM.requestImports [Fqn.secureRandom, utils]
  | _, _, _ => return ()

/-- Replaces a call, unless the class around it is done. -/
def replaceCall (call : Expr) : PassM Unit Unit := do
  match ((← VisitM.path).enclosing? .cls).bind (·.2.class?) with
  | none => return ()
  | some (head, body) =>
    unless (loneField? body generatorField).isSome do
      let method := MethodRef.static head.ty methodName [] .string
      PassM.replaceHere call (← VisitM.fresh (Expr.mkLocalCall method [])) []

def remedy (env : PassEnv) : Remedy Unit where
  enter
    | .expr e => do
      if env.matcher.acceptsAny e drawing then
        replaceCall e
        return false
      else return true
    | _ => return true
  leave body := do
    match (← VisitM.path).bodyOwner? with
    | some owner => addMembers env body owner
    | none => return ()

/-- The pass that replaces predictable random strings. -/
def pass (env : PassEnv) : Pass := ((remedy env).visitor env).pass ()

end JavaMend.RandomString
