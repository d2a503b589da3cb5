import JavaMend.Remedy.Factory
import JavaMend.Traversal.Scope

/-!
# `DocumentBuilderFactory`

A factory must refuse document types, by a feature that is set to a literal
`true`. A project that uses external document type definitions cannot refuse
them; there, a factory that sets none of the entity features gets all of them
switched off instead. Features are recognized by their literal names, which
are followed through locals to the calls that they end up in.
-/

namespace JavaMend.DocumentBuilder

def creation : List Signature :=
  signatures ["javax.xml.parsers.DocumentBuilderFactory newInstance*(..)"]

def setFeature : List Signature :=
  signatures ["javax.xml.parsers.DocumentBuilderFactory setFeature(java.lang.String, boolean)"]

def setXincludeAware : List Signature :=
  signatures ["javax.xml.parsers.DocumentBuilderFactory setXIncludeAware(boolean)"]

/-- The feature that refuses document types. -/
def doctypeFeature : String := "http://apache.org/xml/features/disallow-doctype-decl"

/-- The entity features in the order they are switched off. -/
def entityFeatures : List String :=
  [ "http://xml.org/sax/features/external-parameter-entities",
    "http://apache.org/xml/features/nonvalidating/load-external-dtd",
    "http://xml.org/sax/features/external-general-entities" ]

/-! ## What is configured -/

/-- Something that code says about a factory. -/
inductive Fact where
  | doctypeDisallowed
  | entityFeatureSet
  | xincludeSet
deriving DecidableEq

/-- What a call says about the factory it is made on, when a feature is its
first argument. -/
def factOf? (feature : String) (call : Expr) : Option Fact :=
  if feature == doctypeFeature then
    if (call.args[1]?).any fun value => value.unparen.literal? == some (.boolean true) then
      some .doctypeDisallowed
    else none
  else some .entityFeatureSet

/-- The features among literals. -/
def knownFeature? (e : Expr) : Option String :=
  e.stringValue?.filter fun value => (doctypeFeature :: entityFeatures).contains value

/-- What the expression at the end of a path says, about the variables of what
names. -/
def factsAt (env : PassEnv) (path : Path) : List (String × Fact) :=
  match path.expr? with
  | none => []
  | some e =>
    if env.matcher.acceptsAny e setXincludeAware then
      e.receiverName?.toList.map fun name => (name, .xincludeSet)
    else
      match knownFeature? e with
      | none => []
      | some feature =>
        let isSink p := setFeature.any (env.matcher.isArgumentOf p · 0)
        ((env.queryFrom path).findSinks (.valueOf e isSink)).sinks.filterMap fun sink => do
          let call ← sink.path.operandOf?
          return (← call.receiverName?, ← factOf? feature call)

/-- What the code below some nodes says. -/
def factsBelow (env : PassEnv) (bases : List Path) : List (String × Fact) :=
  (bases.flatMap (·.exprPaths)).flatMap (factsAt env)

/-! ## What is written -/

/-- `factory.setFeature(feature, enabled);` -/
def mkSetFeature (factory feature : Expr) (enabled : Bool) : Fresh Stmt := do
  let copy ← factory.freshCopy
  Stmt.mkExpr
    (← Expr.mkCall copy Jdk.documentBuilderFactorySetFeature [feature, ← Expr.mkBool enabled])

/-- Statements in a `try` that rethrows what an unsupported feature throws. -/
def mkGuarded (stmts : List Stmt) (opening feature exception : String) : Fresh Stmt := do
  let thrown := Ty.known Fqn.parserConfigurationException
  let start ← Expr.mkAdd (← Expr.mkString opening) (← Expr.mkIdent feature .string)
  let message ← Expr.mkAdd start
    (← Expr.mkString "' is not supported by your XML processor.")
  let rethrow ← Stmt.make (.throwStmt
    (← Expr.mkCreate Jdk.illegalStateException [message, ← Expr.mkIdent exception thrown]))
  let handler ← CatchClause.make thrown exception (← Block.make [rethrow] false)
  Stmt.make (.tryCatch [] (← Block.make stmts false) [handler] none)

/-- Refuses document types. -/
def mkRefuseDoctype (factory : Expr) (feature exception : String) : Fresh (List Stmt) := do
  let declaration ← Stmt.mkDeclare [] .string feature (some (← Expr.mkString doctypeFeature))
  let enable ← mkSetFeature factory (← Expr.mkIdent feature .string) true
  return [declaration, ← mkGuarded [enable]
    "ParserConfigurationException was thrown. The feature '" feature exception]

/-- `factory.method(false);` -/
def mkClear (factory : Expr) (method : MethodRef) : Fresh Stmt := do
  Stmt.mkExpr (← Expr.mkCall (← factory.freshCopy) method [← Expr.mkBool false])

/-- Assigns an entity feature to the local `feature` and switches it off. -/
def mkSwitchOff (factory : Expr) (feature name : String) : Fresh (List Stmt) := do
  let assign ← Stmt.mkExpr
    (← Expr.mkAssign (← Expr.mkIdent feature .string) (← Expr.mkString name))
  return [assign, ← mkSetFeature factory (← Expr.mkIdent feature .string) false]

/-- Switches all entity features off. -/
def mkDisableEntities (factory : Expr) (feature exception : String) (xincludeSet : Bool) :
    Fresh (List Stmt) := do
  let declaration ← Stmt.mkDeclare [] .string feature (some (← Expr.mkNull))
  let features ← entityFeatures.mapM (mkSwitchOff factory feature)
  let xinclude ←
    if xincludeSet then pure []
    else pure [← mkClear factory Jdk.documentBuilderFactorySetXincludeAware]
  let expand ← mkClear factory Jdk.documentBuilderFactorySetExpandEntityReferences
  let constant ← Expr.mkStaticField (.known Fqn.xmlConstants) "FEATURE_SECURE_PROCESSING" .string
  let secure ← mkSetFeature factory constant true
  return [declaration, ← mkGuarded (features.flatten ++ xinclude ++ [expand, secure])
    "The feature '" feature exception]

/-! ## The remedy -/

/-- The last of the statements after a local's declaration in which a feature
of the local is set. -/
def lastFeatureStmt? (env : PassEnv) (f : Factory) : Option Stmt :=
  (f.following.filter fun stmt =>
    (Node.stmt stmt).exprs.any fun e =>
      e.callsLocal f.held.name && env.matcher.acceptsAny e setFeature).getLast?

/-- Notes what one factory lacks; answers the names taken after it. -/
def protect (env : PassEnv) (dtdsRequired : Bool) (path : Path)
    (facts : List (String × Fact)) (taken : List String) (f : Factory) :
    PassM Unit (List String) := do
  let holds (fact : Fact) : Bool := facts.contains (f.held.name, fact)
  if holds .doctypeDisallowed || (dtdsRequired && holds .entityFeatureSet) then return taken
  let owner := path.bodyOwner?
  let feature := leastFreeName "FEATURE" taken
  let taken := feature :: taken
  let exception := leastFreeName "e" taken
  let stmts ← VisitM.fresh do
    let read ← f.held.mkRead owner
    if dtdsRequired then mkDisableEntities read feature exception (holds .xincludeSet)
    else mkRefuseDoctype read feature exception
  f.addConfiguration owner (lastFeatureStmt? env f) stmts
    (Fqn.parserConfigurationException :: if dtdsRequired then [Fqn.xmlConstants] else [])
  return taken

def remedy (env : PassEnv) (dtdsRequired : Bool) : Remedy Unit where
  leave block := do
    let path ← VisitM.path
    match Factory.declaredIn env.matcher creation block.stmts with
    | [] => return ()
    | factories =>
      let bases := if path.bodyOwner?.isSome then path.executedBodies else [path]
      let facts := factsBelow env bases
      let _ ← factories.foldlM (protect env dtdsRequired path facts) path.takenNames

/-- The pass that hardens factories, for a project that uses some external
document type definitions. -/
def pass (env : PassEnv) (externalDtds : List String) : Pass :=
  ((remedy env !externalDtds.isEmpty).visitor env).pass ()

end JavaMend.DocumentBuilder
