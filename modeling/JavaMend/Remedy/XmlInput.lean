import JavaMend.Remedy.Factory

/-!
# `XMLInputFactory`

A factory must not resolve external entities and must not process document
type definitions. Definitions that are switched on by hand, a resolver, or
definitions that the project is known to use, mean that somebody takes care of
them; then only the entities are switched off.
-/

namespace JavaMend.XmlInput

def creation : List Signature := signatures ["javax.xml.stream.XMLInputFactory new*(..)"]

def setProperty : List Signature :=
  signatures ["javax.xml.stream.XMLInputFactory setProperty(java.lang.String, ..)"]

def setResolver : List Signature :=
  signatures ["javax.xml.stream.XMLInputFactory setXMLResolver(..)"]

/-- The properties at stake. -/
inductive Property where
  | externalEntities
  | supportDtd
deriving DecidableEq

namespace Property

def all : List Property := [externalEntities, supportDtd]

/-- The constant that names the property. -/
def constant : Property → String
  | externalEntities => "IS_SUPPORTING_EXTERNAL_ENTITIES"
  | supportDtd => "SUPPORT_DTD"

/-- The value of the constant. -/
def key : Property → String
  | externalEntities => "javax.xml.stream.isSupportingExternalEntities"
  | supportDtd => "javax.xml.stream.supportDTD"

/-- The property that an argument names, by its constant or its key. -/
def of? (arg : Expr) : Option Property :=
  let arg := arg.unparen
  match arg.constantName?, arg.stringValue? with
  | some name, _ => all.find? (·.constant == name)
  | none, some text => all.find? (·.key == text)
  | none, none => none

end Property

/-- The truth value that an argument is: a literal or a constant of `Boolean`. -/
def boolean? (arg : Expr) : Option Bool :=
  match arg.unparen.form with
  | .literal (.boolean value) => some value
  | .field target name =>
    if target.ty.isClass "java.lang.Boolean" then
      if name == "TRUE" then some true else if name == "FALSE" then some false else none
    else none
  | _ => none

/-- Does a call set a property to a value? -/
def sets (property : Property) (value : Bool) (call : Expr) : Bool :=
  call.args.head?.bind Property.of? == some property && call.args[1]?.bind boolean? == some value

/-- The properties that the calls on a factory leave open. -/
def leftOpen (matcher : CallMatcher) (calls : List Expr) (dtdsRequired : Bool) : List Property :=
  let settings := calls.filter (matcher.acceptsAny · setProperty)
  let entitiesOff := settings.any (sets .externalEntities false)
  let dtdsHandled := settings.any (sets .supportDtd false) || settings.any (sets .supportDtd true) ||
    calls.any (matcher.acceptsAny · setResolver) || dtdsRequired
  (if entitiesOff then [] else [.externalEntities]) ++ (if dtdsHandled then [] else [.supportDtd])

/-- `factory.setProperty(XMLInputFactory.PROPERTY, false);` -/
def mkDisable (factory : Expr) (property : Property) : Fresh Stmt := do
  let copy ← factory.freshCopy
  let key ← Expr.mkStaticField (.known Fqn.xmlInputFactory) property.constant .string
  Stmt.mkExpr (← Expr.mkCall copy Jdk.xmlInputFactorySetProperty [key, ← Expr.mkBool false])

/-- Notes what one factory lacks. -/
def protect (env : PassEnv) (dtdsRequired : Bool) (path : Path) (f : Factory) :
    PassM Unit Unit := do
  let owner := path.bodyOwner?
  let around := f.surroundings owner path
  match leftOpen env.matcher (f.calls owner around) dtdsRequired with
  | [] => return ()
  | properties =>
    let stmts ← VisitM.fresh do
      let read ← f.held.mkRead owner
      properties.mapM (mkDisable read)
    let last := f.lastSetter? owner env.matcher setProperty around
    f.addConfiguration owner last stmts [Fqn.xmlInputFactory]

def remedy (env : PassEnv) (dtdsRequired : Bool) : Remedy Unit where
  leave block := do
    let path ← VisitM.path
    (Factory.declaredIn env.matcher creation block.stmts).forM
      (protect env dtdsRequired path)

/-- The pass that hardens factories, for a project that uses some external
document type definitions. -/
def pass (env : PassEnv) (externalDtds : List String) : Pass :=
  ((remedy env !externalDtds.isEmpty).visitor env).pass ()

end JavaMend.XmlInput
