import JavaMend.Remedy.Factory

/-!
# `TransformerFactory`

A factory must not fetch external document type definitions or stylesheets and
must process securely. Code that allows a protocol, or that switches secure
processing off, has made a choice; such a factory is left alone.
-/

namespace JavaMend.Transformer

def creation : List Signature := signatures ["javax.xml.transform.TransformerFactory new*(..)"]

def configuration : List Signature :=
  signatures
    ["javax.xml.transform.TransformerFactory setAttribute(java.lang.String, ..)",
      "javax.xml.transform.TransformerFactory setFeature(java.lang.String, boolean)"]

/-- The settings at stake. -/
inductive Restriction where
  | externalDtd
  | externalStylesheet
  | secureProcessing
deriving DecidableEq

namespace Restriction

/-- The settings in the order they are made. -/
def all : List Restriction := [externalDtd, externalStylesheet, secureProcessing]

/-- The constant that names the setting. -/
def constant : Restriction → String
  | externalDtd => "ACCESS_EXTERNAL_DTD"
  | externalStylesheet => "ACCESS_EXTERNAL_STYLESHEET"
  | secureProcessing => "FEATURE_SECURE_PROCESSING"

/-- The value of the constant. -/
def key : Restriction → String
  | externalDtd => "http://javax.xml.XMLConstants/property/accessExternalDTD"
  | externalStylesheet => "http://javax.xml.XMLConstants/property/accessExternalStylesheet"
  | secureProcessing => "http://javax.xml.XMLConstants/feature/secure-processing"

/-- The setting that an argument names, by its constant or its key. -/
def of? (arg : Expr) : Option Restriction :=
  let arg := arg.unparen
  match arg.constantName?, arg.stringValue? with
  | some name, _ => all.find? (·.constant == name)
  | none, some text => all.find? (·.key == text)
  | none, none => none

end Restriction

/-- The setting that a call makes. -/
def restrictionOf? (call : Expr) : Option Restriction := call.args.head?.bind Restriction.of?

/-- Does a call open the factory up on purpose? -/
def opens (call : Expr) : Bool :=
  let value : Option Literal := (call.args[1]?).bind fun arg => arg.unparen.literal?
  match restrictionOf? call, value with
  | some .secureProcessing, some (.boolean false) => true
  | some .externalDtd, some (.string protocols) => !protocols.isEmpty
  | some .externalStylesheet, some (.string protocols) => !protocols.isEmpty
  | _, _ => false

/-- The settings that the calls on a factory leave open. -/
def leftOpen (matcher : CallMatcher) (calls : List Expr) : List Restriction :=
  let settings := calls.filter (matcher.acceptsAny · configuration)
  if settings.any opens then []
  else Restriction.all.filter fun s => !(settings.filterMap restrictionOf?).contains s

/-- `factory.setAttribute(XMLConstants.ACCESS, "");` or
`factory.setFeature(XMLConstants.FEATURE_SECURE_PROCESSING, true);` -/
def mkRestriction (factory : Expr) (restriction : Restriction) : Fresh Stmt := do
  let key ← Expr.mkStaticField (.known Fqn.xmlConstants) restriction.constant .string
  let copy ← factory.freshCopy
  Stmt.mkExpr (← match restriction with
    | .secureProcessing => do
      Expr.mkCall copy Jdk.transformerFactorySetFeature [key, ← Expr.mkBool true]
    | _ => do Expr.mkCall copy Jdk.transformerFactorySetAttribute [key, ← Expr.mkString ""])

/-- Notes what one factory lacks. -/
def protect (env : PassEnv) (path : Path) (f : Factory) : PassM Unit Unit := do
  let owner := path.bodyOwner?
  let around := f.surroundings owner path
  match leftOpen env.matcher (f.calls owner around) with
  | [] => return ()
  | settings =>
    let stmts ← VisitM.fresh do
      let read ← f.held.mkRead owner
      settings.mapM (mkRestriction read)
    let last := f.lastSetter? owner env.matcher configuration around
    f.addConfiguration owner last stmts [Fqn.xmlConstants]

def remedy (env : PassEnv) : Remedy Unit where
  leave block := do
    let path ← VisitM.path
    (Factory.declaredIn env.matcher creation block.stmts).forM (protect env path)

/-- The pass that hardens factories. -/
def pass (env : PassEnv) : Pass := ((remedy env).visitor env).pass ()

end JavaMend.Transformer
