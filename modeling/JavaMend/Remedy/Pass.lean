import JavaMend.Flow.Walk
import JavaMend.Match.Shape
import JavaMend.Patch.Repair
import JavaMend.Remedy.Surroundings

/-!
# Passes

A remedy is a way to visit a tree: it looks at each node on the way down, says
whether to go below the node, and looks at each block again on the way up.
What it finds it notes on the cursor. When the visit of a block ends, the fixes
noted there are applied; when the visit of the unit ends, the imports that they
need are added. A pass is one such visit of a whole unit.
-/

namespace JavaMend

/-- What every remedy works with. -/
structure PassEnv where
  matcher : CallMatcher
  limits : FlowLimits
  splicer : Splicer

/-- The flow query that starts at the end of a path. -/
def PassEnv.queryFrom (env : PassEnv) (start : Path) : FlowQuery :=
  { start, limits := env.limits }

/-- The signatures of a list of descriptors; what is no descriptor is left
out. -/
def signatures (descriptors : List String) : List Signature :=
  descriptors.filterMap fun descriptor => (@Signature.parse .unlimited descriptor).toOption

namespace FlowSpec

/-- The value of one expression, followed to sinks without sanitizers. -/
def valueOf (source : Expr) (isSink : Path → Bool) : FlowSpec where
  kind := .value
  isSource n := n.expr.same source
  isSink n := isSink n.path
  sanitizes := none

end FlowSpec

/-- How a remedy with its own state `σ` visits a tree. -/
structure Remedy (σ : Type) where
  /-- Looks at a node before its children; answers whether to visit them. -/
  enter : Node → PassM σ Bool := fun _ => return true
  /-- Looks at a block after its children, before its fixes are applied. The
  block is given as it was before the visit. -/
  leave : Block → PassM σ Unit := fun _ => return ()

/-- The visitor of a remedy. -/
def Remedy.visitor {σ : Type} (remedy : Remedy σ) (env : PassEnv) :
    Visitor EngineError Note σ where
  visit n descend := do
    if ← remedy.enter n then
      let walked ← descend
      match n, walked with
      | .block before, .block after =>
        remedy.leave before
        return .block (← repair env.splicer before after)
      | _, _ => return walked
    else return n

/-- Runs a visit with a cursor of its own at the end of a path; answers what it
makes, the cursor it leaves and its own state. -/
def PassM.apart {σ τ α : Type} (path : Path) (own : τ) (action : PassM τ α) :
    PassM σ (α × Cursor Note × τ) := fun site =>
  match action { cursor := .ofPath path, next := site.next, own } with
  | .ok a inner => .ok (a, inner.cursor, inner.own) { site with next := inner.next }
  | .error e inner => .error e { site with next := inner.next }

/-- Notes a replacement of the expression at the end of the current path. There
is no statement to note it for outside of every block. -/
def PassM.replaceHere {σ : Type} (tainted new : Expr) (imports : List String) :
    PassM σ Unit := do
  match (← VisitM.path).anchor? with
  | some anchor =>
    let _ ← PassM.noteFix { anchor, tainted, parent := none, kind := .replace new imports }
  | none => return ()

/-- What a pass makes of a unit. -/
structure PassResult where
  unit : CompilationUnit
  findings : List Finding

/-- One visit of a whole unit. -/
abbrev Pass := CompilationUnit → ExceptT EngineError Fresh PassResult

/-- The pass of a visitor. Imports are only added to a unit that changed. -/
def Visitor.pass {σ : Type} (visitor : Visitor EngineError Note σ) (own : σ) : Pass :=
  fun unit next =>
    match visitor.runTree (.unit unit) next own with
    | .error e site => (.error e, site.next)
    | .ok out site =>
      let (findings, cursor) := site.cursor.takeFindings
      match out with
      | .unit changed =>
        if changed.id = unit.id then (.ok { unit := changed, findings }, site.next)
        else
          let (unit, next) := cursor.takeImports.1.apply changed site.next
          (.ok { unit, findings }, next)
      | _ => (.ok { unit, findings }, site.next)

end JavaMend
