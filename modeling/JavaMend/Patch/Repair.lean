import JavaMend.Patch.Note
import JavaMend.Patch.Replace
import JavaMend.Patch.Splice
import JavaMend.Traversal.Scope

/-!
# Applying pending fixes

When the visit of a block ends, the fixes noted on its frame are applied to
it. A fix may find its anchor rebuilt, by the visit itself or by a fix before
it; a `Repair` keeps track of which statement stands for which. A fix whose
anchor is gone from the block, whose expression is gone from its anchor, or
which is a guard without a directory, is dropped.
-/

namespace JavaMend

/-- A block in the course of being fixed. -/
structure Repair where
  /-- The path to the block as it was when the visit started. -/
  path : Path
  block : Block
  /-- Statements and what was put in their places. -/
  renamed : List (Stmt × Stmt)
  /-- The names that extractions have taken. -/
  extracted : List String

namespace Repair

/-- Starts from the block `after` that a visit made of `before`. A visit
rebuilds statements in place, so equally many statements correspond one to
one. -/
def start (path : Path) (before after : Block) : Repair where
  path
  block := after
  renamed :=
    if before.stmts.length = after.stmts.length then
      (before.stmts.zip after.stmts).filter fun (old, new) => !old.same new
    else []
  extracted := []

/-- The path to the block as it is now. -/
def currentPath (c : Repair) : Fresh Path := c.path.replacing (c.path.length - 1) (.block c.block)

/-- Follows a statement to what was put in its place, step by step, until it is
one of the block's. -/
def follow (c : Repair) : Nat → Stmt → Option Stmt
  | 0, _ => none
  | fuel + 1, stmt =>
    if (c.block.position? stmt).isSome then some stmt
    else
      match c.renamed.find? (·.1.same stmt) with
      | some (_, new) => c.follow fuel new
      | none => none

/-- The statement of the block that an anchor stands for. -/
def resolve? (c : Repair) (anchor : Stmt) : Option Stmt := c.follow (c.renamed.length + 1) anchor

variable {σ : Type}

/-- Writes a fragment into the block. -/
def splice (c : Repair) (splicer : Splicer) (fragment : Fragment) (side : SpliceSide)
    (anchor : Stmt) : PassM σ Repair := do
  let block ← PassM.make .splice (splicer.splice c.block fragment { side, anchor })
  return { c with block }

/-- Puts statements in the place of an anchor, one of which takes its role. -/
def swap (c : Repair) (splicer : Splicer) (anchor : Stmt) (stmts : List Stmt)
    (successor : Stmt) : PassM σ Repair := do
  let c ← c.splice splicer (.statements stmts) .replace anchor
  return { c with renamed := c.renamed ++ [(anchor, successor)] }

/-- Declares a `final` local for an expression before the anchor, and reads it
wherever an alike expression stood in the anchor. -/
def extract (c : Repair) (splicer : Splicer) (anchor : Stmt) (tainted : Expr) (base : String) :
    PassM σ Repair := do
  let path ← VisitM.fresh c.currentPath
  let name := leastFreeName base (path.takenNames ++ c.extracted)
  let read ← VisitM.fresh (Expr.mkIdent name tainted.ty)
  match ← VisitM.fresh (anchor.replaceAlike? tainted read) with
  | none => return c
  | some changed =>
    let declaration ← VisitM.fresh (Stmt.mkDeclare [.final] tainted.ty name (some tainted))
    PassM.requestImports tainted.ty.fqn?.toList
    let c := { c with extracted := name :: c.extracted }
    c.swap splicer anchor [declaration, changed] changed

/-- Writes a guard after the anchor. -/
def guardAfter (c : Repair) (splicer : Splicer) (anchor : Stmt) (tainted parent : Expr)
    (variant : GuardVariant) (message : String) : PassM σ Repair := do
  let path ← VisitM.fresh c.currentPath
  let thrown := (path.child (.stmt anchor)).guardException
  match guardTemplate variant thrown message with
  | .error e => throw (.template e)
  | .ok template =>
    let fragment ← PassM.make .template (template.render [tainted, parent])
    PassM.requestImports template.imports
    c.splice splicer fragment .after anchor

/-- Replaces an expression of the anchor. -/
def replace (c : Repair) (splicer : Splicer) (anchor : Stmt) (tainted new : Expr)
    (imports : List String) : PassM σ Repair := do
  match ← VisitM.fresh (anchor.replaceExpr? tainted new) with
  | none => return c
  | some changed =>
    PassM.requestImports imports
    c.swap splicer anchor [changed] changed

/-- Applies one fix, if it still can be. -/
def apply (splicer : Splicer) (c : Repair) (fix : PendingFix) : PassM σ Repair := do
  match c.resolve? fix.anchor with
  | none => return c
  | some anchor =>
    match fix.kind with
    | .extract base => c.extract splicer anchor fix.tainted base
    | .guardAfter variant message =>
      match fix.parent with
      | some parent => c.guardAfter splicer anchor fix.tainted parent variant message
      | none => return c
    | .replace new imports => c.replace splicer anchor fix.tainted new imports
    | .insertAfter stmts => c.splice splicer (.statements stmts) .after anchor
    | .insertBefore stmts => c.splice splicer (.statements stmts) .before anchor
    | .remove => c.splice splicer (.statements []) .replace anchor

end Repair

/-- Applies the fixes noted on the current frame to `after`, which a visit
made of the block `before` of that frame. Without fixes it stays the node it
is. -/
def repair {σ : Type} (splicer : Splicer) (before after : Block) : PassM σ Block := do
  match ← VisitM.modifyCursor (·.take Note.fixTopic) with
  | none => return after
  | some pending =>
    let repaired := Repair.start (← VisitM.path) before after
    let repaired ← pending.ordered.foldlM (Repair.apply splicer) repaired
    return repaired.block

end JavaMend
