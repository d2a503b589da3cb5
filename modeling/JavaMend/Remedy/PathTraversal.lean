import JavaMend.Remedy.Pass
import JavaMend.Tree.Library

/-!
# Path traversal

A path that is put together from what a user chose can lead out of the
directory it was meant for. Each body of a method or an initializer is taken
by itself, after the bodies nested in it:

1. Checks that compare beginnings of paths as texts are completed, where the
   settings ask for it (`PartialPath`).
2. The expressions that hold user input are found by following it from its
   sources.
3. Paths that are glued together as texts are split into a directory and a
   child (`Normalize`).
4. Constructions of a path from a directory and a child that holds user input
   are followed; those that reach the creation of a file without a containment
   check get a guard, or are moved into a local that can get one (`Guarding`).

What the third step changes is kept only if the fourth finds something to fix.
A body that was changed otherwise is left for the next run.
-/

namespace JavaMend.PathTraversal

/-- What a pass is asked to do. -/
structure PathSettings where
  /-- The calls that answer what a user chose. -/
  userInput : List Signature
  /-- How the names of new locals begin. -/
  variableStem : String
  fixPartialPath : Bool
  /-- The message of the exception that a guard throws. -/
  guardMessage : String

/-! ## Partial paths -/

namespace PartialPath

def stringStartsWith : List Signature :=
  signatures ["java.lang.String startsWith(java.lang.String)"]

def canonicalPath : List Signature := signatures ["java.io.File getCanonicalPath()"]

/-- The directory of a check `path.startsWith(directory.getCanonicalPath())`,
which a sibling whose name starts like the directory's passes as well. -/
def directory? (matcher : CallMatcher) (e : Expr) : Option Expr := do
  guard (matcher.acceptsAny e stringStartsWith)
  let directory ← e.args.head?
  guard (matcher.acceptsAny directory.unparen canonicalPath)
  return directory

/-- Notes that a separator is to follow the directory. -/
def complete (directory : Expr) : PassM Unit Unit := do
  let new ← VisitM.fresh do
    Expr.mkAdd directory (← Expr.mkStaticField .file "separator" .string)
  PassM.replaceHere directory new [Fqn.file]

def remedy (env : PassEnv) : Remedy Unit where
  enter
    | .expr e => do
      match directory? env.matcher e with
      | some directory => complete directory
      | none => pure ()
      return true
    | _ => return true

end PartialPath

/-! ## Splitting texts -/

namespace Normalize

def fileOfString : List Signature :=
  signatures ["java.io.File <constructor>(java.lang.String)"]

def stringPathSinks : List Signature :=
  signatures
    ["java.io.FileOutputStream <constructor>(java.lang.String, ..)",
      "java.io.FileWriter <constructor>(java.lang.String, ..)",
      "java.io.PrintWriter <constructor>(java.lang.String, ..)",
      "java.io.PrintStream <constructor>(java.lang.String, ..)",
      "java.io.RandomAccessFile <constructor>(java.lang.String, ..)"]

/-- The operands of a concatenation that is nested to the left, leftmost first,
before the operands `after`. -/
def operandsBefore (e : Expr) (after : List Expr) : List Expr :=
  match e with
  | ⟨id, ty, .binary .add left right⟩ =>
    if ty.isString then operandsBefore left (right :: after)
    else ⟨id, ty, .binary .add left right⟩ :: after
  | e => e :: after

/-- The operands of a concatenation, with any parentheses around it. -/
def operandsOf (e : Expr) : List Expr := operandsBefore e.unparen []

/-- Puts operands together again. -/
def mkConcatenation? : List Expr → Fresh (Option Expr)
  | [] => return none
  | first :: rest => return some (← rest.foldlM Expr.mkAdd first)

/-- Does an expression hold user input somewhere? -/
def readsInput (userInput : List NodeId) (e : Expr) : Bool :=
  (Node.expr e).exprs.any fun sub => userInput.contains sub.id

/-- The least index from `low` up to and without `high` at which an operand is
of a sort. -/
def firstBetween? (operands : List Expr) (low high : Nat) (isSort : Expr → Bool) : Option Nat :=
  (List.range high).find? fun i => low ≤ i && (operands[i]?).any isSort

/-- How many operands make the directory and how many operands the child starts
after: around a separator, behind a text that ends with one, or before the
first operand that holds user input. -/
def cut? (operands : List Expr) (userInput : List NodeId) : Option (Nat × Nat) :=
  let last := operands.length - 1
  match firstBetween? operands 1 last Expr.isSeparator,
    firstBetween? operands 0 last Expr.endsWithSeparator with
  | some i, _ => some (i, i + 1)
  | none, some i => some (i + 1, i + 1)
  | none, none =>
    (firstBetween? operands 1 operands.length (readsInput userInput)).map fun i => (i, i)

/-- The constructor for a directory of a type and a child that is a text. -/
def constructorFor? (parent child : Ty) : Option MethodRef :=
  if !child.isString then none
  else if parent.isFile then some Jdk.fileOfParentAndChild
  else if parent.isString then some Jdk.fileOfStrings
  else none

/-- `new File(parent, child)` for a path that is a concatenation, if it can be
split. -/
def splitPath? (path : Expr) (userInput : List NodeId) : Fresh (Option Expr) := do
  let operands := operandsOf path
  if operands.length < 2 then return none
  match cut? operands userInput with
  | none => return none
  | some (parentEnd, childStart) =>
    match ← mkConcatenation? (operands.take parentEnd),
      ← mkConcatenation? (operands.drop childStart) with
    | some parent, some child =>
      match constructorFor? parent.ty child.ty with
      | some constructor => return some (← Expr.mkCreate constructor [parent, child])
      | none => return none
    | _, _ => return none

/-- The constructor that takes a file in the place of its first parameter. -/
def takingFile (constructor : MethodRef) : MethodRef :=
  match constructor.params with
  | _ :: rest => { constructor with params := .file :: rest }
  | [] => constructor

/-- A creation with a file as its first argument. -/
def withFile? (sink file : Expr) : Fresh (Option Expr) := do
  match sink.form with
  | .create className (_ :: rest) method =>
    return some (← Expr.make (.create className (file :: rest) (method.map takingFile)) sink.ty)
  | _ => return none

/-- What an expression becomes, and the classes that it then names: a file of a
concatenation is split, and a text that a stream is opened on becomes a file. -/
def normalized? (matcher : CallMatcher) (userInput : List NodeId) (e : Expr) :
    Fresh (Option (Expr × List String)) := do
  match e.args.head? with
  | none => return none
  | some path =>
    if matcher.acceptsAny e fileOfString then
      return (← splitPath? path userInput).map fun file => (file, [])
    else if matcher.acceptsAny e stringPathSinks && path.ty.isString &&
        readsInput userInput path then
      let file ← match ← splitPath? path userInput with
        | some file => pure file
        | none => Expr.mkCreate Jdk.fileOfString [path]
      return (← withFile? e file).map fun sink => (sink, [Fqn.file])
    else return none

def remedy (env : PassEnv) (userInput : List NodeId) : Remedy Unit where
  enter
    | .expr e => do
      match ← VisitM.fresh (normalized? env.matcher userInput e), (← VisitM.path).anchor? with
      | some (new, imports), some _ =>
        PassM.replaceHere e new imports
        return false
      | _, _ => return true
    | _ => return true

end Normalize

/-! ## Guarding -/

namespace Guarding

def fileWithChild : List Signature :=
  signatures ["java.io.File <constructor>(.., java.lang.String)"]

def pathResolve : List Signature := signatures ["java.nio.file.Path resolve(..)"]

def pathStartsWith : List Signature := signatures ["java.nio.file.Path startsWith(..)"]

def stringStartsWith : List Signature := signatures ["java.lang.String startsWith(..)"]

/-- Does the text of a directory end with a separator, so that no sibling
starts with it? -/
def isDelimited (directory : Expr) : Bool :=
  match directory.unparen.form with
  | .binary .add _ right => right.isSeparator
  | _ => directory.endsWithSeparator

/-- Does a condition that holds say that a path lies in a directory? -/
def checksContainment (matcher : CallMatcher) (condition : Expr) : Bool :=
  let check := condition.unparen
  matcher.acceptsAny check pathStartsWith ||
    (matcher.acceptsAny check stringStartsWith && check.args.head?.any isDelimited)

/-- The directory and the child of a construction of a path. -/
def parentAndChild? (matcher : CallMatcher) (e : Expr) : Option (Expr × Expr) :=
  if matcher.acceptsAny e fileWithChild then
    match e.args with
    | parent :: child :: _ => some (parent, child)
    | _ => none
  else if matcher.acceptsAny e pathResolve then do
    return (← e.receiver?, ← e.args.head?)
  else none

/-- Is the end of the path the child of a construction of a path? -/
def isChild (matcher : CallMatcher) (p : Path) : Bool :=
  fileWithChild.any (matcher.isArgumentOf p · 1) || pathResolve.any (matcher.isArgumentOf p · 0)

/-- Does the construction at the end of a path reach the creation of a file
without a containment check? -/
def reachesSink (env : PassEnv) (path : Path) (construction : Expr) : Bool :=
  (env.queryFrom path).reachesSink
    { kind := .taint
      isSource := fun n => n.expr.same construction
      isSink := fun n => env.matcher.isSinkOf n.path Sink.createFile
      sanitizes := some fun n branch => branch && checksContainment env.matcher n.expr }

/-- The fix for a construction: a guard after the variable that it initializes,
if there is one for the types at hand, else a local of its own. -/
def fixFor? (settings : PathSettings) (path : Path) (construction parent : Expr) :
    Fresh (Option (Expr × Option Expr × FixKind)) := do
  match path.initialized? with
  | some v =>
    match GuardVariant.select? v.ty parent.ty with
    | some variant =>
      return some (← v.mkRead none, some parent, .guardAfter variant settings.guardMessage)
    | none => return none
  | none =>
    let base (ending : String) := FixKind.extract (settings.variableStem ++ ending)
    if construction.ty.isFile then return some (construction, none, base "File")
    else if construction.ty.isPath then return some (construction, none, base "Path")
    else return none

/-- Notes the fix for the construction at the current node; the state counts
the fixes. -/
def noteConstruction (settings : PathSettings) (construction parent : Expr) : PassM Nat Unit := do
  let path ← VisitM.path
  match path.anchor?, ← VisitM.fresh (fixFor? settings path construction parent) with
  | some anchor, some (tainted, parent, kind) =>
    if ← PassM.noteFix { anchor, tainted, parent, kind } then VisitM.modifyOwn (· + 1)
  | _, _ => return ()

def remedy (env : PassEnv) (settings : PathSettings) (children : List NodeId) :
    Remedy Nat where
  enter
    | .expr e => do
      match parentAndChild? env.matcher e with
      | some (parent, child) =>
        if children.contains child.id && reachesSink env (← VisitM.path) e then
          noteConstruction settings e parent
      | none => pure ()
      return true
    | _ => return true

end Guarding

/-! ## The whole -/

/-- The expressions below a body that the value of a source reaches and that
are of a sort. -/
def reached (env : PassEnv) (settings : PathSettings) (body : Path)
    (isSort : Path → Bool) : List NodeId :=
  body.exprPaths.flatMap fun path =>
    match path.expr? with
    | some source =>
      if env.matcher.acceptsAny source settings.userInput then
        ((env.queryFrom path).findSinks (.valueOf source isSort)).sinks.map (·.expr.id)
      else []
    | none => []

/-- Runs a remedy on the block at the end of a path; answers what it makes of
the block, the imports that it asks for and its own state. -/
def runApart {σ : Type} (env : PassEnv) (remedy : Remedy σ) (own : σ) (path : Path)
    (block : Block) : PassM Unit (Block × ImportRequests × σ) := do
  let (out, cursor, own) ← PassM.apart path own ((remedy.visitor env).run (.block block))
  return (out.block?.getD block, cursor.takeImports.1, own)

/-- Guards one body; answers the body itself if there is nothing to guard. -/
def guardPaths (env : PassEnv) (settings : PathSettings) (block : Block) :
    PassM Unit Block := do
  let path ← VisitM.path
  let userInput := reached env settings path fun _ => true
  if userInput.isEmpty then return block
  let (normalized, fileImports, _) ←
    runApart env (Normalize.remedy env userInput) () path block
  let path ← VisitM.fresh (path.onBlock normalized)
  let children := reached env settings path (Guarding.isChild env.matcher)
  if children.isEmpty then return block
  let (guarded, guardImports, count) ←
    runApart env (Guarding.remedy env settings children) 0 path normalized
  if count = 0 || guarded.same normalized then return block
  PassM.requestImports fileImports.requested
  PassM.requestImports guardImports.requested
  return guarded

/-- Completes the partial paths of one body. -/
def completeBody (env : PassEnv) (block : Block) : PassM Unit Block := do
  let (completed, imports, _) ←
    runApart env (PartialPath.remedy env) () (← VisitM.path) block
  unless completed.same block do PassM.requestImports imports.requested
  return completed

/-- Treats one body of a method or an initializer. -/
def treatBody (env : PassEnv) (settings : PathSettings) (block : Block)
    (descend : PassM Unit Node) : PassM Unit Node := do
  let completed ← if settings.fixPartialPath then completeBody env block else pure block
  if !completed.same block then return .block completed
  let walked ← descend
  if walked.same (.block block) then return .block (← guardPaths env settings block)
  else return walked

/-- The visitor, which treats every body. -/
def visitor (env : PassEnv) (settings : PathSettings) :
    Visitor EngineError Note Unit where
  visit n descend := do
    match n with
    | .block block =>
      if (← VisitM.path).endsAtBody then treatBody env settings block descend else descend
    | _ => descend

/-- The pass that guards paths. -/
def pass (env : PassEnv) (settings : PathSettings) : Pass :=
  (visitor env settings).pass ()

end JavaMend.PathTraversal
