import JavaMend.Remedy.Pass
import JavaMend.Tree.Library

/-!
# Temporary directories

A temporary directory that is made by creating a temporary file, deleting it
and making a directory of the same name can be hijacked in between. The three
steps are looked for among the statements of one block and become one call
that makes the directory. The second and the third step may also be written as
`if (!file.delete())` without an `else`. A variable that is assigned anything
else on the way has to start over.
-/

namespace JavaMend.TempDirectory

def createTempFile : List Signature := signatures ["java.io.File createTempFile(..)"]

def delete : List Signature := signatures ["java.io.File delete()"]

def mkdir : List Signature := signatures ["java.io.File mkdir()", "java.io.File mkdirs()"]

/-- A temporary file that may become a directory. -/
structure Candidate where
  /-- The call that creates the file. -/
  create : Expr
  createStmt : Stmt
  /-- The statement that deletes it, once there is one. -/
  deleteStmt : Option Stmt

/-- A temporary file that became a directory. -/
structure DirectorySite where
  create : Expr
  createStmt : Stmt
  deleteStmt : Stmt
  mkdirStmt : Stmt

/-- The local that a statement binds to a new temporary file, and the call that
creates it. -/
def binding? (matcher : CallMatcher) (stmt : Stmt) : Option (String × Expr) :=
  match stmt.form with
  | .declare { vars := [v], .. } => do
    let create := (← v.init).unparen
    guard (matcher.acceptsAny create createTempFile && v.ty.isFile)
    return (v.name, create)
  | .expr ⟨_, _, .assign none target value⟩ => do
    let create := value.unparen
    guard (matcher.acceptsAny create createTempFile && target.ty.isFile)
    return (← target.localName?, create)
  | _ => none

/-- The local that a statement assigns. -/
def assigned? (stmt : Stmt) : Option String :=
  match stmt.form with
  | .expr ⟨_, _, .assign _ target _⟩ => target.localName?
  | _ => none

/-- The call of a statement that is a step: `call;` or `if (!call)` without an
`else`. -/
def stepCall? (stmt : Stmt) : Option Expr :=
  match stmt.form with
  | .expr e => some e.unparen
  | .ifElse condition _ none =>
    match condition.unparen.form with
    | .unary .not operand => some operand.unparen
    | _ => none
  | _ => none

/-- The local that a statement calls a method of one of the shapes on. -/
def step? (matcher : CallMatcher) (shapes : List Signature) (stmt : Stmt) : Option String := do
  let call ← stepCall? stmt
  guard (matcher.acceptsAny call shapes)
  (← call.receiver?).unparen.localName?

/-- What is known after some statements. -/
structure Progress where
  candidates : List (String × Candidate)
  sites : List DirectorySite

namespace Progress

/-- Forgets the file of a local. -/
def forget (p : Progress) (name : String) : Progress :=
  { p with candidates := p.candidates.filter (·.1 != name) }

/-- Remembers a file for a local. -/
def remember (p : Progress) (name : String) (candidate : Candidate) : Progress :=
  { p.forget name with candidates := (name, candidate) :: (p.forget name).candidates }

/-- Goes over one more statement. -/
def next (matcher : CallMatcher) (p : Progress) (stmt : Stmt) : Progress :=
  match binding? matcher stmt, assigned? stmt, step? matcher delete stmt,
    step? matcher mkdir stmt with
  | some (name, create), _, _, _ =>
    p.remember name { create, createStmt := stmt, deleteStmt := none }
  | none, some name, _, _ => p.forget name
  | none, none, some name, _ =>
    match p.candidates.lookup name with
    | some ⟨create, createStmt, none⟩ => p.remember name ⟨create, createStmt, some stmt⟩
    | _ => p
  | none, none, none, some name =>
    match p.candidates.lookup name with
    | some ⟨create, createStmt, some deleteStmt⟩ =>
      let p := p.forget name
      { p with sites := p.sites ++ [⟨create, createStmt, deleteStmt, stmt⟩] }
    | _ => p
  | none, none, none, none => p

end Progress

/-- The temporary files that become directories among the statements of a
block. -/
def sites (matcher : CallMatcher) (block : Block) : List DirectorySite :=
  (block.stmts.foldl (Progress.next matcher) ⟨[], []⟩).sites

/-- Is the expression the literal `null`? -/
def isNull (e : Expr) : Bool := e.unparen.literal? == some .null

/-- The third argument of a call, unless it is `null`. -/
def directory? (create : Expr) : Option Expr := create.args[2]?.filter (!isNull ·)

/-- `Files.createTempDirectory(prefix + suffix).toFile()`, in the directory of
the call if it names one. -/
def replacement? (create : Expr) : Fresh (Option Expr) := do
  match create.args with
  | start :: ending :: _ =>
    let name ← if isNull ending then pure start else Expr.mkAdd start ending
    let made ← match directory? create with
      | some dir => do
        let parent ← Expr.mkCall dir Jdk.fileToPath []
        Expr.mkStaticCall Jdk.filesCreateTempDirectoryIn [parent, name]
      | none => Expr.mkStaticCall Jdk.filesCreateTempDirectory [name]
    return some (← Expr.mkCall made Jdk.pathToFile [])
  | _ => return none

/-- Does the current node stand right below a top-level class? -/
def belowClass {σ : Type} : PassM σ Bool :=
  return ((← VisitM.path).parent?.bind Node.cls?).isSome

/-- Notes the fixes for one site. -/
def noteSite (site : DirectorySite) : PassM Unit Unit := do
  match ← VisitM.fresh (replacement? site.create) with
  | none => return ()
  | some new =>
    let fix (anchor : Stmt) (kind : FixKind) : PendingFix :=
      { anchor, tainted := site.create, parent := none, kind }
    let _ ← PassM.noteFix (fix site.createStmt (.replace new [Fqn.files]))
    let _ ← PassM.noteFix (fix site.deleteStmt .remove)
    let _ ← PassM.noteFix (fix site.mkdirStmt .remove)

def remedy (env : PassEnv) : Remedy Unit where
  leave block := do
    unless ← belowClass do
      (sites env.matcher block).forM noteSite

/-- The pass that replaces hijackable directories. -/
def pass (env : PassEnv) : Pass := ((remedy env).visitor env).pass ()

end JavaMend.TempDirectory
