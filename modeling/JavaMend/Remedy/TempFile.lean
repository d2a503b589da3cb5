import JavaMend.Remedy.TempDirectory

/-!
# Temporary files

`File.createTempFile` leaves the permissions of the new file to the platform;
`Files.createTempFile` gives them to the owner only. Calls of the first become
calls of the second, except where the file is about to become a directory: that
is for another remedy to fix.
-/

namespace JavaMend.TempFile

/-- The calls that start a temporary directory. -/
abbrev State := List NodeId

/-- `Files.createTempFile(prefix, suffix).toFile()`, in the directory of the
call if it names one. -/
def replacement? (create : Expr) : Fresh (Option Expr) := do
  match create.args with
  | start :: ending :: _ =>
    let made ← match TempDirectory.directory? create with
      | some dir => do
        let parent ← Expr.mkCall dir Jdk.fileToPath []
        Expr.mkStaticCall Jdk.filesCreateTempFileIn [parent, start, ending]
      | none => Expr.mkStaticCall Jdk.filesCreateTempFile [start, ending]
    return some (← Expr.mkCall made Jdk.pathToFile [])
  | _ => return none

/-- Looks at a call that creates a temporary file; answers whether to look at
its arguments, too. -/
def checkCreation (create : Expr) : PassM State Bool := do
  match (← VisitM.path).anchor?, ← VisitM.fresh (replacement? create) with
  | some _, some new =>
    PassM.replaceHere create new [Fqn.files]
    return false
  | _, _ => return true

def remedy (env : PassEnv) : Remedy State where
  enter
    | .block block => do
      unless ← TempDirectory.belowClass do
        let claimed := (TempDirectory.sites env.matcher block).map (·.create.id)
        VisitM.modifyOwn (claimed ++ ·)
      return true
    | .expr e => do
      if env.matcher.acceptsAny e TempDirectory.createTempFile &&
          !(← VisitM.own).contains e.id then
        checkCreation e
      else return true
    | _ => return true

/-- The pass that replaces temporary files of unsure permissions. -/
def pass (env : PassEnv) : Pass := ((remedy env).visitor env).pass []

end JavaMend.TempFile
