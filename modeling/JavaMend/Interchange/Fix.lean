import JavaMend.Interchange.Reader
import JavaMend.Patch.Splice
import JavaMend.Patch.Pending

/-!
# Reading fixes

Pending fixes come in as JSON objects whose nodes may refer to the labels of a
tree that was read before.
-/

namespace JavaMend.Interchange

/-- The names of the guard variants. -/
def guardVariants : List (String × GuardVariant) :=
  [("FileFile", .fileInFile), ("FileString", .fileInString), ("PathPath", .pathInPath)]

/-- The name of a guard variant. -/
def guardVariantName (variant : GuardVariant) : Option String :=
  (guardVariants.find? (·.2 == variant)).map (·.1)

/-- The guard variant that an object names. -/
def guardVariantOf? (j : Json) : Option GuardVariant :=
  (j.strField? "variant").bind fun name => guardVariants.lookup name

/-- The message of a guard. -/
def guardMessageOf (j : Json) : String := (j.strField? "message").getD badZipEntry

/-- The places that fragments are written at. -/
def spliceSides : List (String × SpliceSide) :=
  [("before", .before), ("after", .after), ("replace", .replace)]

/-- The statements in the array of a field. -/
def stmtsOf (j : Json) (name : String) : ReadM (List Stmt) :=
  (j.itemsOf name).mapM fun s => readStmt s.1

/-- What a fix does. -/
def readFixKind (j : Json) : ReadM FixKind := do
  match ← textOf j "kind" with
  | "guard" => return .guardAfter (← need "variant" (guardVariantOf? j)) (guardMessageOf j)
  | "extract" => return .extract (← textOf j "base")
  | "replace" => return .replace (← exprOf j "with") (j.strsOf "imports")
  | "after" => return .insertAfter (← stmtsOf j "stmts")
  | "before" => return .insertBefore (← stmtsOf j "stmts")
  | "remove" => return .remove
  | kind => throw (.unknownKind kind)

/-- A fix. One that is about no expression is about a `null`. -/
def readFix (j : Json) : ReadM PendingFix := do
  let anchor ← stmtOf j "anchor"
  let tainted ← match ← exprOf? j "tainted" with
    | some e => pure e
    | none => fresh Expr.mkNull
  let kind ← readFixKind (← need "fix" (j.field? "fix"))
  return { anchor, tainted, parent := ← exprOf? j "parent", kind }

/-- The splicer that refuses the places of the array in a field. -/
def splicerOf (j : Json) (name : String) : Splicer :=
  match (j.strsOf name).filterMap fun side => spliceSides.lookup side with
  | [] => .standard
  | sides => .refusing sides

end JavaMend.Interchange
