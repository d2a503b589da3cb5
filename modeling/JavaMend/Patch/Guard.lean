import JavaMend.Patch.Template
import JavaMend.Traversal.Path
import JavaMend.Tree.Library

/-!
# Containment guards

A guard throws unless the normalized path at stake lies under a normalized
directory. Which check is written depends on the static types of the two
operands. Which exception is thrown depends on where the guard stands: an
`IOException` where somebody already handles one, the unchecked
`RuntimeException` everywhere else.
-/

namespace JavaMend

/-- The static types of the path at stake and of the directory. -/
inductive GuardVariant where
  | fileInFile
  | fileInString
  | pathInPath
deriving DecidableEq

/-- What a guard throws. -/
inductive ThrownException where
  | ioException
  | runtimeException
deriving DecidableEq

namespace ThrownException

def fqn : ThrownException → String
  | ioException => Fqn.ioException
  | runtimeException => Fqn.runtimeException

def ty (thrown : ThrownException) : Ty := .known thrown.fqn

/-- Must the class be imported to be named? -/
def needsImport : ThrownException → Bool
  | ioException => true
  | runtimeException => false

end ThrownException

namespace GuardVariant

/-- The variant for two operand types, if there is one. -/
def select? (tainted parent : Ty) : Option GuardVariant :=
  if tainted.isFile && parent.isFile then some fileInFile
  else if tainted.isFile && parent.isString then some fileInString
  else if tainted.isPath && parent.isPath then some pathInPath
  else none

/-- The text of the check. -/
def checkText : GuardVariant → String
  | fileInFile =>
    "#\x7bany(java.io.File)\x7d.toPath().normalize()" ++
      ".startsWith(#\x7bany(java.io.File)\x7d.toPath().normalize())"
  | fileInString =>
    "#\x7bany(java.io.File)\x7d.toPath().normalize().startsWith(#\x7bany(java.lang.String)\x7d)"
  | pathInPath =>
    "#\x7bany(java.nio.file.Path)\x7d.normalize()" ++
      ".startsWith(#\x7bany(java.nio.file.Path)\x7d.normalize())"

/-- `e.normalize()` -/
def normalized (e : Expr) : Fresh Expr := Expr.mkCall e Jdk.pathNormalize []

/-- `e.toPath().normalize()` -/
def normalizedFile (e : Expr) : Fresh Expr := do
  normalized (← Expr.mkCall e Jdk.fileToPath [])

/-- The check that the path at stake lies under the directory. -/
def check (variant : GuardVariant) (tainted parent : Expr) : Fresh Expr := do
  match variant with
  | fileInFile =>
    Expr.mkCall (← normalizedFile tainted) Jdk.pathStartsWithPath [← normalizedFile parent]
  | fileInString => Expr.mkCall (← normalizedFile tainted) Jdk.pathStartsWithString [parent]
  | pathInPath => Expr.mkCall (← normalized tainted) Jdk.pathStartsWithPath [← normalized parent]

end GuardVariant

/-- The message of a guard where no other is set. -/
def badZipEntry : String := "Bad zip entry"

/-- The text of a guard. The message stands in it as it is, so a message with
a placeholder in it adds to the operands, and no guard can then be made. -/
def guardText (variant : GuardVariant) (thrown : ThrownException) (message : String) : String :=
  "if (!" ++ variant.checkText ++ ") \x7b\n    throw new " ++ Fqn.simple thrown.fqn ++ "(\"" ++
    message ++ "\");\n\x7d"

/-- `if (!check) { throw new Exception("message"); }` for the operands
`[tainted, parent]`. Both are copied, so that the guard shares no node with the
statement it follows. -/
def guardTemplate (variant : GuardVariant) (thrown : ThrownException) (message : String) :
    Except TemplateError Template :=
  Template.parse (guardText variant thrown message) (if thrown.needsImport then [thrown.fqn] else [])
    fun operands => do
      match operands with
      | [tainted, parent] =>
        let condition ← Expr.mkNot (← variant.check (← tainted.freshCopy) (← parent.freshCopy))
        let body ← Stmt.mkBlock [← Stmt.mkThrowNew thrown.ty message]
        return .statements [← Stmt.mkIf condition body none]
      | _ => return .statements []

/-- The exception for a guard below the nodes of an outward list, whose last
visited child is `below`. -/
def exceptionAbove (below : Option Node) : List Node → ThrownException
  | [] => .runtimeException
  | n :: above =>
    if Path.startsWithInitializer (n :: above) then .runtimeException
    else
      match n with
      | .stmt ⟨_, .method head _⟩ =>
        if head.mayThrow Fqn.ioException then .ioException else .runtimeException
      | .cls _ => .runtimeException
      | .stmt ⟨_, .cls _ _⟩ => .runtimeException
      | .stmt ⟨_, .tryCatch _ body catches _⟩ =>
        let inBody := (below.bind Node.block?).any (·.same body)
        if inBody && catches.any (·.accepts Fqn.ioException) then .ioException
        else exceptionAbove (some n) above
      | _ => exceptionAbove (some n) above

/-- The exception for a guard at the end of a path: an `IOException` in the
body of a `try` that catches it and in a method that declares it, before any
initializer or class is left. -/
def Path.guardException (p : Path) : ThrownException := exceptionAbove none p.outward

end JavaMend
