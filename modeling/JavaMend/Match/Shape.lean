import JavaMend.Match.Signature
import JavaMend.Traversal.Path

/-!
# Shapes of calls

Whether a call is of the shape that a signature describes is asked through a
`CallMatcher`. The standard one compares the member that the call was
resolved to; a call that was not resolved matches nothing. Questions about the
operand of a call are asked of a path, which knows what stands around the
operand.
-/

namespace JavaMend

/-- Decides whether an expression is a call that a signature describes. -/
structure CallMatcher where
  accepts : Expr → Signature → Bool

namespace CallMatcher

/-- By the member that the call was resolved to. -/
def standard : CallMatcher where
  accepts e signature := e.method?.any signature.accepts

/-- The matcher for which no call has any shape. -/
def never : CallMatcher where
  accepts _ _ := false

def acceptsAny (m : CallMatcher) (e : Expr) (signatures : List Signature) : Bool :=
  signatures.any (m.accepts e)

end CallMatcher

/-- The call around `value`, going outward through parentheses only, and the
operand of that call which holds `value`. -/
def callAround? (value : Expr) : List Node → Option (Expr × Expr)
  | .expr parent :: above =>
    match parent.form with
    | .parens _ => callAround? parent above
    | .call .. | .create .. => some (parent, value)
    | _ => none
  | _ => none

/-- The call whose operand is the expression at the end of the path, and that
operand with the parentheses around it. -/
def Path.callWithOperand? (p : Path) : Option (Expr × Expr) :=
  match p.outward with
  | .expr value :: above => callAround? value above
  | _ => none

namespace CallMatcher

/-- Is the end of the path the argument at `index` of a call of that shape? -/
def isArgumentOf (m : CallMatcher) (p : Path) (signature : Signature) (index : Nat) : Bool :=
  match p.callWithOperand? with
  | some (call, operand) =>
    (call.args[index]?).any (·.same operand) && m.accepts call signature
  | none => false

/-- Is the end of the path the receiver of a call of that shape? -/
def isReceiverOf (m : CallMatcher) (p : Path) (signature : Signature) : Bool :=
  match p.callWithOperand? with
  | some (call, operand) => call.receiver?.any (·.same operand) && m.accepts call signature
  | none => false

end CallMatcher

/-! ## Sinks -/

/-- The operand of a call that must not carry what an attacker chose. -/
inductive SinkOperand where
  | argument (index : Nat)
  | receiver
deriving DecidableEq

/-- A shape of calls and the operand that is at stake. -/
structure Sink where
  signature : Signature
  operand : SinkOperand

namespace Sink

/-- Calls that create, or open for writing, an entry of the file system. -/
def createFileTable : List (String × SinkOperand) :=
  [ ("java.io.FileOutputStream <constructor>(java.io.File, ..)", .argument 0),
    ("java.io.FileOutputStream <constructor>(java.lang.String, ..)", .argument 0),
    ("java.io.FileWriter <constructor>(java.io.File, ..)", .argument 0),
    ("java.io.FileWriter <constructor>(java.lang.String, ..)", .argument 0),
    ("java.io.PrintWriter <constructor>(java.io.File, ..)", .argument 0),
    ("java.io.PrintWriter <constructor>(java.lang.String, ..)", .argument 0),
    ("java.io.PrintStream <constructor>(java.io.File, ..)", .argument 0),
    ("java.io.PrintStream <constructor>(java.lang.String, ..)", .argument 0),
    ("java.io.RandomAccessFile <constructor>(java.io.File, ..)", .argument 0),
    ("java.io.RandomAccessFile <constructor>(java.lang.String, ..)", .argument 0),
    ("java.nio.file.Files newOutputStream(java.nio.file.Path, ..)", .argument 0),
    ("java.nio.file.Files newBufferedWriter(java.nio.file.Path, ..)", .argument 0),
    ("java.nio.file.Files write(java.nio.file.Path, ..)", .argument 0),
    ("java.nio.file.Files createFile(java.nio.file.Path, ..)", .argument 0),
    ("java.nio.file.Files createDirectory(java.nio.file.Path, ..)", .argument 0),
    ("java.nio.file.Files createDirectories(java.nio.file.Path, ..)", .argument 0),
    ("java.nio.file.Files copy(*, java.nio.file.Path, ..)", .argument 1),
    ("java.nio.file.Files move(*, java.nio.file.Path, ..)", .argument 1),
    ("java.io.File createNewFile()", .receiver),
    ("java.io.File mkdir()", .receiver),
    ("java.io.File mkdirs()", .receiver) ]

/-- The sinks of a table of descriptors; what is no descriptor is left out. -/
def ofTable (table : List (String × SinkOperand)) : List Sink :=
  table.filterMap fun (descriptor, operand) =>
    (@Signature.parse .unlimited descriptor).toOption.map fun signature => { signature, operand }

/-- The sinks that create files. -/
def createFile : List Sink := ofTable createFileTable

end Sink

/-- Is the end of the path the operand at stake of one of the sinks? -/
def CallMatcher.isSinkOf (m : CallMatcher) (p : Path) (sinks : List Sink) : Bool :=
  sinks.any fun sink =>
    match sink.operand with
    | .argument index => m.isArgumentOf p sink.signature index
    | .receiver => m.isReceiverOf p sink.signature

/-! ## Path separators -/

/-- The two names of the separator among the fields of `java.io.File`. -/
def namesSeparator (name : String) : Bool := name == "separator" || name == "separatorChar"

/-- An expression that is a path separator: one of the fields of
`java.io.File`, or a literal slash or backslash. -/
def Expr.isSeparator (e : Expr) : Bool :=
  match e.unparen.form with
  | .field target name => namesSeparator name && target.ty.isFile
  | .ident name owner => namesSeparator name && owner.any (·.isFile)
  | .literal (.string value) => value == "/" || value == "\\"
  | .literal (.char value) => value == '/' || value == '\\'
  | _ => false

/-- A string literal that ends with a separator. -/
def Expr.endsWithSeparator (e : Expr) : Bool :=
  match e.unparen.stringValue? with
  | some value => value.toList.getLast?.any fun c => c == '/' || c == '\\'
  | none => false

end JavaMend
