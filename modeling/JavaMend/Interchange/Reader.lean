import JavaMend.Json.Basic
import JavaMend.Tree.Fresh
import JavaMend.Tree.Library

/-!
# Reading trees

Trees come in as JSON, one object a node. A node may carry a label; another
place of the same document can then hold `ref` and the label instead of a node
and means the very same node. Labels are known from the moment their node has
been read, and a label given twice means the later node.

Nodes that are written alike are different nodes: every node read takes an id
of its own.
-/

namespace JavaMend.Interchange

/-- Why a document is not a tree. -/
inductive ReadError where
  | missing (field : String)
  | unknownKind (kind : String)
  | unknownLabel (label : String)
  | unknownType (name : String)
  | unknownMember (name : String)
deriving DecidableEq

def ReadError.message : ReadError → String
  | missing field => "missing " ++ field
  | unknownKind kind => "unknown kind " ++ kind
  | unknownLabel label => "unknown label " ++ label
  | unknownType name => "unknown type " ++ name
  | unknownMember name => "unknown member " ++ name

/-- The id supply, and the labelled nodes in the order their labels were first
given. -/
structure ReadState where
  next : NodeId
  labels : List (String × Node)

/-- Reading one document. -/
abbrev ReadM := StateT ReadState (Except ReadError)

/-- The value, or the error that a field is missing. -/
def need {α : Type} (field : String) : Option α → ReadM α
  | some a => pure a
  | none => throw (.missing field)

/-- Makes nodes from the document's id supply. -/
def fresh {α : Type} (make : Fresh α) : ReadM α := fun state =>
  let (a, next) := make state.next
  pure (a, { state with next })

/-- Sets the node of a label, in place of an earlier one. -/
def setLabel (label : String) (n : Node) :
    List (String × Node) → List (String × Node)
  | [] => [(label, n)]
  | (l, m) :: rest => if l == label then (l, n) :: rest else (l, m) :: setLabel label n rest

/-- Remembers a node under the label that its object carries, if any. -/
def remember (j : Json) (n : Node) : ReadM Unit :=
  match j.strField? "id" with
  | none => pure ()
  | some label => modify fun state => { state with labels := setLabel label n state.labels }

/-- The node of a label. -/
def labelled (label : String) : ReadM Node := do
  match (← get).labels.lookup label with
  | some n => return n
  | none => throw (.unknownLabel label)

/-- The node that an object refers to instead of describing one. -/
def reference? {α : Type} (view : Node → Option α) (j : Json) : ReadM (Option α) := do
  match j.strField? "ref" with
  | none => return none
  | some label =>
    match view (← labelled label) with
    | some a => return some a
    | none => throw (.unknownLabel label)

def textOf (j : Json) (name : String) : ReadM String := need name (j.strField? name)

/-! ## Types and members -/

/-- The primitive types, written with a mark in front of their keywords. -/
def primitives : List Primitive :=
  [.boolean, .byte, .char, .short, .int, .long, .float, .double, .void]

/-- A type: a class name, `#` and a primitive or special name, or a class with
its supertypes. -/
def readTy (j : Json) : ReadM Ty := do
  match j with
  | .str "#null" => return .null
  | .str "#unknown" => return .unknown
  | .str name =>
    if name.toList.head? == some '#' then
      match primitives.find? fun p => "#" ++ p.keyword == name with
      | some p => return .primitive p
      | none => throw (.unknownType name)
    else return .known name
  | j => return .cls (← textOf j "fqn") (j.strsOf "supers")

/-- The type in a field, if there is one. -/
def tyOf? (j : Json) (name : String) : ReadM (Option Ty) :=
  match j.present? name with
  | some ⟨v, _⟩ => some <$> readTy v
  | none => pure none

/-- The type in a field, unknown if there is none. -/
def tyOf (j : Json) (name : String) : ReadM Ty := return (← tyOf? j name).getD .unknown

def tysOf (j : Json) (name : String) : ReadM (List Ty) :=
  (j.itemsOf name).mapM fun v => readTy v.1

/-- Library members by the names documents use for them. -/
def members : List (String × MethodRef) :=
  [ ("file_of_parent_and_child", Jdk.fileOfParentAndChild),
    ("file_of_strings", Jdk.fileOfStrings),
    ("file_of_string", Jdk.fileOfString),
    ("file_to_path", Jdk.fileToPath),
    ("file_get_canonical_path", Jdk.fileGetCanonicalPath),
    ("file_get_canonical_file", Jdk.fileGetCanonicalFile),
    ("file_get_absolute_path", Jdk.fileGetAbsolutePath),
    ("file_delete", Jdk.fileDelete),
    ("file_mkdir", Jdk.fileMkdir),
    ("file_mkdirs", Jdk.fileMkdirs),
    ("file_create_temp_file", Jdk.fileCreateTempFile),
    ("file_create_temp_file_in", Jdk.fileCreateTempFileIn),
    ("path_normalize", Jdk.pathNormalize),
    ("path_starts_with_path", Jdk.pathStartsWithPath),
    ("path_starts_with_string", Jdk.pathStartsWithString),
    ("path_resolve", Jdk.pathResolve),
    ("path_to_file", Jdk.pathToFile),
    ("string_starts_with", Jdk.stringStartsWith),
    ("string_get_bytes", Jdk.stringGetBytes),
    ("files_create_temp_file", Jdk.filesCreateTempFile),
    ("files_create_temp_file_in", Jdk.filesCreateTempFileIn),
    ("files_create_temp_directory", Jdk.filesCreateTempDirectory),
    ("files_create_temp_directory_in", Jdk.filesCreateTempDirectoryIn),
    ("zip_entry_get_name", Jdk.zipEntryGetName),
    ("zip_archive_entry_get_name", Jdk.zipArchiveEntryGetName),
    ("file_output_stream_of_string", Jdk.fileOutputStreamOfString),
    ("file_output_stream_of_file", Jdk.fileOutputStreamOfFile),
    ("random", Jdk.random),
    ("random_seeded", Jdk.randomSeeded),
    ("secure_random", Jdk.secureRandom),
    ("secure_random_set_seed", Jdk.secureRandomSetSeed),
    ("system_current_time_millis", Jdk.systemCurrentTimeMillis),
    ("system_nano_time", Jdk.systemNanoTime),
    ("date_get_time", Jdk.dateGetTime),
    ("cookie", Jdk.cookie),
    ("cookie_set_secure", Jdk.cookieSetSecure),
    ("xml_input_factory_new_instance", Jdk.xmlInputFactoryNewInstance),
    ("xml_input_factory_set_property", Jdk.xmlInputFactorySetProperty),
    ("xml_input_factory_set_resolver", Jdk.xmlInputFactorySetResolver),
    ("document_builder_factory_new_instance", Jdk.documentBuilderFactoryNewInstance),
    ("document_builder_factory_set_feature", Jdk.documentBuilderFactorySetFeature),
    ("document_builder_factory_set_xinclude_aware", Jdk.documentBuilderFactorySetXincludeAware),
    ("document_builder_factory_set_expand_entity_references", Jdk.documentBuilderFactorySetExpandEntityReferences),
    ("transformer_factory_new_instance", Jdk.transformerFactoryNewInstance),
    ("transformer_factory_set_attribute", Jdk.transformerFactorySetAttribute),
    ("transformer_factory_set_feature", Jdk.transformerFactorySetFeature),
    ("secure_random_next_bytes", Jdk.secureRandomNextBytes),
    ("access_controller_do_privileged", Jdk.accessControllerDoPrivileged),
    ("illegal_state_exception", Jdk.illegalStateException) ]

/-- Members that several classes have alike; the owner follows an at sign. -/
def membersOf : List (String × (String → MethodRef)) :=
  [ ("random_string_utils_random", Jdk.randomStringUtilsRandom),
    ("random_string_utils_random_alphanumeric", Jdk.randomStringUtilsRandomAlphanumeric) ]

/-- A member: the name of a known one, or a description. -/
def readMember (j : Json) : ReadM MethodRef := do
  match j with
  | .str name =>
    let chars := name.toList
    match chars.dropWhile (· != '@') with
    | [] =>
      match members.lookup name with
      | some m => return m
      | none => throw (.unknownMember name)
    | _ :: owner =>
      match membersOf.lookup (String.ofList (chars.takeWhile (· != '@'))) with
      | some m => return m (String.ofList owner)
      | none => throw (.unknownMember name)
  | j =>
    match ← tyOf? j "ctor" with
    | some owner => return .constructor owner (← tysOf j "params")
    | none =>
      let owner ← tyOf j "of"
      let name ← textOf j "name"
      let params ← tysOf j "params"
      let result ← tyOf j "ret"
      return { owner, name, params, result, isStatic := j.flag "static" }

/-- The member in a field, if there is one. -/
def memberOf? (j : Json) (name : String) : ReadM (Option MethodRef) :=
  match j.present? name with
  | some ⟨v, _⟩ => some <$> readMember v
  | none => pure none

def modifiersOf (j : Json) (name : String) : List Modifier :=
  (j.strsOf name).filterMap Modifier.ofKeyword?

/-- How often something is repeated, once if nothing is said. -/
def countOf (j : Json) : Nat := ((j.intField? "n").map Int.toNat).getD 1

/-- Applies a step a number of times. -/
def repeated {α : Type} (step : α → ReadM α) : Nat → α → ReadM α
  | 0, a => pure a
  | n + 1, a => do repeated step n (← step a)

/-- The type of a binary operation that does not say its own. -/
def binaryTy (op : BinaryOp) (left right : Expr) : Ty :=
  match op with
  | .add => if left.ty.isString || right.ty.isString then .string else left.ty
  | .sub | .mul | .div | .rem => left.ty
  | _ => .boolean

/-! ## Expressions -/

mutual

/-- An expression. A type given with it replaces the one it would have. -/
def readExpr (j : Json) : ReadM Expr := do
  match ← reference? Node.expr? j with
  | some e => return e
  | none =>
    let e ← readExprForm j
    let e ← match ← tyOf? j "ty" with
      | some ty => fresh (Expr.make e.form ty)
      | none => pure e
    remember j (.expr e)
    return e
termination_by (sizeOf j, 2)

/-- An expression without its label. -/
def readExprForm (j : Json) : ReadM Expr := do
  match ← textOf j "k" with
  | "ident" =>
    fresh (Expr.make (.ident (← textOf j "name") (← tyOf? j "owner")) .unknown)
  | "type" => fresh (Expr.mkTypeName (← tyOf j "of"))
  | "str" => fresh (Expr.mkString (← textOf j "v"))
  | "char" => fresh (Expr.mkChar (← need "v" (← textOf j "v").toList.head?))
  | "int" => fresh (Expr.mkInt (← need "v" (j.intField? "v")))
  | "long" => fresh (Expr.mkLong (← need "v" (j.intField? "v")))
  | "bool" => fresh (Expr.mkBool (j.flag "v"))
  | "null" => fresh Expr.mkNull
  | "field" => fresh (Expr.mkField (← exprOf j "target") (← textOf j "name") .unknown)
  | "sfield" => fresh (Expr.mkStaticField (← tyOf j "of") (← textOf j "name") .unknown)
  | "call" =>
    let receiver ← exprOf? j "recv"
    let args ← exprsOf j "args"
    let member ← memberOf? j "m"
    match j.strField? "name" with
    | some name =>
      fresh (Expr.make (.call receiver name args member) ((member.map (·.result)).getD .unknown))
    | none =>
      let member ← need "m" member
      fresh (Expr.make (.call receiver member.name args (some member)) member.result)
  | "scall" => fresh (Expr.mkStaticCall (← need "m" (← memberOf? j "m")) (← exprsOf j "args"))
  | "new" =>
    let args ← exprsOf j "args"
    let member ← memberOf? j "m"
    match j.strField? "name" with
    | some name =>
      fresh (Expr.make (.create name args member) ((member.map (·.owner)).getD .unknown))
    | none => fresh (Expr.mkCreate (← need "m" member) args)
  | "newarray" =>
    let size ← exprOf j "dim"
    match j.strField? "name" with
    | some name => fresh (Expr.make (.array name size) .unknown)
    | none => fresh (Expr.mkArray (← tyOf j "of") size)
  | "bin" =>
    let left ← exprOf j "l"
    let right ← exprOf j "r"
    let op ← need "op" (BinaryOp.ofSymbol? (← textOf j "op"))
    fresh (Expr.mkBinary op left right (binaryTy op left right))
  | "chain" =>
    match ← exprsOf j "items" with
    | [] => throw (.missing "items")
    | first :: rest => rest.foldlM (fun left right => fresh (Expr.mkAdd left right)) first
  | "un" =>
    let operand ← exprOf j "e"
    match ← textOf j "op" with
    | "!" => fresh (Expr.mkNot operand)
    | "-" => fresh (Expr.make (.unary .negate operand) operand.ty)
    | _ => fresh (Expr.make (.unary .plus operand) operand.ty)
  | "assign" =>
    let target ← exprOf j "target"
    let value ← exprOf j "value"
    let op := (j.strField? "op").bind BinaryOp.ofSymbol?
    fresh (Expr.make (.assign op target value) target.ty)
  | "parens" => repeated (fun e => fresh (Expr.mkParens e)) (countOf j) (← exprOf j "e")
  | "cast" =>
    let operand ← exprOf j "e"
    let ty ← tyOf j "to"
    fresh (Expr.make (.cast ((j.strField? "name").getD (ty.simpleName?.getD "")) operand) ty)
  | "tern" =>
    fresh (Expr.mkTernary (← exprOf j "c") (← exprOf j "t") (← exprOf j "f"))
  | kind => throw (.unknownKind kind)
termination_by (sizeOf j, 1)

/-- The expression in a field. -/
def exprOf (j : Json) (name : String) : ReadM Expr :=
  match j.child? name with
  | some ⟨v, _⟩ => readExpr v
  | none => throw (.missing name)
termination_by (sizeOf j, 0)

/-- The expression in a field, if there is one. -/
def exprOf? (j : Json) (name : String) : ReadM (Option Expr) :=
  match j.present? name with
  | some ⟨v, _⟩ => some <$> readExpr v
  | none => pure none
termination_by (sizeOf j, 0)

/-- The expressions in a field. -/
def exprsOf (j : Json) (name : String) : ReadM (List Expr) :=
  (j.itemsOf name).mapM fun ⟨v, _⟩ => readExpr v
termination_by (sizeOf j, 0)

end

/-! ## Statements -/

/-- A variable. -/
def readVariable (j : Json) : ReadM Variable := do
  let v ← fresh (Variable.make (← textOf j "name") (← tyOf j "ty") (← exprOf? j "init"))
  remember j (.var v)
  return v

/-- A declaration of variables. -/
def readDeclaration (j : Json) : ReadM (Declaration Variable) := do
  let vars ← (j.itemsOf "vars").mapM fun v => readVariable v.1
  return { modifiers := modifiersOf j "mods", typeName := ← textOf j "type", vars }

def readParameter (j : Json) : ReadM Parameter := do
  let ty ← tyOf j "ty"
  return { typeName := (j.strField? "type").getD (ty.simpleName?.getD "Object"),
           name := ← textOf j "name", ty }

/-- A class without its body. Classes are public unless modifiers are given,
and of the type that their name says. -/
def readClassHead (j : Json) : ReadM ClassHead := do
  let name ← textOf j "name"
  let modifiers := match j.field? "mods" with
    | some (.arr _) => modifiersOf j "mods"
    | _ => [.publicAccess]
  return { modifiers, name, ty := (← tyOf? j "ty").getD (.known name) }

/-- A method without its body. Without a return type it is `void`; a `null`
one makes it a constructor. -/
def readMethodHead (j : Json) : ReadM MethodHead := do
  let returnType := match j.field? "ret" with
    | none => some "void"
    | some (.str name) => some name
    | some _ => none
  return { modifiers := modifiersOf j "mods", returnType, name := ← textOf j "name",
           params := ← (j.itemsOf "params").mapM fun p => readParameter p.1,
           throws := ← tysOf j "throws" }

mutual

/-- A block: an array of statements, or an object that holds one. -/
def readBlock (j : Json) : ReadM Block := do
  match ← reference? Node.block? j with
  | some b => return b
  | none =>
    let stmts ← (j.children ++ j.itemsOf "stmts").mapM fun ⟨v, _⟩ => readStmt v
    let b ← fresh (Block.make stmts (j.flag "static"))
    remember j (.block b)
    return b
termination_by (sizeOf j, 2)

/-- The block in a field. -/
def blockOf (j : Json) (name : String) : ReadM Block :=
  match j.child? name with
  | some ⟨v, _⟩ => readBlock v
  | none => throw (.missing name)
termination_by (sizeOf j, 0)

/-- The block in a field, if there is one. -/
def blockOf? (j : Json) (name : String) : ReadM (Option Block) :=
  match j.present? name with
  | some ⟨v, _⟩ => some <$> readBlock v
  | none => pure none
termination_by (sizeOf j, 0)

/-- The statement in a field. -/
def stmtOf (j : Json) (name : String) : ReadM Stmt :=
  match j.child? name with
  | some ⟨v, _⟩ => readStmt v
  | none => throw (.missing name)
termination_by (sizeOf j, 0)

/-- The statement in a field, if there is one. -/
def stmtOf? (j : Json) (name : String) : ReadM (Option Stmt) :=
  match j.present? name with
  | some ⟨v, _⟩ => some <$> readStmt v
  | none => pure none
termination_by (sizeOf j, 0)

/-- A catch clause. Its types are written with their simple names unless names
are given, and its parameter is of the first type. -/
def readCatch (j : Json) : ReadM (CatchClause Variable Block) := do
  let types ← tysOf j "types"
  let body ← blockOf j "body"
  let parameter ← fresh (Variable.make (← textOf j "name") (types.headD .unknown) none)
  let typeNames := match j.field? "names" with
    | some (.arr _) => j.strsOf "names"
    | _ => types.map fun ty => ty.simpleName?.getD "Exception"
  return { typeNames, types, parameter, body }
termination_by (sizeOf j, 1)

/-- A statement. -/
def readStmt (j : Json) : ReadM Stmt := do
  match ← reference? Node.stmt? j with
  | some s => return s
  | none =>
    let s ← readStmtForm j
    remember j (.stmt s)
    return s
termination_by (sizeOf j, 2)

/-- A statement without its label. -/
def readStmtForm (j : Json) : ReadM Stmt := do
  match ← textOf j "k" with
  | "var" => fresh (Stmt.make (.declare (← readDeclaration j)))
  | "decl" =>
    let init ← exprOf? j "init"
    fresh (Stmt.mkDeclare (modifiersOf j "mods") (← tyOf j "ty") (← textOf j "name") init)
  | "expr" => fresh (Stmt.mkExpr (← exprOf j "e"))
  | "if" =>
    fresh (Stmt.mkIf (← exprOf j "c") (← stmtOf j "t") (← stmtOf? j "f"))
  | "while" => fresh (Stmt.make (.whileLoop (← exprOf j "c") (← stmtOf j "body")))
  | "for" =>
    let init ← (j.itemsOf "init").mapM fun ⟨v, _⟩ => readStmt v
    fresh (Stmt.make (.forLoop init (← exprOf? j "c") (← exprsOf j "update") (← stmtOf j "body")))
  | "foreach" =>
    let iterable ← exprOf j "iter"
    let body ← stmtOf j "body"
    let ty ← tyOf j "ty"
    let item ← fresh (Variable.make (← textOf j "name") ty none)
    let typeName := (j.strField? "type").getD (ty.simpleName?.getD "var")
    fresh (Stmt.make (.forEach typeName item iterable body))
  | "try" =>
    let resources ← (j.itemsOf "res").mapM fun v => readDeclaration v.1
    let body ← blockOf j "body"
    let catches ← (j.itemsOf "catches").mapM fun ⟨v, _⟩ => readCatch v
    fresh (Stmt.make (.tryCatch resources body catches (← blockOf? j "finally")))
  | "block" => fresh (Stmt.make (.block (← blockOf j "b")))
  | "nest" => repeated (fun s => fresh (Stmt.mkBlock [s])) (countOf j) (← stmtOf j "s")
  | "return" => fresh (Stmt.make (.returnStmt (← exprOf? j "e")))
  | "throw" => fresh (Stmt.make (.throwStmt (← exprOf j "e")))
  | "thrownew" =>
    let ty := (← tyOf? j "ty").getD (.known Fqn.runtimeException)
    fresh (Stmt.mkThrowNew ty ((j.strField? "msg").getD ""))
  | "break" => fresh (Stmt.make .breakStmt)
  | "continue" => fresh (Stmt.make .continueStmt)
  | "method" => fresh (Stmt.make (.method (← readMethodHead j) (← blockOf? j "body")))
  | "class" => fresh (Stmt.make (.cls (← readClassHead j) (← blockOf j "body")))
  | kind => throw (.unknownKind kind)
termination_by (sizeOf j, 1)

end

/-! ## Units -/

/-- A top-level class. -/
def readClass (j : Json) : ReadM ClassDecl := do
  let head ← readClassHead j
  let body ← blockOf j "body"
  let c : ClassDecl := { id := ← fresh freshId, head, body }
  remember j (.cls c)
  return c

/-- An import: a name, or a name with a flag for static imports. -/
def readImport (j : Json) : ReadM Import := do
  match j with
  | .str name => return { name, isStatic := false }
  | j => return { name := ← textOf j "name", isStatic := j.flag "static" }

/-- A compilation unit. -/
def readUnit (j : Json) : ReadM CompilationUnit := do
  let imports ← (j.itemsOf "imports").mapM fun v => readImport v.1
  let classes ← (j.itemsOf "classes").mapM fun v => readClass v.1
  let u : CompilationUnit :=
    { id := ← fresh freshId, package := j.strField? "package", imports, classes }
  remember j (.unit u)
  return u

/-- The unit in a field. -/
def unitOf (j : Json) (name : String) : ReadM CompilationUnit := do
  readUnit (← need name (j.field? name))

/-- A node of any variant, told apart by the name of its field. -/
def readNode (j : Json) : ReadM Node := do
  match j.field? "expr", j.field? "stmt", j.field? "block", j.field? "var", j.field? "class" with
  | some e, _, _, _, _ => return .expr (← readExpr e)
  | _, some s, _, _, _ => return .stmt (← readStmt s)
  | _, _, some b, _, _ => return .block (← readBlock b)
  | _, _, _, some v, _ => return .var (← readVariable v)
  | _, _, _, _, some c => return .cls (← readClass c)
  | _, _, _, _, _ => return .unit (← unitOf j "cu")

/-- The node in a field. -/
def nodeOf (j : Json) (name : String) : ReadM Node := do readNode (← need name (j.field? name))

end JavaMend.Interchange
