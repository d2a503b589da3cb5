import JavaMend.Json.Basic
import JavaMend.Tree.Printer

/-!
# Writing trees

A tree as JSON in a normal form of the encoding that `Interchange.Reader`
reads: every expression says its type, shorthands are spelled out, and fields
for absent children are left away.
-/

namespace JavaMend.Interchange

open Json (ofOption ofStrings)

/-- A field, if there is something to put into it. -/
def fieldOf? {α : Type} (name : String) (write : α → Json) (value : Option α) :
    List (String × Json) :=
  (value.map fun a => (name, write a)).toList

/-- A class type is written as its name alone if its supertypes are the known
ones. -/
def writeTy : Ty → Json
  | .cls fqn supers =>
    if Ty.cls fqn supers = Ty.known fqn then .str fqn
    else .obj [("fqn", .str fqn), ("supers", ofStrings supers)]
  | .primitive kind => .str ("#" ++ kind.keyword)
  | .null => .str "#null"
  | .unknown => .str "#unknown"

def writeTys (types : List Ty) : Json := .arr (types.map writeTy)

def writeMember (m : MethodRef) : Json :=
  .obj [("of", writeTy m.owner), ("name", .str m.name), ("params", writeTys m.params),
    ("ret", writeTy m.result), ("static", .bool m.isStatic)]

def literalFields : Literal → List (String × Json)
  | .string value => [("k", .str "str"), ("v", .str value)]
  | .char value => [("k", .str "char"), ("v", .str (String.ofList [value]))]
  | .int value => [("k", .str "int"), ("v", .num value 0)]
  | .long value => [("k", .str "long"), ("v", .num value 0)]
  | .boolean value => [("k", .str "bool"), ("v", .bool value)]
  | .null => [("k", .str "null")]

mutual

def writeExpr : Expr → Json
  | ⟨_, ty, .ident name owner⟩ =>
    .obj ([("k", .str "ident"), ("ty", writeTy ty), ("name", .str name)] ++
      fieldOf? "owner" writeTy owner)
  | ⟨_, ty, .literal value⟩ => .obj (("ty", writeTy ty) :: literalFields value)
  | ⟨_, ty, .field target name⟩ =>
    .obj [("k", .str "field"), ("ty", writeTy ty), ("target", writeExpr target),
      ("name", .str name)]
  | ⟨_, ty, .call receiver name args method⟩ =>
    .obj ([("k", .str "call"), ("ty", writeTy ty), ("name", .str name),
      ("args", .arr (writeExprs args)), ("m", ofOption writeMember method)] ++
      receiverField receiver)
  | ⟨_, ty, .create name args method⟩ =>
    .obj [("k", .str "new"), ("ty", writeTy ty), ("name", .str name),
      ("args", .arr (writeExprs args)), ("m", ofOption writeMember method)]
  | ⟨_, ty, .array name size⟩ =>
    .obj [("k", .str "newarray"), ("ty", writeTy ty), ("name", .str name),
      ("dim", writeExpr size)]
  | ⟨_, ty, .binary op left right⟩ =>
    .obj [("k", .str "bin"), ("ty", writeTy ty), ("op", .str op.symbol), ("l", writeExpr left),
      ("r", writeExpr right)]
  | ⟨_, ty, .unary op operand⟩ =>
    .obj [("k", .str "un"), ("ty", writeTy ty), ("op", .str op.symbol), ("e", writeExpr operand)]
  | ⟨_, ty, .assign op target value⟩ =>
    .obj ([("k", .str "assign"), ("ty", writeTy ty), ("target", writeExpr target),
      ("value", writeExpr value)] ++ fieldOf? "op" (fun (o : BinaryOp) => .str o.symbol) op)
  | ⟨_, ty, .parens inner⟩ =>
    .obj [("k", .str "parens"), ("ty", writeTy ty), ("e", writeExpr inner)]
  | ⟨_, ty, .cast name operand⟩ =>
    .obj [("k", .str "cast"), ("ty", writeTy ty), ("name", .str name), ("e", writeExpr operand)]
  | ⟨_, ty, .ternary condition onTrue onFalse⟩ =>
    .obj [("k", .str "tern"), ("ty", writeTy ty), ("c", writeExpr condition),
      ("t", writeExpr onTrue), ("f", writeExpr onFalse)]

def writeExprs : List Expr → List Json
  | [] => []
  | e :: rest => writeExpr e :: writeExprs rest

def receiverField : Option Expr → List (String × Json)
  | none => []
  | some e => [("recv", writeExpr e)]

end

def writeVariable (v : Variable) : Json :=
  .obj ([("name", .str v.name), ("ty", writeTy v.ty)] ++ fieldOf? "init" writeExpr v.init)

def writeModifiers (modifiers : List Modifier) : Json :=
  ofStrings (modifiers.map (·.keyword))

def declarationFields (decl : Declaration Variable) : List (String × Json) :=
  [("mods", writeModifiers decl.modifiers), ("type", .str decl.typeName),
    ("vars", .arr (decl.vars.map writeVariable))]

def writeParameter (p : Parameter) : Json :=
  .obj [("type", .str p.typeName), ("name", .str p.name), ("ty", writeTy p.ty)]

/-- A class around its written body. -/
def classFields (head : ClassHead) (body : Json) : List (String × Json) :=
  [("k", .str "class"), ("mods", writeModifiers head.modifiers), ("name", .str head.name),
    ("ty", writeTy head.ty), ("body", body)]

mutual

def writeStmt : Stmt → Json
  | ⟨_, .declare decl⟩ => .obj (("k", .str "var") :: declarationFields decl)
  | ⟨_, .expr e⟩ => .obj [("k", .str "expr"), ("e", writeExpr e)]
  | ⟨_, .ifElse condition onTrue none⟩ =>
    .obj [("k", .str "if"), ("c", writeExpr condition), ("t", writeStmt onTrue)]
  | ⟨_, .ifElse condition onTrue (some onFalse)⟩ =>
    .obj [("k", .str "if"), ("c", writeExpr condition), ("t", writeStmt onTrue),
      ("f", writeStmt onFalse)]
  | ⟨_, .whileLoop condition body⟩ =>
    .obj [("k", .str "while"), ("c", writeExpr condition), ("body", writeStmt body)]
  | ⟨_, .forLoop init condition update body⟩ =>
    .obj ([("k", .str "for"), ("init", .arr (writeStmts init)),
      ("update", .arr (update.map writeExpr)), ("body", writeStmt body)] ++
      fieldOf? "c" writeExpr condition)
  | ⟨_, .forEach typeName item iterable body⟩ =>
    .obj [("k", .str "foreach"), ("type", .str typeName), ("name", .str item.name),
      ("ty", writeTy item.ty), ("iter", writeExpr iterable), ("body", writeStmt body)]
  | ⟨_, .tryCatch resources body catches none⟩ =>
    .obj [("k", .str "try"), ("res", .arr (resources.map fun r => .obj (declarationFields r))),
      ("body", writeBlock body), ("catches", .arr (writeCatches catches))]
  | ⟨_, .tryCatch resources body catches (some finish)⟩ =>
    .obj [("k", .str "try"), ("res", .arr (resources.map fun r => .obj (declarationFields r))),
      ("body", writeBlock body), ("catches", .arr (writeCatches catches)),
      ("finally", writeBlock finish)]
  | ⟨_, .block body⟩ => .obj [("k", .str "block"), ("b", writeBlock body)]
  | ⟨_, .returnStmt value⟩ => .obj (("k", .str "return") :: fieldOf? "e" writeExpr value)
  | ⟨_, .throwStmt value⟩ => .obj [("k", .str "throw"), ("e", writeExpr value)]
  | ⟨_, .breakStmt⟩ => .obj [("k", .str "break")]
  | ⟨_, .continueStmt⟩ => .obj [("k", .str "continue")]
  | ⟨_, .method head body⟩ =>
    .obj [("k", .str "method"), ("mods", writeModifiers head.modifiers),
      ("ret", ofOption .str head.returnType), ("name", .str head.name),
      ("params", .arr (head.params.map writeParameter)), ("throws", writeTys head.throws),
      ("body", writeBlock? body)]
  | ⟨_, .cls head body⟩ => .obj (classFields head (writeBlock body))

def writeStmts : List Stmt → List Json
  | [] => []
  | stmt :: rest => writeStmt stmt :: writeStmts rest

def writeBlock : Block → Json
  | ⟨_, isStatic, stmts⟩ => .obj [("static", .bool isStatic), ("stmts", .arr (writeStmts stmts))]

def writeBlock? : Option Block → Json
  | none => .null
  | some body => writeBlock body

def writeCatches : List (CatchClause Variable Block) → List Json
  | [] => []
  | ⟨typeNames, types, parameter, body⟩ :: rest =>
    .obj [("names", ofStrings typeNames), ("types", writeTys types),
      ("name", .str parameter.name), ("body", writeBlock body)] :: writeCatches rest

end

def writeUnit (unit : CompilationUnit) : Json :=
  .obj [("package", ofOption .str unit.package),
    ("imports", .arr (unit.imports.map fun i =>
      .obj [("name", .str i.name), ("static", .bool i.isStatic)])),
    ("classes", .arr (unit.classes.map fun c => .obj (classFields c.head (writeBlock c.body))))]

end JavaMend.Interchange
