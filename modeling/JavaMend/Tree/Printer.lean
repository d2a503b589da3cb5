import JavaMend.Tree.Node

/-!
# Source text

A tree as Java-like text, for diagnostics and findings. The layout is fixed:
four spaces of indentation, one statement a line. A tree is first laid out as
`Line`s, each an indentation depth and a text, and only then joined, so that
nesting is a matter of depths and not of text.
-/

namespace JavaMend

/-! ## Expressions -/

/-- A character inside a literal delimited by `quote`. The delimiter and the
backslash are escaped, and so are line feed and tab. -/
def escapeChar (quote c : Char) : List Char :=
  if c == '\\' then ['\\', '\\']
  else if c == quote then ['\\', c]
  else if c == '\n' then ['\\', 'n']
  else if c == '\t' then ['\\', 't']
  else [c]

/-- A literal's characters between two delimiters. -/
def quoted (quote : Char) (chars : List Char) : String :=
  String.ofList (quote :: chars.flatMap (escapeChar quote) ++ [quote])

def Literal.text : Literal → String
  | .string value => quoted '"' value.toList
  | .char value => quoted '\'' [value]
  | .int value => toString value
  | .long value => toString value ++ "L"
  | .boolean true => "true"
  | .boolean false => "false"
  | .null => "null"

/-- Texts with commas between them. -/
def commaSeparated (texts : List String) : String := ", ".intercalate texts

mutual

/-- The source text of an expression. No parentheses are added: those of the
source are nodes of the tree. -/
def Expr.text : Expr → String
  | ⟨_, _, .ident name _⟩ => name
  | ⟨_, _, .literal value⟩ => value.text
  | ⟨_, _, .field target name⟩ => target.text ++ "." ++ name
  | ⟨_, _, .call receiver name args _⟩ =>
    qualifierText receiver ++ name ++ "(" ++ commaSeparated (textEach args) ++ ")"
  | ⟨_, _, .create className args _⟩ =>
    "new " ++ className ++ "(" ++ commaSeparated (textEach args) ++ ")"
  | ⟨_, _, .array element size⟩ => "new " ++ element ++ "[" ++ size.text ++ "]"
  | ⟨_, _, .binary op left right⟩ => left.text ++ " " ++ op.symbol ++ " " ++ right.text
  | ⟨_, _, .unary op operand⟩ => op.symbol ++ operand.text
  | ⟨_, _, .assign none target value⟩ => target.text ++ " = " ++ value.text
  | ⟨_, _, .assign (some op) target value⟩ =>
    target.text ++ " " ++ op.symbol ++ "= " ++ value.text
  | ⟨_, _, .parens inner⟩ => "(" ++ inner.text ++ ")"
  | ⟨_, _, .cast typeName operand⟩ => "(" ++ typeName ++ ") " ++ operand.text
  | ⟨_, _, .ternary condition onTrue onFalse⟩ =>
    condition.text ++ " ? " ++ onTrue.text ++ " : " ++ onFalse.text

/-- The receiver of a call and the dot after it, if there is one. -/
def qualifierText : Option Expr → String
  | none => ""
  | some receiver => receiver.text ++ "."

/-- The text of each expression of a list. -/
def textEach : List Expr → List String
  | [] => []
  | e :: rest => e.text :: textEach rest

end

/-! ## Declarations -/

/-- Modifiers, each with the blank after it. -/
def modifiersText (modifiers : List Modifier) : String :=
  String.join (modifiers.map fun m => m.keyword ++ " ")

/-- A variable and its initializer. -/
def Variable.text (v : Variable) : String :=
  match v.init with
  | some init => v.name ++ " = " ++ init.text
  | none => v.name

/-- A declaration without its semicolon. -/
def Declaration.text (decl : Declaration Variable) : String :=
  modifiersText decl.modifiers ++ decl.typeName ++ " " ++
    commaSeparated (decl.vars.map (·.text))

def ClassHead.text (head : ClassHead) : String :=
  modifiersText head.modifiers ++ "class " ++ head.name

def MethodHead.text (head : MethodHead) : String :=
  let returned := match head.returnType with
    | some name => name ++ " "
    | none => ""
  let params := commaSeparated (head.params.map fun p => p.typeName ++ " " ++ p.name)
  let thrown :=
    if head.throws.isEmpty then ""
    else " throws " ++ commaSeparated (head.throws.filterMap Ty.simpleName?)
  modifiersText head.modifiers ++ returned ++ head.name ++ "(" ++ params ++ ")" ++ thrown

/-- A statement in the header of a `for` loop: a declaration or an expression,
without its semicolon. -/
def Stmt.headerText (stmt : Stmt) : String :=
  match stmt.form with
  | .declare decl => decl.text
  | .expr e => e.text
  | _ => ""

/-- The part of a `for` loop before its body. -/
def forHeaderText (init : List Stmt) (condition : Option Expr) (update : List Expr) : String :=
  "for (" ++ commaSeparated (init.map (·.headerText)) ++ "; " ++
    (condition.map (·.text)).getD "" ++ "; " ++ commaSeparated (update.map (·.text)) ++ ")"

/-- The part of a `try` before its body. -/
def tryHeaderText (resources : List (Declaration Variable)) : String :=
  if resources.isEmpty then "try"
  else "try (" ++ "; ".intercalate (resources.map (·.text)) ++ ")"

/-! ## Statements -/

/-- One line of output: how deep it is nested and what it says. -/
structure Line where
  depth : Nat
  text : String

/-- The line with its indentation, four spaces a level, and its line feed. -/
def Line.render (line : Line) : String :=
  String.ofList (List.replicate (4 * line.depth) ' ') ++ line.text ++ "\n"

/-- Lines one after the other. -/
def renderLines (lines : List Line) : String := String.join (lines.map Line.render)

/-- Lines one level deeper. -/
def indent (lines : List Line) : List Line := lines.map fun l => { l with depth := l.depth + 1 }

/-- Lines in braces, the opening one at the end of a header's line. -/
def braced (header : String) (inner : List Line) : List Line :=
  ⟨0, header ++ " \x7b"⟩ :: indent inner ++ [⟨0, "\x7d"⟩]

/-- How a statement is laid out. What stands in braces opens on the line of
the header it belongs to; anything else goes below it. -/
inductive Layout where
  | plain (lines : List Line)
  | inBraces (isStatic : Bool) (inner : List Line)

/-- A statement on its own. -/
def Layout.lines : Layout → List Line
  | plain lines => lines
  | inBraces true inner => braced "static" inner
  | inBraces false inner => ⟨0, "\x7b"⟩ :: indent inner ++ [⟨0, "\x7d"⟩]

/-- A statement under the header of the statement it is a branch of. -/
def Layout.under (header : String) : Layout → List Line
  | plain lines => ⟨0, header⟩ :: indent lines
  | inBraces _ inner => braced header inner

/-- A branch and the branch for the other case. A first branch in braces shares
the line of its closing brace with the `else`. -/
def Layout.orElse (header : String) (onTrue onFalse : Layout) : List Line :=
  match onTrue with
  | inBraces _ inner => ⟨0, header ++ " \x7b"⟩ :: indent inner ++ onFalse.under "\x7d else"
  | plain _ => onTrue.under header ++ onFalse.under "else"

mutual

/-- The layout of a statement, its own lines at depth zero. -/
def Stmt.layout : Stmt → Layout
  | ⟨_, .declare decl⟩ => .plain [⟨0, decl.text ++ ";"⟩]
  | ⟨_, .expr e⟩ => .plain [⟨0, e.text ++ ";"⟩]
  | ⟨_, .ifElse condition onTrue none⟩ =>
    .plain (onTrue.layout.under ("if (" ++ condition.text ++ ")"))
  | ⟨_, .ifElse condition onTrue (some onFalse)⟩ =>
    .plain (onTrue.layout.orElse ("if (" ++ condition.text ++ ")") onFalse.layout)
  | ⟨_, .whileLoop condition body⟩ =>
    .plain (body.layout.under ("while (" ++ condition.text ++ ")"))
  | ⟨_, .forLoop init condition update body⟩ =>
    .plain (body.layout.under (forHeaderText init condition update))
  | ⟨_, .forEach typeName item iterable body⟩ =>
    .plain (body.layout.under
      ("for (" ++ typeName ++ " " ++ item.name ++ " : " ++ iterable.text ++ ")"))
  | ⟨_, .tryCatch resources body catches finish⟩ =>
    .plain (⟨0, tryHeaderText resources ++ " \x7b"⟩ :: indent body.lines ++
      catchLines catches ++ finishLines finish ++ [⟨0, "\x7d"⟩])
  | ⟨_, .block body⟩ => .inBraces body.isStatic body.lines
  | ⟨_, .returnStmt none⟩ => .plain [⟨0, "return;"⟩]
  | ⟨_, .returnStmt (some value)⟩ => .plain [⟨0, "return " ++ value.text ++ ";"⟩]
  | ⟨_, .throwStmt value⟩ => .plain [⟨0, "throw " ++ value.text ++ ";"⟩]
  | ⟨_, .breakStmt⟩ => .plain [⟨0, "break;"⟩]
  | ⟨_, .continueStmt⟩ => .plain [⟨0, "continue;"⟩]
  | ⟨_, .method head none⟩ => .plain [⟨0, head.text ++ ";"⟩]
  | ⟨_, .method head (some body)⟩ => .plain (braced head.text body.lines)
  | ⟨_, .cls head body⟩ => .plain (braced head.text body.lines)

/-- The lines of the statements of a block, without its braces. -/
def Block.lines : Block → List Line
  | ⟨_, _, stmts⟩ => stmtsLines stmts

/-- The lines of statements one after the other. -/
def stmtsLines : List Stmt → List Line
  | [] => []
  | stmt :: rest => stmt.layout.lines ++ stmtsLines rest

/-- The lines of catch clauses, each closing the block before it. -/
def catchLines : List (CatchClause Variable Block) → List Line
  | [] => []
  | ⟨typeNames, _, parameter, body⟩ :: rest =>
    ⟨0, "\x7d catch (" ++ " | ".intercalate typeNames ++ " " ++ parameter.name ++ ") \x7b"⟩ ::
      indent body.lines ++ catchLines rest

/-- The lines of a `finally` block, closing the block before it. -/
def finishLines : Option Block → List Line
  | none => []
  | some body => ⟨0, "\x7d finally \x7b"⟩ :: indent body.lines

end

/-! ## Whole nodes -/

def Stmt.text (stmt : Stmt) : String := renderLines stmt.layout.lines

def Block.text (block : Block) : String := renderLines block.lines

/-- The lines of a class declaration. -/
def ClassDecl.lines (decl : ClassDecl) : List Line := braced decl.head.text decl.body.lines

def ClassDecl.text (decl : ClassDecl) : String := renderLines decl.lines

def Import.text (i : Import) : String :=
  (if i.isStatic then "import static " else "import ") ++ i.name ++ ";"

/-- A unit's package and imports are each followed by a blank line. -/
def CompilationUnit.text (unit : CompilationUnit) : String :=
  let package := match unit.package with
    | some name => [⟨0, "package " ++ name ++ ";"⟩, ⟨0, ""⟩]
    | none => []
  let imports :=
    if unit.imports.isEmpty then []
    else unit.imports.map (fun i => ⟨0, i.text⟩) ++ [⟨0, ""⟩]
  renderLines (package ++ imports ++ unit.classes.flatMap (·.lines))

/-- The source text of any node. -/
def Node.text : Node → String
  | unit u => u.text
  | cls c => c.text
  | block b => b.text
  | stmt s => s.text
  | var v => v.text
  | expr e => e.text

end JavaMend
