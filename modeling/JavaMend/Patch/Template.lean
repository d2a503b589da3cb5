import JavaMend.Error
import JavaMend.Text.CharClass
import JavaMend.Tree.Fresh

/-!
# Source templates

A template is a piece of Java-like text together with the function that makes
the fragment the text stands for. The text declares the operands, in order, by
placeholders `#{any(type)}`; a placeholder without a type takes any operand.
Operands are checked against the placeholders before the fragment is made, so
that function only ever sees operands of the declared number and types.
-/

namespace JavaMend

/-- What can be written into a block. -/
inductive Fragment where
  | statements (stmts : List Stmt)
  | expression (expr : Expr)

/-- A template. -/
structure Template where
  text : String
  /-- The type each operand must have, if it must have one: a qualified class
  name or the keyword of a primitive. -/
  params : List (Option String)
  /-- The classes that the fragment refers to by their simple names. -/
  imports : List String
  build : List Expr → Fresh Fragment

namespace Template

/-! ## Placeholders -/

/-- The text up to the next closing brace, and the text after the brace. -/
def untilBrace? : List Char → Option (List Char × List Char)
  | [] => none
  | '\x7d' :: rest => some ([], rest)
  | c :: rest => (untilBrace? rest).map fun (inner, after) => (c :: inner, after)

theorem untilBrace?_length {cs inner after : List Char} (h : untilBrace? cs = some (inner, after)) :
    after.length < cs.length := by
  induction cs generalizing inner with
  | nil => simp [untilBrace?] at h
  | cons c rest ih =>
    unfold untilBrace? at h
    split at h
    · contradiction
    · simp_all
    · next heq =>
      obtain ⟨rfl, rfl⟩ := heq
      simp only [Option.map_eq_some_iff, Prod.mk.injEq] at h
      obtain ⟨⟨inner', after'⟩, found, _, rfl⟩ := h
      have := ih found
      simp only [List.length_cons]
      exact Nat.lt_succ_of_lt this

/-- What stands inside the placeholders of a text, from the left. -/
def placeholders (cs : List Char) : List (List Char) :=
  match cs with
  | [] => []
  | '#' :: '\x7b' :: rest =>
    match h : untilBrace? rest with
    | some (inner, after) =>
      have := untilBrace?_length h
      inner :: placeholders after
    | none => []
  | _ :: rest => placeholders rest
termination_by cs.length

/-- A character of a written type name. -/
def isTypeChar (c : Char) : Bool := CharClass.isWord c || c == '$' || c == '.'

/-- Reads `any(type)`: the type, or nothing for `any()`. -/
def readParam? (inner : List Char) : Option (Option String) :=
  match inner with
  | 'a' :: 'n' :: 'y' :: '(' :: rest =>
    match rest.reverse with
    | ')' :: backwards =>
      let name := trimWhite backwards.reverse
      if name.all isTypeChar then
        some (if name.isEmpty then none else some (String.ofList name))
      else none
    | _ => none
  | _ => none

/-- The operands that a text declares. -/
def readParams (text : String) : Except TemplateError (List (Option String)) :=
  (placeholders text.toList).mapM fun inner =>
    let inner := trimWhite inner
    match readParam? inner with
    | some param => .ok param
    | none => .error (.malformedPlaceholder (String.ofList inner))

/-- The template of a text. -/
def parse (text : String) (imports : List String) (build : List Expr → Fresh Fragment) :
    Except TemplateError Template := do
  return { text, params := ← readParams text, imports, build }

/-! ## Filling in -/

/-- How a type is named in a mismatch. -/
def typeName (ty : Ty) : String := (ty.fqn?.or ty.simpleName?).getD "null"

/-- Does an operand fit its placeholder? A primitive fits under its own
keyword only. -/
def checkOperand (index : Nat) (param : Option String) (operand : Expr) :
    Except TemplateError Unit :=
  match param with
  | none => .ok ()
  | some expected =>
    match operand.ty with
    | .unknown => .error (.unknownOperandType index expected)
    | .primitive kind =>
      if kind.keyword == expected then .ok ()
      else .error (.typeMismatch index expected kind.keyword)
    | ty =>
      if ty.assignableTo expected then .ok ()
      else .error (.typeMismatch index expected (typeName ty))

/-- Checks operands one after the other. -/
def checkOperands (index : Nat) : List (Option String) → List Expr → Except TemplateError Unit
  | param :: params, operand :: operands => do
    checkOperand index param operand
    checkOperands (index + 1) params operands
  | _, _ => .ok ()

/-- Do the operands fit the placeholders, in number and in type? -/
def check (t : Template) (operands : List Expr) : Except TemplateError Unit := do
  if operands.length ≠ t.params.length then
    throw (.arity t.params.length operands.length)
  checkOperands 0 t.params operands

/-- The fragment for some operands. -/
def render (t : Template) (operands : List Expr) : ExceptT TemplateError Fresh Fragment := do
  t.check operands
  t.build operands

/-- The expression for some operands, where the template makes one. -/
def renderExpression (t : Template) (operands : List Expr) : ExceptT TemplateError Fresh Expr := do
  match ← t.render operands with
  | .expression e => return e
  | .statements _ => throw (.notAnExpression t.text)

end Template

end JavaMend
