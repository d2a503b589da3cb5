import JavaMend.Remedy.Pass

/-!
# Predictable seeds

A statement that seeds a `SecureRandom` with something predictable is removed:
a literal, the clock, the bytes of a literal, or anything a date answers. Only
statements of a block are removed; the lone statement of a branch is not.
-/

namespace JavaMend.Seed

def setSeed : List Signature := signatures ["java.security.SecureRandom setSeed(..)"]

def clock : List Signature :=
  signatures ["java.lang.System currentTimeMillis()", "java.lang.System nanoTime()"]

def stringBytes : List Signature := signatures ["java.lang.String getBytes(..)"]

/-- Can the value of the seed be guessed? Parentheses and casts do not make it
harder. -/
def canBeGuessed (matcher : CallMatcher) (seed : Expr) : Bool :=
  match seed with
  | ⟨_, _, .parens inner⟩ => canBeGuessed matcher inner
  | ⟨_, _, .cast _ operand⟩ => canBeGuessed matcher operand
  | ⟨_, _, .literal _⟩ => true
  | ⟨id, ty, .call receiver name args method⟩ =>
    let call : Expr := ⟨id, ty, .call receiver name args method⟩
    if matcher.acceptsAny call clock then true
    else if matcher.acceptsAny call stringBytes then
      receiver.any fun text => text.unparen.literal?.isSome
    else method.any fun m => m.owner.assignableTo Fqn.date
  | _ => false

/-- The call, if the statement seeds a generator predictably. -/
def weakSeeding? (matcher : CallMatcher) (stmt : Stmt) : Option Expr := do
  let call ← stmt.expression?
  guard (matcher.acceptsAny call setSeed)
  let seed ← call.args.head?
  guard (canBeGuessed matcher seed)
  return call

def remedy (env : PassEnv) : Remedy Unit where
  enter
    | .stmt stmt => do
      let inBlock := ((← VisitM.path).parent?.bind Node.block?).isSome
      match weakSeeding? env.matcher stmt with
      | some call =>
        if inBlock then
          let _ ← PassM.noteFix { anchor := stmt, tainted := call, parent := none, kind := .remove }
        return !inBlock
      | none => return true
    | _ => return true

/-- The pass that removes predictable seeds. -/
def pass (env : PassEnv) : Pass := ((remedy env).visitor env).pass ()

end JavaMend.Seed
