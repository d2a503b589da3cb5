import JavaMend.Remedy.Pass
import JavaMend.Tree.Library

/-!
# Cookies without the secure flag

A cookie held by a local is followed to the `setSecure` calls on it. Without
any, a call that sets the flag is written after the declaration. If all of them
clear the flag by a literal, they are turned around. If any of them passes
something else, somebody decided, and the cookie is left alone.
-/

namespace JavaMend.Cookie

def creation : List Signature := signatures ["javax.servlet.http.Cookie <constructor>(..)"]

def setSecure : List Signature := signatures ["javax.servlet.http.Cookie setSecure(boolean)"]

/-- The calls that are to be turned around when the visit gets to them. -/
abbrev State := List NodeId

/-- The `setSecure` calls that the cookie at the end of the path reaches. -/
def flagCalls (env : PassEnv) (path : Path) (cookie : Expr) : List Expr :=
  let isSink p := setSecure.any (env.matcher.isReceiverOf p)
  ((env.queryFrom path).findSinks (.valueOf cookie isSink)).sinks.filterMap
    fun sink => sink.path.operandOf?

/-- Does the call pass a literal `false`? -/
def clearsFlag (call : Expr) : Bool :=
  call.args.head?.any fun arg => arg.unparen.literal? == some (.boolean false)

/-- Looks at a new cookie. -/
def inspect (env : PassEnv) (cookie : Expr) : PassM State Unit := do
  let path ← VisitM.path
  match path.initialized? with
  | none => return ()
  | some v =>
    match flagCalls env path cookie with
    | [] =>
      match path.anchor? with
      | none => return ()
      | some anchor =>
        let enable ← VisitM.fresh do
          Stmt.mkExpr (← Expr.mkCall (← v.mkRead none) Jdk.cookieSetSecure [← Expr.mkBool true])
        let _ ← PassM.noteFix
          { anchor, tainted := cookie, parent := none, kind := .insertAfter [enable] }
    | calls =>
      if calls.all clearsFlag then VisitM.modifyOwn (calls.map (·.id) ++ ·)

/-- Turns a call around. -/
def turnAround (call : Expr) : PassM State Unit := do
  match call.args.head? with
  | some arg => PassM.replaceHere arg (← VisitM.fresh (Expr.mkBool true)) []
  | none => return ()

def remedy (env : PassEnv) : Remedy State where
  enter
    | .expr e => do
      if (← VisitM.own).contains e.id then
        VisitM.modifyOwn (·.filter (· != e.id))
        turnAround e
      else if env.matcher.acceptsAny e creation then
        inspect env e
      return true
    | _ => return true

/-- The pass that sets the secure flag of cookies. -/
def pass (env : PassEnv) : Pass := ((remedy env).visitor env).pass []

end JavaMend.Cookie
