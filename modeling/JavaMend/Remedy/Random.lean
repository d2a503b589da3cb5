import JavaMend.Remedy.Pass
import JavaMend.Tree.Library

/-!
# Insecure randomness

Every new `Random` becomes a new `SecureRandom`, without a seed: the one that
was there is what made the generator predictable. The declared type of the
variable that holds it can stay, for a `SecureRandom` is a `Random`.
-/

namespace JavaMend.Random

def creation : List Signature := signatures ["java.util.Random <constructor>(..)"]

/-- Is the expression a new `Random`, and not one of its subclasses? -/
def isInsecure (matcher : CallMatcher) (e : Expr) : Bool :=
  e.ty.isClass Fqn.random && matcher.acceptsAny e creation

def remedy (env : PassEnv) : Remedy Unit where
  enter
    | .expr e => do
      if isInsecure env.matcher e then
        PassM.replaceHere e (← VisitM.fresh (Expr.mkCreate Jdk.secureRandom [])) [Fqn.secureRandom]
        return false
      else return true
    | _ => return true

/-- The pass that replaces insecure generators. -/
def pass (env : PassEnv) : Pass := ((remedy env).visitor env).pass ()

end JavaMend.Random
