import JavaMend.Remedy.Pass
import JavaMend.Tree.Printer

/-!
# Privileged code

Classes that are privileged actions and calls that run one are reported.
Nothing is changed.
-/

namespace JavaMend.Privileged

def doPrivileged : List Signature :=
  signatures ["java.security.AccessController doPrivileged(..)"]

/-- Reports the current node. -/
def report (remediation snippet : String) : PassM Unit Unit := do
  let location := (← VisitM.path).location
  VisitM.modifyCursor fun c => ((), c.noteFinding { remediation, location, snippet })

/-- What to report about a node. -/
def snippet? (matcher : CallMatcher) (n : Node) : Option String :=
  match n, n.class? with
  | _, some (head, _) =>
    if head.ty.assignableTo Fqn.privilegedAction then some ("class " ++ head.name) else none
  | .expr e, none => if matcher.acceptsAny e doPrivileged then some e.text else none
  | _, none => none

def remedy (env : PassEnv) (remediation : String) : Remedy Unit where
  enter n := do
    match snippet? env.matcher n with
    | some snippet => report remediation snippet
    | none => pure ()
    return true

/-- The pass that reports privileged code, under the id of a remediation. -/
def pass (env : PassEnv) (remediation : String) : Pass :=
  ((remedy env remediation).visitor env).pass ()

end JavaMend.Privileged
