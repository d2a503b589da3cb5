import JavaMend.Tree.Fresh

/-!
# Replacing expressions

Two ways to put an expression in the place of another, anywhere below a node:
by identity, at the first place where the very node stands, and by structure,
at every place where an alike expression stands.
-/

namespace JavaMend

/-- The first answer among the elements of a list, from the left. -/
def firstAnswer {α β : Type} (f : α → Fresh (Option β)) : List α → Fresh (Option β)
  | [] => return none
  | a :: rest => do
    match ← f a with
    | some b => return some b
    | none => firstAnswer f rest

namespace Node

/-- Replaces the expression that is the same node as `target`, at its first
place. The nodes above that place are new. There is no answer if the target is
not in the node. -/
def replaceExpr? (target new : Expr) (n : Node) : Fresh (Option Node) :=
  if n.same (.expr target) then return some (.expr new)
  else
    n.children.attach |> firstAnswer fun ⟨c, _⟩ => do
      match ← replaceExpr? target new c with
      | some rebuilt => return some (n.replaceChild (← freshId) c rebuilt)
      | none => return none
termination_by sizeOf n
decreasing_by exact sizeOf_lt_of_mem_children ‹_›

/-- Is the node an expression alike to `target`? -/
def isAlikeExpr (n : Node) (target : Expr) : Bool := n.expr?.any (·.alike target)

/-- Replaces every expression that is alike to `target`, outermost first: what
stands inside of a replaced expression goes with it. There is no answer if no
expression of the node is alike to the target. -/
def replaceAlike? (target new : Expr) (n : Node) : Fresh (Option Node) := do
  if n.isAlikeExpr target then return some (.expr new)
  else
    let news ← n.children.attach.mapM fun ⟨c, _⟩ => do return (c, ← replaceAlike? target new c)
    if news.any (·.2.isSome) then
      return some (← n.rebuild (news.map fun (old, new) => new.getD old))
    else return none
termination_by sizeOf n
decreasing_by exact sizeOf_lt_of_mem_children ‹_›

end Node

/-- The statement with the expression that is the same node as `target`
replaced. -/
def Stmt.replaceExpr? (stmt : Stmt) (target new : Expr) : Fresh (Option Stmt) :=
  return (← (Node.stmt stmt).replaceExpr? target new).bind Node.stmt?

/-- The statement with every expression alike to `target` replaced. -/
def Stmt.replaceAlike? (stmt : Stmt) (target new : Expr) : Fresh (Option Stmt) :=
  return (← (Node.stmt stmt).replaceAlike? target new).bind Node.stmt?

end JavaMend
