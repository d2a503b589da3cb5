import JavaMend.Traversal.Cursor

/-!
# Visitors

A visitor rebuilds a tree from the leaves up. It is shown a node, with the
cursor on it, and an action that descends into the node's children; what it
answers takes the node's place. A visitor that only descends changes nothing.

**Sharing.** Descending rebuilds a node only if some child came back as
another node. A subtree that nothing in it changed is therefore returned as
the very node it was.

**Failure.** A visitor may fail. The cursor is then where the failing visit
found it: each frame is left again on both ways out, by `inFrame`.
-/

namespace JavaMend

/-- What a visit works on: the position with its notes, the id supply, and
whatever the visitor keeps for itself. -/
structure Site (μ σ : Type) where
  cursor : Cursor μ
  next : NodeId
  own : σ

/-- A visit that may fail with `ε` and keeps its site when it does. -/
abbrev VisitM (ε μ σ : Type) := EStateM ε (Site μ σ)

/-- How a visitor treats a node: `visit n descend` answers what takes the
place of `n`, where `descend` visits the children of `n` and answers `n` with
what they became. -/
structure Visitor (ε μ σ : Type) where
  visit : Node → VisitM ε μ σ Node → VisitM ε μ σ Node

namespace VisitM

variable {ε μ σ α : Type}

/-- Makes nodes from the site's id supply. -/
def fresh (make : Fresh α) : VisitM ε μ σ α := fun site =>
  let (a, next) := make site.next
  .ok a { site with next }

/-- Reads the cursor. -/
def cursor : VisitM ε μ σ (Cursor μ) := return (← get).cursor

/-- The path to the current node. -/
def path : VisitM ε μ σ Path := return (← cursor).path

/-- Changes the cursor. -/
def modifyCursor (f : Cursor μ → α × Cursor μ) : VisitM ε μ σ α := fun site =>
  let (a, cursor) := f site.cursor
  .ok a { site with cursor }

/-- Reads the visitor's own state. -/
def own : VisitM ε μ σ σ := return (← get).own

/-- Changes the visitor's own state. -/
def modifyOwn (f : σ → σ) : VisitM ε μ σ Unit := modify fun site => { site with own := f site.own }

/-- Runs an action one frame further down, and leaves that frame again whether
the action succeeds or fails. -/
def inFrame (n : Node) (action : VisitM ε μ σ α) : VisitM ε μ σ α := fun site =>
  match action { site with cursor := site.cursor.push n } with
  | .ok a site => .ok a { site with cursor := site.cursor.pop }
  | .error e site => .error e { site with cursor := site.cursor.pop }

end VisitM

namespace Visitor

variable {ε μ σ : Type}

/-- The visitor that changes nothing. -/
def idle : Visitor ε μ σ := ⟨fun _ descend => descend⟩

/-- The node after its children became `news`: the node itself if each child
is the child it was, else the node rebuilt around them. -/
def settle (n : Node) (news : List Node) : VisitM ε μ σ Node :=
  if (n.children.zip news).all fun (old, new) => new.same old then return n
  else .fresh (n.rebuild news)

/-- Visits a node, on which the cursor already stands. -/
def run (v : Visitor ε μ σ) (n : Node) : VisitM ε μ σ Node :=
  v.visit n do
    settle n (← n.children.attach.mapM fun ⟨c, _⟩ => VisitM.inFrame c (v.run c))
termination_by sizeOf n
decreasing_by exact Node.sizeOf_lt_of_mem_children ‹_›

/-- Visits a whole tree from its root, with a cursor of its own. -/
def runTree (v : Visitor ε μ σ) (root : Node) (next : NodeId) (own : σ) :
    EStateM.Result ε (Site μ σ) Node :=
  v.run root { cursor := .ofRoot root, next, own }

end Visitor

end JavaMend
