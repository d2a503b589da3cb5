import JavaMend.Tree.Fresh

/-!
# Paths

A path leads from the root of a tree to one of its nodes. It is kept the way
it is asked about, from the node outward: the node itself first, its ancestors
after it, the root last. Positions on a path are counted from the root, so a
position names the same ancestor however far down the path goes.

`Path.Genuine` says what a path promises: each node is a child of the one
above it. `Path.locate` only makes genuine paths.
-/

namespace JavaMend

/-- A node and its ancestors, nearest first. -/
structure Path where
  outward : List Node

namespace Path

/-- The path that stops at the root. -/
def ofRoot (root : Node) : Path := ⟨[root]⟩

/-- The path of a list of nodes given root first. -/
def ofInward (nodes : List Node) : Path := ⟨nodes.reverse⟩

/-- The nodes root first. -/
def inward (p : Path) : List Node := p.outward.reverse

def length (p : Path) : Nat := p.outward.length

/-- The path one step further down. -/
def child (p : Path) (n : Node) : Path := ⟨n :: p.outward⟩

/-- The first `count` nodes of the path, from the root. -/
def upTo (p : Path) (count : Nat) : Path := ⟨p.outward.drop (p.length - count)⟩

/-- The node the path leads to. -/
def value? (p : Path) : Option Node := p.outward.head?

/-- The parent of the node the path leads to. -/
def parent? (p : Path) : Option Node := p.outward.tail.head?

/-- The node at a position, counted from the root. -/
def get? (p : Path) (index : Nat) : Option Node :=
  if index < p.length then p.outward[p.length - 1 - index]? else none

/-- The unit at the root, if the path starts at one. -/
def unit? (p : Path) : Option CompilationUnit := p.outward.getLast?.bind Node.unit?

/-- The ancestors of the node, nearest first, with their positions. -/
def ancestors (p : Path) : List (Nat × Node) := go p.outward.tail
where
  /-- Each node of an outward list with its position. -/
  go : List Node → List (Nat × Node)
    | [] => []
    | n :: above => (above.length, n) :: go above

/-- The nearest node, the path's own included, for which `f` has an answer;
the answer comes with the node's position. -/
def nearest? {α : Type} (p : Path) (f : Node → Option α) : Option (Nat × α) := go p.outward
where
  /-- The search, nearest node first. -/
  go : List Node → Option (Nat × α)
    | [] => none
    | n :: above =>
      match f n with
      | some a => some (above.length, a)
      | none => go above

/-- The nearest node of a kind, the path's own included. -/
def enclosing? (p : Path) (kind : NodeKind) : Option (Nat × Node) :=
  p.nearest? fun n => if n.kind = kind then some n else none

/-- The nearest block, the path's own node included. -/
def nearestBlock? (p : Path) : Option (Nat × Block) := p.nearest? Node.block?

/-- The nearest method declaration. -/
def enclosingMethod? (p : Path) : Option MethodHead :=
  (p.nearest? Node.method?).map (·.2.1)

/-- The statement of the block at a position that the path goes through. -/
def stmtIn? (p : Path) (blockIndex : Nat) : Option Stmt :=
  (p.get? (blockIndex + 1)).bind Node.stmt?

/-- Does an outward list start with an initializer: a `static` block, or a
block statement directly in a class body? -/
def startsWithInitializer : List Node → Bool
  | .block b :: above =>
    b.isStatic ||
      match above with
      | .stmt ⟨_, .block _⟩ :: .block _ :: owner :: _ => owner.kind == .cls
      | _ => false
  | _ => false

/-- Does an outward list start with the body of a method or an initializer? -/
def startsWithBody : List Node → Bool
  | .block b :: above =>
    (match above with
      | parent :: _ => parent.kind == .method
      | [] => false) || startsWithInitializer (.block b :: above)
  | _ => false

/-- Is the node at a position an initializer block? -/
def isInitializer (p : Path) (index : Nat) : Bool :=
  index < p.length && startsWithInitializer (p.upTo (index + 1)).outward

/-- The body of the innermost method or initializer the path goes through. -/
def outerBody? (p : Path) : Option (Nat × Block) := go p.outward
where
  /-- The search, nearest node first. -/
  go : List Node → Option (Nat × Block)
    | [] => none
    | .block b :: above =>
      if startsWithBody (.block b :: above) then some (above.length, b) else go above
    | _ :: above => go above

/-- The path with the node at a position replaced. The nodes below it are
dropped, and every ancestor is rebuilt around the child that took the place of
the old one. -/
def replacing (p : Path) (index : Nat) (node : Node) : Fresh Path :=
  match (p.upTo (index + 1)).outward with
  | old :: above =>
    if index < p.length then return ⟨← go old node above [node]⟩ else return p
  | [] => return p
where
  /-- Rebuilds the ancestors of `old`, which `new` replaces. -/
  go (old new : Node) (above done : List Node) : Fresh (List Node) :=
    match above with
    | [] => return done
    | parent :: above => do
      let rebuilt := parent.replaceChild (← freshId) old new
      go parent rebuilt above (done ++ [rebuilt])

/-- The path from `root` to `target`, in depth-first order, below the nodes of
`above`. -/
def search (target : Node) (above : List Node) (n : Node) : Option Path :=
  if n.same target then some ⟨n :: above⟩
  else n.children.attach.findSome? fun ⟨c, _⟩ => search target (n :: above) c
termination_by sizeOf n
decreasing_by exact Node.sizeOf_lt_of_mem_children ‹_›

/-- The path from `root` to the node that is the same as `target`. -/
def locate (root target : Node) : Option Path := search target [] root

/-- Each node of an outward list is a child of the next. -/
def GenuineList : List Node → Prop
  | [] => False
  | [_] => True
  | n :: parent :: above => n ∈ parent.children ∧ GenuineList (parent :: above)

/-- A path that a tree really has: not empty, and each node a child of the one
above it. -/
def Genuine (p : Path) : Prop := GenuineList p.outward

end Path

end JavaMend
