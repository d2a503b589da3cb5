import JavaMend.Traversal.Path

/-!
# Names in scope

A local that a fix introduces needs a name that nothing in sight has. The
names that count are generous: everything declared anywhere in the nearest
block, and everything the enclosing statements and declarations bring into
scope. The new name is a base name, or the base with the lowest suffix that is
free.
-/

namespace JavaMend

/-- The names that a node brings into scope for what stands inside it. -/
def Node.bindings : Node → List String
  | block b => b.stmts.flatMap (·.declaredNames)
  | stmt ⟨_, .method head _⟩ => head.params.map (·.name)
  | stmt ⟨_, .forEach _ item _ _⟩ => [item.name]
  | stmt ⟨_, .forLoop init _ _ _⟩ => init.flatMap (·.declaredNames)
  | stmt ⟨_, .tryCatch resources _ catches _⟩ =>
    resources.flatMap (fun r => r.vars.map (·.name)) ++ catches.map (·.parameter.name)
  | _ => []

/-- The names of all variables declared in a subtree. -/
def Node.declaredNames (n : Node) : List String :=
  n.subtree.filterMap fun m => m.var?.map (·.name)

/-- Every name that a new local at the end of the path could collide with. A
name may occur more than once. -/
def Path.takenNames (p : Path) : List String :=
  (match p.nearestBlock? with
    | some (_, b) => (Node.block b).declaredNames
    | none => []) ++ p.outward.flatMap (·.bindings)

/-- The first of `base ++ k`, `base ++ (k + 1)`, … that is not taken, with
`fuel` candidates tried before giving up on the next. -/
def freeSuffix (base : String) (taken : List String) (k : Nat) : Nat → String
  | 0 => base ++ toString k
  | fuel + 1 =>
    let candidate := base ++ toString k
    if taken.contains candidate then freeSuffix base taken (k + 1) fuel else candidate

/-- `base` if it is free, else `base` with the least positive number that makes
it so. Among as many candidates as there are names taken, and one more, one is
free, so the search never runs dry. Its counter has no bound: a counter of 32
bits lasts for the 2147483646 numbers that so many taken names can ask for. -/
def leastFreeName (base : String) (taken : List String) : String :=
  if taken.contains base then freeSuffix base taken 1 taken.length else base

/-- A name for a new local at the end of the path. -/
def Path.freshName (p : Path) (base : String) : String := leastFreeName base p.takenNames

end JavaMend
