import JavaMend.Tree.Fresh

/-!
# Imports of fixes

What a fix writes refers to classes by their simple names. The classes are
collected while a pass runs and imported into the unit afterwards, if the unit
does not see them yet.
-/

namespace JavaMend

/-- The classes that fixes asked for, in the order they were first asked for. -/
structure ImportRequests where
  requested : List String
deriving DecidableEq

namespace ImportRequests

def empty : ImportRequests := ⟨[]⟩

def isEmpty (set : ImportRequests) : Bool := set.requested.isEmpty

/-- Asks for a class. -/
def add (set : ImportRequests) (fqn : String) : ImportRequests :=
  if set.requested.contains fqn then set else ⟨set.requested ++ [fqn]⟩

/-- The imports that a unit lacks. -/
def lacking (set : ImportRequests) (unit : CompilationUnit) : List Import :=
  (set.requested.filter (!unit.seesType ·)).map fun name => { name, isStatic := false }

/-- The unit with the imports it lacks, after those it has. A unit that lacks
none stays the node it is. -/
def apply (set : ImportRequests) (unit : CompilationUnit) : Fresh CompilationUnit :=
  match set.lacking unit with
  | [] => return unit
  | lacking => return { unit with id := ← freshId, imports := unit.imports ++ lacking }

end ImportRequests

end JavaMend
