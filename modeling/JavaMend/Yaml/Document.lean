import JavaMend.Yaml.Basic

/-!
# Reading values out of a document

A document is its outermost node and the nodes that references in it stand for.
A reader of values says what it expects to find, and follows references on its
way. A short document can stand for a very large value, since what is referred
to may hold references again; so they are counted, and a reader gives up after
a hundred for each event of the document, where a scalar or a reference is one
event and a collection two.
-/

namespace JavaMend.Yaml

structure Document where
  root : Yaml
  /-- The nodes of the anchors, by their numbers. -/
  anchors : List (Nat × Yaml)
  /-- The number of events. -/
  events : Nat

/-- A reader of values; it has no answer if there is something else. It counts
the references that were followed. -/
abbrev Decode := ReaderT Document (StateT Nat Option)

namespace Decode

/-- What a reader finds in a document. -/
def run? {α : Type} (d : Document) (decode : Yaml → Decode α) : Option α :=
  ((decode d.root).run d).run' 0

/-- The node that a node stands for. No anchor belongs to a reference. -/
def follow (y : Yaml) : Decode Yaml := do
  match y with
  | .reference anchor =>
    modify (· + 1)
    let d ← read
    if (← get) > 100 * d.events then failure
    match d.anchors.lookup anchor with
    | some node => return node
    | none => failure
  | node => return node

/-! ## Scalars -/

/-- Any scalar, as a text. -/
def text (y : Yaml) : Decode String := do
  match ← follow y with
  | .scalar _ _ value => return value
  | _ => failure

/-- The word of a scalar that may be more than a text: a plain one, or a literal
one with the tag of the kind that is expected. -/
def word? (kind : String) : Yaml → Option String
  | .scalar _ .plain w => some w
  | .scalar (some tag) .literal w => if tag == coreTag kind then some w else none
  | _ => none

/-- A scalar that is a truth value. -/
def bool (y : Yaml) : Decode Bool := do
  match (word? "bool" (← follow y)).bind boolOfWord? with
  | some value => return value
  | none => failure

/-- A scalar that is a number of at most `bits` bits. -/
def nat (bits : Nat) (y : Yaml) : Decode Nat := do
  match (word? "int" (← follow y)).bind natOfWord? with
  | some value => if value < Nat.pow 2 bits then return value else failure
  | none => failure

/-- Is the node nothing, or a word for it? With a tag it is something, and there
is no answer if the tag says that it is nothing and the word does not. -/
def isNothing? : Yaml → Option Bool
  | .scalar none .plain w => some (w.isEmpty || isNullWord w)
  | .scalar (some tag) .plain w =>
    if tag == coreTag "null" then if isNullWord w then some true else none else some false
  | _ => some false

/-- A value that may be missing. -/
def option {α : Type} (decode : Yaml → Decode α) (y : Yaml) : Decode (Option α) := do
  let y ← follow y
  match isNothing? y with
  | some true => return none
  | some false => return some (← decode y)
  | none => failure

/-! ## Collections -/

/-- The items of a sequence, which may be left out. -/
def items (y : Yaml) : Decode (List Yaml) := do
  match ← follow y with
  | .seq items => return items
  | .scalar _ .plain "" => return []
  | _ => failure

/-- The texts of a sequence. -/
def texts (y : Yaml) : Decode (List String) := do (← items y).mapM text

/-- The fields of a mapping, which may be left out; all keys are scalars. -/
def fields (y : Yaml) : Decode (List (String × Yaml)) := do
  match ← follow y with
  | .map fields => fields.mapM fun (key, value) => do return (← text key, value)
  | .scalar _ .plain "" => return []
  | _ => failure

/-- The fields of a mapping in which none of the known ones stands twice. If it
is closed, there are no others. -/
def record (known : List String) (closed : Bool) (y : Yaml) : Decode (List (String × Yaml)) := do
  let found ← fields y
  let names := found.map (·.1)
  if known.any (names.count · > 1) || (closed && !names.all known.contains) then failure
  return found

/-- The value of a field, or another one if the field is not there. -/
def fieldOr {α : Type} (fields : List (String × Yaml)) (name : String) (other : α)
    (decode : Yaml → Decode α) : Decode α :=
  match fields.lookup name with
  | some y => decode y
  | none => return other

end Decode

end JavaMend.Yaml
