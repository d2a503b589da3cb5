import JavaMend.Traversal.Path

/-!
# Cursors

A cursor is a position in a tree that remembers: one frame for each node from
the root to the current one, and on each frame the notes that visitors left
there. A visitor leaves a note on an enclosing frame to hand something to
whoever visits that node (fixes for a block, imports for the unit). Leaving a
frame drops its notes.

Notes are kept under text keys and have one type `μ`. A `Topic μ α` is a key
together with the notes that can stand under it: readers and writers name a
topic, and a note under the topic's key that is of another sort is not theirs
to read or to take away.
-/

namespace JavaMend

/-- A key and the values of type `α` that are noted under it. -/
structure Topic (μ α : Type) where
  key : String
  note : α → μ
  read? : μ → Option α

/-- A node on the way to the cursor's position, and the notes left there. -/
structure Frame (μ : Type) where
  node : Node
  notes : List (String × μ)

namespace Frame

variable {μ α : Type}

/-- A frame without notes. -/
def ofNode (n : Node) : Frame μ := ⟨n, []⟩

/-- The note under a key, of whatever sort. -/
def note? (f : Frame μ) (key : String) : Option μ := f.notes.lookup key

/-- Leaves a note, in place of the one that stood under its key. -/
def insert (f : Frame μ) (key : String) (note : μ) : Frame μ :=
  { f with notes := (key, note) :: f.notes.filter (·.1 != key) }

/-- Removes the note under a key. -/
def erase (f : Frame μ) (key : String) : Frame μ :=
  { f with notes := f.notes.filter (·.1 != key) }

/-- The value noted on a topic. -/
def read? (f : Frame μ) (topic : Topic μ α) : Option α := (f.note? topic.key).bind topic.read?

/-- Notes a value on a topic. -/
def put (f : Frame μ) (topic : Topic μ α) (value : α) : Frame μ :=
  f.insert topic.key (topic.note value)

/-- Takes the value noted on a topic away. A note of another sort stays. -/
def take (f : Frame μ) (topic : Topic μ α) : Option α × Frame μ :=
  match f.read? topic with
  | some value => (some value, f.erase topic.key)
  | none => (none, f)

/-- Changes the value noted on a topic, starting from `init` if nothing stands
under its key. A note of another sort stays, and there is no answer then. -/
def modify (f : Frame μ) (topic : Topic μ α) (init : α) (change : α → α) : Option α × Frame μ :=
  match f.note? topic.key with
  | none => (some (change init), f.put topic (change init))
  | some note =>
    match topic.read? note with
    | some value => (some (change value), f.put topic (change value))
    | none => (none, f)

end Frame

/-- A position in a tree: the frames from the current node outward. -/
structure Cursor (μ : Type) where
  frames : List (Frame μ)

namespace Cursor

variable {μ α : Type}

/-- A cursor on the root. -/
def ofRoot (root : Node) : Cursor μ := ⟨[.ofNode root]⟩

/-- A cursor at the end of a path, with no notes on any frame. -/
def ofPath (p : Path) : Cursor μ := ⟨p.outward.map .ofNode⟩

/-! ## Position -/

def depth (c : Cursor μ) : Nat := c.frames.length

/-- Moves to a child of the current node. -/
def push (c : Cursor μ) (n : Node) : Cursor μ := ⟨.ofNode n :: c.frames⟩

/-- Leaves the current node and drops its notes. -/
def pop (c : Cursor μ) : Cursor μ := ⟨c.frames.tail⟩

/-- The path to the current node. -/
def path (c : Cursor μ) : Path := ⟨c.frames.map (·.node)⟩

/-- The current node. -/
def value? (c : Cursor μ) : Option Node := c.path.value?

/-- The parent of the current node. -/
def parent? (c : Cursor μ) : Option Node := c.path.parent?

/-- Replaces the current node and keeps its notes. -/
def replaceValue (c : Cursor μ) (n : Node) : Cursor μ :=
  match c.frames with
  | [] => c
  | f :: rest => ⟨{ f with node := n } :: rest⟩

/-! ## Notes -/

/-- The frame at a position, counted from the root. -/
def frame? (c : Cursor μ) (index : Nat) : Option (Frame μ) :=
  if index < c.depth then c.frames[c.depth - 1 - index]? else none

/-- The cursor with the frame at a position changed, and what the change
answers. -/
def atFrame (c : Cursor μ) (index : Nat) (change : Frame μ → Option α × Frame μ) :
    Option α × Cursor μ :=
  match c.frame? index with
  | none => (none, c)
  | some f =>
    let (answer, f) := change f
    (answer, ⟨c.frames.set (c.depth - 1 - index) f⟩)

/-- Notes a value on the frame at a position. -/
def putAt (c : Cursor μ) (index : Nat) (topic : Topic μ α) (value : α) : Cursor μ :=
  (c.atFrame index fun f => (some value, f.put topic value)).2

/-- The value noted on the frame at a position. -/
def getAt? (c : Cursor μ) (index : Nat) (topic : Topic μ α) : Option α :=
  (c.frame? index).bind (·.read? topic)

/-- Takes the value noted on the frame at a position away. -/
def takeAt (c : Cursor μ) (index : Nat) (topic : Topic μ α) : Option α × Cursor μ :=
  c.atFrame index (·.take topic)

/-- Changes the value noted on the frame at a position, starting from `init`
where there is none. -/
def modifyAt (c : Cursor μ) (index : Nat) (topic : Topic μ α) (init : α) (change : α → α) :
    Option α × Cursor μ :=
  c.atFrame index (·.modify topic init change)

/-- Notes a value on the current frame. -/
def put (c : Cursor μ) (topic : Topic μ α) (value : α) : Cursor μ :=
  c.putAt (c.depth - 1) topic value

/-- The value noted on the current frame. -/
def get? (c : Cursor μ) (topic : Topic μ α) : Option α :=
  c.getAt? (c.depth - 1) topic

/-- Takes the value noted on the current frame away. -/
def take (c : Cursor μ) (topic : Topic μ α) : Option α × Cursor μ :=
  c.takeAt (c.depth - 1) topic

/-- Changes the value noted on the current frame, starting from `init` where
there is none. -/
def modify (c : Cursor μ) (topic : Topic μ α) (init : α) (change : α → α) :
    Option α × Cursor μ :=
  c.modifyAt (c.depth - 1) topic init change

/-- Notes a value on the nearest frame of a kind, if there is one. -/
def putOnEnclosing (c : Cursor μ) (kind : NodeKind) (topic : Topic μ α) (value : α) :
    Bool × Cursor μ :=
  match c.path.enclosing? kind with
  | some (index, _) => (true, c.putAt index topic value)
  | none => (false, c)

/-- The nearest value noted on a topic, from the current frame outward. -/
def nearest? (c : Cursor μ) (topic : Topic μ α) : Option α :=
  c.frames.findSome? (·.read? topic)

/-- Takes the nearest value noted on a topic away. -/
def takeNearest (c : Cursor μ) (topic : Topic μ α) : Option α × Cursor μ :=
  match c.frames.findIdx? fun f => (f.read? topic).isSome with
  | some i => c.takeAt (c.depth - 1 - i) topic
  | none => (none, c)

end Cursor

end JavaMend
