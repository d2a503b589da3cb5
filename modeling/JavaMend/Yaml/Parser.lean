import JavaMend.Yaml.Document
import JavaMend.Yaml.Token.Lexer

/-!
# From tokens to documents

A reader for one document: block and flow collections, scalars, anchors and
references, tags and directives. The anchors are numbered as they are met; the
number is how many names there are before, so that a name that is given again
can share its number with the next new one, and of nodes with one number the
last to begin is the one that counts.
-/

namespace JavaMend.Yaml

/-- The state of reading. -/
structure Parsing where
  tokens : List Token
  /-- What the handles of tags stand for. -/
  handles : List (String × String) := []
  /-- The numbers of the names that were given. -/
  names : List (String × Nat) := []
  /-- The event that the node of a number begins with, the latest first. -/
  places : List (Nat × Nat) := []
  /-- The nodes with names, by the events they begin with. -/
  nodes : List (Nat × Yaml) := []
  /-- The number of events so far. -/
  events : Nat := 0

/-- A reading step; it has no answer if the tokens are no document. -/
abbrev Parse := StateT Parsing Option

namespace Parse

/-- The next token. -/
def peek : Parse (Option Token) := return (← get).tokens.head?

/-- Passes over one token. -/
def step : Parse Unit := modify fun s => { s with tokens := s.tokens.tail }

/-- One more event. -/
def event : Parse Unit := modify fun s => { s with events := s.events + 1 }

/-- Nothing, where a node might be. -/
def nothing : Parse Yaml := do
  event
  return absent

/-! ## Anchors and tags -/

/-- A number for a name, whose node begins here. -/
def giveName (name : String) : Parse Unit :=
  modify fun s =>
    let number := s.names.length
    { s with
      names := (name, number) :: s.names.filter (·.1 != name)
      places := (number, s.events) :: s.places }

/-- The number that a name has. -/
def numberOf (name : String) : Parse Nat := do
  match (← get).names.lookup name with
  | some number => return number
  | none => failure

/-- A tag with what its handle stands for. -/
def resolveTag (handle suffix : String) : Parse String := do
  if handle.isEmpty then return suffix
  match (← get).handles.lookup handle with
  | some start => return start ++ suffix
  | none => failure

/-- What may stand before a node. -/
structure Properties where
  anchor : Option String := none
  tag : Option String := none

/-- An anchor, if there is one and there was none before. -/
def anchorOf (p : Properties) : Parse Properties := do
  match ← peek, p.anchor with
  | some (.anchor name), none =>
    step
    return { p with anchor := some name }
  | _, _ => return p

/-- A tag, if there is one. -/
def tagOf (p : Properties) : Parse Properties := do
  match ← peek with
  | some (.tag handle suffix) =>
    step
    return { p with tag := some (← resolveTag handle suffix) }
  | _ => return p

/-- An anchor and a tag, in either order. -/
def properties : Parse Properties := do anchorOf (← tagOf (← anchorOf {}))

/-! ## Nodes -/

/-- A node of which there is only an anchor or a tag. -/
def bare (found : Properties) : Parse Yaml :=
  if found.anchor.isSome || found.tag.isSome then return .scalar found.tag .plain "" else failure

/-- The tokens before which an item of a block sequence may be missing. -/
def endsItem : Option Token → Bool
  | some .blockEntry => true
  | some .blockEnd => true
  | _ => false

/-- The tokens before which a part of a block mapping may be missing. -/
def endsField : Option Token → Bool
  | some .key => true
  | some .value => true
  | some .blockEnd => true
  | _ => false

/-- The tokens before which a value may be missing in a flow sequence. -/
def endsFlowItem : Option Token → Bool
  | some .flowEntry => true
  | some .flowSeqEnd => true
  | _ => false

/-- The tokens before which a value may be missing in a flow mapping. -/
def endsFlowField : Option Token → Bool
  | some .flowEntry => true
  | some .flowMapEnd => true
  | _ => false

def isValue : Option Token → Bool
  | some .value => true
  | _ => false

/-- Passes over the comma before what is not the first part of a flow
collection. -/
def flowComma (first : Bool) : Parse Unit := do
  if !first then
    match ← peek with
    | some .flowEntry => step
    | _ => failure

mutual

/-- A node. `block` says whether it may be a block collection, `sameColumn`
whether it may be a sequence in the column of the mapping around it. -/
def node (fuel : Nat) (block sameColumn : Bool) : Parse Yaml := do
  match fuel with
  | 0 => failure
  | fuel + 1 =>
    match ← peek with
    | some (.reference name) =>
      step
      event
      return .reference (← numberOf name)
    | _ =>
      let found ← properties
      if let some name := found.anchor then giveName name
      let place := (← get).events
      event
      let y ← content fuel block sameColumn found
      if found.anchor.isSome then modify fun s => { s with nodes := (place, y) :: s.nodes }
      return y

/-- A node after its anchor and tag. -/
def content (fuel : Nat) (block sameColumn : Bool) (found : Properties) : Parse Yaml := do
  match fuel with
  | 0 => failure
  | fuel + 1 =>
    match ← peek, block with
    | some (.scalar style text), _ =>
      step
      return .scalar found.tag style text
    | some .flowSeqStart, _ =>
      step
      return .seq (← flowItems fuel true)
    | some .flowMapStart, _ =>
      step
      return .map (← flowFields fuel true)
    | some .blockSeqStart, true =>
      step
      return .seq (← blockItems fuel)
    | some .blockMapStart, true =>
      step
      return .map (← blockFields fuel)
    | some .blockEntry, _ =>
      if sameColumn then return .seq (← columnItems fuel) else bare found
    | _, _ => bare found

/-- The items of a block sequence up to its end. -/
def blockItems (fuel : Nat) : Parse (List Yaml) := do
  match fuel with
  | 0 => failure
  | fuel + 1 =>
    match ← peek with
    | some .blockEntry =>
      step
      let item ← if endsItem (← peek) then nothing else node fuel true false
      return item :: (← blockItems fuel)
    | some .blockEnd =>
      step
      event
      return []
    | _ => failure

/-- The items of a sequence in the column of the mapping around it. -/
def columnItems (fuel : Nat) : Parse (List Yaml) := do
  match fuel with
  | 0 => failure
  | fuel + 1 =>
    match ← peek with
    | some .blockEntry =>
      step
      let next ← peek
      let item ← if endsItem next || endsField next then nothing else node fuel true false
      return item :: (← columnItems fuel)
    | _ =>
      event
      return []

/-- The fields of a block mapping up to its end. -/
def blockFields (fuel : Nat) : Parse (List (Yaml × Yaml)) := do
  match fuel with
  | 0 => failure
  | fuel + 1 =>
    match ← peek with
    | some .key =>
      step
      let key ← if endsField (← peek) then nothing else node fuel true true
      let value ← blockValue fuel
      return (key, value) :: (← blockFields fuel)
    | some .blockEnd =>
      step
      event
      return []
    | _ => failure

/-- The value of a field of a block mapping. -/
def blockValue (fuel : Nat) : Parse Yaml := do
  match fuel with
  | 0 => failure
  | fuel + 1 =>
    match ← peek with
    | some .value =>
      step
      if endsField (← peek) then nothing else node fuel true true
    | _ => nothing

/-- The items of a flow sequence up to its bracket. -/
def flowItems (fuel : Nat) (first : Bool) : Parse (List Yaml) := do
  match fuel with
  | 0 => failure
  | fuel + 1 =>
    match ← peek with
    | some .flowSeqEnd =>
      step
      event
      return []
    | _ =>
      flowComma first
      match ← peek with
      | some .flowSeqEnd =>
        step
        event
        return []
      | some .key =>
        step
        let pair ← flowPair fuel
        return pair :: (← flowItems fuel false)
      | _ =>
        let item ← node fuel false false
        return item :: (← flowItems fuel false)

/-- A mapping of one field in a flow sequence. Where its key is missing, the
token that shows this is passed over. -/
def flowPair (fuel : Nat) : Parse Yaml := do
  match fuel with
  | 0 => failure
  | fuel + 1 =>
    event
    let next ← peek
    let key ←
      if isValue next || endsFlowItem next then do
        step
        nothing
      else node fuel false false
    let value ← flowValue fuel endsFlowItem
    event
    return .map [(key, value)]

/-- The value of a field in a flow collection, which may be missing before what
`ends` says. -/
def flowValue (fuel : Nat) (ends : Option Token → Bool) : Parse Yaml := do
  match fuel with
  | 0 => failure
  | fuel + 1 =>
    match ← peek with
    | some .value =>
      step
      if ends (← peek) then nothing else node fuel false false
    | _ => nothing

/-- The fields of a flow mapping up to its brace. -/
def flowFields (fuel : Nat) (first : Bool) : Parse (List (Yaml × Yaml)) := do
  match fuel with
  | 0 => failure
  | fuel + 1 =>
    match ← peek with
    | some .flowMapEnd =>
      step
      event
      return []
    | _ =>
      flowComma first
      match ← peek with
      | some .flowMapEnd =>
        step
        event
        return []
      | some .key =>
        step
        let next ← peek
        let key ← if isValue next || endsFlowField next then nothing else node fuel false false
        let value ← flowValue fuel endsFlowField
        return (key, value) :: (← flowFields fuel false)
      | _ =>
        let key ← node fuel false false
        let value ← nothing
        return (key, value) :: (← flowFields fuel false)

end

/-! ## Documents -/

/-- The handles that stand for something in every document. -/
def standardHandles : List (String × String) := [("!", "!"), ("!!", coreTagStart)]

/-- Passes over directives: at most one for the version, which has to be known,
and at most one for each handle. -/
def directives (versionSeen : Bool) : Nat → Parse Unit
  | 0 => failure
  | fuel + 1 => do
    match ← peek with
    | some (.versionDirective major minor) =>
      if versionSeen || major != 1 || (minor != 1 && minor != 2) then failure
      step
      directives true fuel
    | some (.tagDirective handle start) =>
      if ((← get).handles.lookup handle).isSome then failure
      step
      modify fun s => { s with handles := (handle, start) :: s.handles }
      directives versionSeen fuel
    | _ => modify fun s => { s with handles := s.handles ++ standardHandles }

/-- Does a token belong to what is before a document's first node? -/
def startsDocument : Option Token → Bool
  | some (.versionDirective _ _) => true
  | some (.tagDirective _ _) => true
  | some .documentStart => true
  | _ => false

/-- The tokens that show that a marked document has no node. -/
def endsDocument : Option Token → Bool
  | none => true
  | some .documentEnd => true
  | next => startsDocument next

/-- The outermost node. A document with directives has to be marked, and only a
marked one may be without a node, unless the text is empty. -/
def root (fuel : Nat) : Parse Yaml := do
  let marked := startsDocument (← peek)
  directives false fuel
  if marked then
    match ← peek with
    | some .documentStart => step
    | _ => failure
    if endsDocument (← peek) then nothing else node fuel true false
  else if (← peek).isNone then nothing
  else node fuel true false

/-- Is there no more than the mark of the end, any number of times? -/
def isOver : List Token → Bool
  | [] => true
  | .documentEnd :: rest => isOver rest
  | _ => false

end Parse

/-- The one document of some tokens. A step that does not pass over a token is
followed by one that does, within a few, so a multiple of their number is fuel
enough. -/
def Document.ofTokens? (tokens : List Token) : Option Document := do
  let (root, s) ← (Parse.root (4 * tokens.length + 8)).run { tokens }
  if Parse.isOver s.tokens then
    let anchors := s.places.filterMap fun (number, place) =>
      (s.nodes.lookup place).map fun node => (number, node)
    return { root, anchors, events := s.events }
  else none

/-- The one document of a text. -/
def Document.parse? (text : String) : Option Document := (tokens? text).bind ofTokens?

end JavaMend.Yaml
