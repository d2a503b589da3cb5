import JavaMend.Yaml.Text
import JavaMend.Yaml.Token

/-!
# Tags, anchors and directives

The lexical part of reading what stands before a node or a document. A tag is a
sequence of octets, some of which may be written as escapes; an octet is kept as
the character of its number here. No tag goes on after an octet of zero.
-/

namespace JavaMend.Yaml

/-! ## Anchors -/

/-- The name of an anchor, after its sign. -/
def anchorName? (cs : List Char) : Option (String × List Char) :=
  let name := cs.takeWhile isNameChar
  let rest := cs.dropWhile isNameChar
  if !name.isEmpty && rest.head?.all fun c => isGapChar c || "?:,]\x7d%@\x60".toList.contains c then
    some (String.ofList name, rest)
  else none

/-! ## Tags -/

/-- Characters of tags. Indicators of flow sequences are among them only where a
tag is written in full. -/
def isTagChar (isFull : Bool) (c : Char) : Bool :=
  isNameChar c || ";/?:@&=+$.!~*'()".toList.contains c || (isFull && ",[]".toList.contains c)

/-- How many octets a character has that starts with this one. -/
def octetWidth? (octet : Nat) : Option Nat :=
  if octet < 0x80 then some 1
  else if octet / 0x20 = 6 then some 2
  else if octet / 0x10 = 0xe then some 3
  else if octet / 8 = 0x1e then some 4
  else none

/-- How many octets are to come after this one, if `left` of a character were
to come before it. -/
def octetsLeft? (left octet : Nat) : Option Nat :=
  if left = 0 then (octetWidth? octet).map (· - 1)
  else if octet / 0x40 = 2 then some (left - 1)
  else none

/-- Puts a character in front of what was read. -/
def consFound (c : Char) (found : List Char × List Char) : List Char × List Char :=
  (c :: found.1, found.2)

/-- The characters of a tag from here on and what follows them. Of an escaped
character `left` octets are to come. -/
def tagChars? (isFull : Bool) (left : Nat) : List Char → Option (List Char × List Char)
  | '%' :: a :: b :: rest =>
    match digit? 16 a, digit? 16 b with
    | some a, some b =>
      match octetsLeft? left (a * 16 + b) with
      | some left =>
        (tagChars? isFull left rest).map (consFound (Char.ofNat (a * 16 + b)))
      | none => none
    | _, _ => none
  | cs =>
    if left ≠ 0 || cs.head? == some '%' then none
    else
      match cs with
      | c :: rest =>
        if isTagChar isFull c then (tagChars? isFull left rest).map (consFound c)
        else some ([], c :: rest)
      | [] => some ([], [])

/-- A tag as it is kept. -/
def tagText (octets : List Char) : String := String.ofList (octets.takeWhile (· != '\x00'))

/-- The characters of a tag, of which there must be one at least. -/
def tagRest? (isFull : Bool) (cs : List Char) : Option (String × List Char) := do
  let (octets, rest) ← tagChars? isFull 0 cs
  if octets.isEmpty then none else return (tagText octets, rest)

/-- What looks like a handle: an exclamation mark and a name, and another mark
if there is one. -/
def tagHandle? : List Char → Option (List Char × List Char)
  | '!' :: rest =>
    let name := rest.takeWhile isNameChar
    match rest.dropWhile isNameChar with
    | '!' :: after => some ('!' :: name ++ ['!'], after)
    | after => some ('!' :: name, after)
  | _ => none

/-- Is it a handle of two marks, perhaps with a name between them? -/
def isNamedHandle (handle : List Char) : Bool :=
  handle.length > 1 && handle.getLast? == some '!'

/-- A tag: its handle, the rest of it, and what follows. A tag in angle brackets
has no handle, nor has the mark alone. -/
def tag? (inFlow : Bool) (cs : List Char) : Option (Token × List Char) := do
  let (token, rest) ← match cs with
    | '!' :: '<' :: inner => do
      let (suffix, rest) ← tagRest? true inner
      match rest with
      | '>' :: rest => some (Token.tag "" suffix, rest)
      | _ => none
    | _ => do
      let (handle, rest) ← tagHandle? cs
      if isNamedHandle handle then
        let (suffix, rest) ← tagRest? false rest
        some (Token.tag (String.ofList handle) suffix, rest)
      else
        let (octets, rest) ← tagChars? false 0 rest
        let suffix := tagText (handle.drop 1 ++ octets)
        some (if suffix.isEmpty then .tag "" "!" else .tag "!" suffix, rest)
  if endsWord rest.head? || (inFlow && rest.head? == some ',') then return (token, rest) else none

/-! ## Directives -/

/-- A part of a version: one digit to nine. -/
def versionNumber? (cs : List Char) : Option (Nat × List Char) :=
  let found := cs.takeWhile Char.isDigit
  if found.length ≤ 9 then (digits? 10 found).map fun n => (n, cs.dropWhile Char.isDigit) else none

/-- The value of a version directive. -/
def versionDirective? (cs : List Char) : Option (Token × List Char) := do
  let (major, rest) ← versionNumber? (cs.dropWhile isBlank)
  match rest with
  | '.' :: rest =>
    let (minor, rest) ← versionNumber? rest
    return (.versionDirective major minor, rest)
  | _ => none

/-- The value of a tag directive: a handle and what it stands for. -/
def tagDirective? (cs : List Char) : Option (Token × List Char) := do
  let (handle, rest) ← tagHandle? (cs.dropWhile isBlank)
  guard (handle == ['!'] || isNamedHandle handle)
  guard (rest.head?.any isBlank)
  let (start, rest) ← tagRest? true (rest.dropWhile isBlank)
  guard (endsWord rest.head?)
  return (.tagDirective (String.ofList handle) start, rest)

/-- A directive after its sign, with the rest of its line. -/
def directive? (cs : List Char) : Option (Token × List Char) := do
  let rest := cs.dropWhile isNameChar
  guard (endsWord rest.head?)
  let (token, rest) ← match String.ofList (cs.takeWhile isNameChar) with
    | "YAML" => versionDirective? rest
    | "TAG" => tagDirective? rest
    | _ => none
  return (token, ← restOfLine? rest)

end JavaMend.Yaml
