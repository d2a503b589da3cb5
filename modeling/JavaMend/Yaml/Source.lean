import JavaMend.Yaml.Basic

/-!
# The text of a YAML document as it is read

Which characters a document may have, which of them end a line or a word, and
what is left of a text after some of it was read, with the place where that
starts. Columns and lines tell how collections nest; the number of octets is
kept because a key has to be short.
-/

namespace JavaMend.Yaml

/-! ## Characters -/

/-- Characters that end a line. -/
def isBreak (c : Char) : Bool := [10, 13, 0x85, 0x2028, 0x2029].contains c.toNat

/-- A space or a tab. -/
def isBlank (c : Char) : Bool := c == ' ' || c == '\t'

/-- Characters that may stand between two words. -/
def isGapChar (c : Char) : Bool := isBlank c || isBreak c

/-- The end of the text or of a line. -/
def endsLine (c : Option Char) : Bool := c.all isBreak

/-- The end of the text or of a line, or a blank. -/
def endsWord (c : Option Char) : Bool := c.all isGapChar

/-- The indicators of flow collections. -/
def isFlowIndicator (c : Char) : Bool := ",[]\x7b\x7d".toList.contains c

/-- The characters of names: anchors, handles and directives have them. -/
def isNameChar (c : Char) : Bool := c.isAlphanum || c == '_' || c == '-'

/-- The characters that a document may have. -/
def isAllowed (c : Char) : Bool :=
  let n := c.toNat
  n == 9 || n == 10 || n == 13 || (32 ≤ n && n ≤ 126) || n == 0x85 || (0xa0 ≤ n && n ≤ 0xd7ff) ||
    (0xe000 ≤ n && n ≤ 0xfffd) || 0x10000 ≤ n

/-- The text with line feeds for all line ends but the two separators, which
stay what they are. -/
def withLineFeeds : List Char → List Char
  | [] => []
  | '\r' :: '\n' :: rest => '\n' :: withLineFeeds rest
  | '\r' :: rest => '\n' :: withLineFeeds rest
  | '\u0085' :: rest => '\n' :: withLineFeeds rest
  | c :: rest => c :: withLineFeeds rest

/-- Does the mark of a document's beginning or end stand here? -/
def startsMark (mark : List Char) (cs : List Char) : Bool :=
  mark.isPrefixOf cs && endsWord (cs.drop mark.length).head?

/-- The mark of a document's beginning. -/
def startMark : List Char := ['-', '-', '-']

/-- The mark of a document's end. -/
def endMark : List Char := ['.', '.', '.']

/-- Does either mark stand here? -/
def startsAnyMark (cs : List Char) : Bool := startsMark startMark cs || startsMark endMark cs

/-! ## Places -/

/-- What is left of a text and where that starts. -/
structure Source where
  rest : List Char
  /-- The number of octets before it. -/
  offset : Nat
  line : Nat
  column : Nat

namespace Source

/-- The beginning of a text. -/
def ofList (rest : List Char) : Source := { rest, offset := 0, line := 0, column := 0 }

/-- Passes over so many characters. -/
def skip (s : Source) : Nat → Source
  | 0 => s
  | n + 1 =>
    match s.rest with
    | [] => s
    | c :: rest =>
      let offset := s.offset + c.utf8Size
      if isBreak c then { rest, offset, line := s.line + 1, column := 0 : Source }.skip n
      else { rest, offset, line := s.line, column := s.column + 1 : Source }.skip n

/-- Goes on at a later part of the text. -/
def goTo (s : Source) (rest : List Char) : Source := s.skip (s.rest.length - rest.length)

end Source

end JavaMend.Yaml
