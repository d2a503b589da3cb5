import JavaMend.Yaml.Tag

/-!
# From texts to tokens

A reader that goes through a text once. A block collection is told by the
column its entries start in: it begins where something stands further right than
the collections that are open, and ends where something stands further left. A
key has no sign in front of it, so each place where one might begin is kept in
mind until a colon shows that one began there, and the tokens for it are put
there then. A key of this sort has to be on one line and at most 1024 octets
before its colon.
-/

namespace JavaMend.Yaml

/-- A place where a key might begin. -/
structure PossibleKey where
  /-- Must it be one? It must where the next key of a block mapping belongs. -/
  required : Bool
  /-- The number of tokens before it. -/
  position : Nat
  offset : Nat
  line : Nat
  column : Nat

structure Lexer where
  source : Source
  tokens : Array Token := #[]
  /-- The columns of the block collections that are open, the innermost first. -/
  indents : List Nat := []
  /-- Where a key of the innermost collection might have begun. -/
  key : Option PossibleKey := none
  /-- The same for the collections around the flow collections that are open. -/
  outerKeys : List (Option PossibleKey) := []
  /-- May a key begin here? -/
  keyAllowed : Bool := true

namespace Lexer

/-- Is a flow collection open? -/
def inFlow (l : Lexer) : Bool := !l.outerKeys.isEmpty

def push (l : Lexer) (t : Token) : Lexer := { l with tokens := l.tokens.push t }

/-- Puts a token at an earlier place. -/
def insertAt (l : Lexer) (position : Nat) (t : Token) : Lexer :=
  { l with tokens := l.tokens.insertIdxIfInBounds position t }

/-- Adds a token and passes over the characters of it. -/
def take (l : Lexer) (t : Token) (size : Nat) : Lexer :=
  { l.push t with source := l.source.skip size }

/-- Adds a token that was read by a lexical function. -/
def takeTo (l : Lexer) (t : Token) (rest : List Char) : Lexer :=
  { l.push t with source := l.source.goTo rest }

/-! ## Indentation -/

/-- Closes the block collections that `closes` says, from the innermost on. -/
def closeBlocks (l : Lexer) (closes : Nat → Bool) : Lexer :=
  if l.inFlow then l
  else
    let closed := l.indents.takeWhile closes
    { l with
      indents := l.indents.dropWhile closes
      tokens := l.tokens ++ (closed.map fun _ => Token.blockEnd) }

/-- Opens a block collection in a column, unless the innermost is in that column
already. Its token goes to the given position. -/
def openBlock (l : Lexer) (column position : Nat) (t : Token) : Lexer :=
  if !l.inFlow && l.indents.head?.all (· < column) then
    { l.insertAt position t with indents := column :: l.indents }
  else l

/-! ## Keys -/

/-- Gives up the place where a key might begin. -/
def dropKey (l : Lexer) : Option Lexer :=
  if l.key.any (·.required) then none else some { l with key := none }

/-- Keeps this place in mind, if a key may begin here. -/
def saveKey (l : Lexer) : Option Lexer :=
  if l.keyAllowed then do
    let l ← l.dropKey
    return { l with
      key := some {
        required := !l.inFlow && l.indents.head? == some l.source.column
        position := l.tokens.size
        offset := l.source.offset
        line := l.source.line
        column := l.source.column } }
  else some l

/-- Is a place too far back for a key that ends here? -/
def isStale (l : Lexer) (k : PossibleKey) : Bool :=
  k.line < l.source.line || k.offset + 1024 < l.source.offset

/-- Forgets the places that are too far back. -/
def dropStaleKeys (l : Lexer) : Option Lexer :=
  if (l.key :: l.outerKeys).any (·.any fun k => k.required && l.isStale k) then none
  else
    let fresh : Option PossibleKey → Option PossibleKey := Option.filter (!l.isStale ·)
    some { l with key := fresh l.key, outerKeys := l.outerKeys.map fresh }

/-! ## Between tokens -/

/-- The number of characters of the blanks, comments and line ends here, added to
`size`, and whether a key may begin after them. Tabs count as blanks in a flow
collection and where no key may begin; a byte order mark may start a line. -/
def gapHere (inFlow keyAllowed inComment : Bool) (column size : Nat) : List Char → Nat × Bool
  | [] => (size, keyAllowed)
  | c :: rest =>
    if isBreak c then gapHere inFlow (keyAllowed || !inFlow) false 0 (size + 1) rest
    else if inComment || c == ' ' || (c == '\t' && (inFlow || !keyAllowed)) ||
        (c == '\ufeff' && column == 0) then
      gapHere inFlow keyAllowed inComment (column + 1) (size + 1) rest
    else if c == '#' then gapHere inFlow keyAllowed true (column + 1) (size + 1) rest
    else (size, keyAllowed)

/-- Goes on after blanks, comments and line ends. -/
def skipGap (l : Lexer) : Lexer :=
  let (size, keyAllowed) := gapHere l.inFlow l.keyAllowed false l.source.column 0 l.source.rest
  { l with source := l.source.skip size, keyAllowed }

/-! ## Tokens -/

/-- Ends all block collections. No key may go on. -/
def closeAll (l : Lexer) : Option Lexer := do
  return { ← (l.closeBlocks fun _ => true).dropKey with keyAllowed := false }

/-- The beginning of a flow collection, which may itself be a key. -/
def flowStart (l : Lexer) (t : Token) : Option Lexer := do
  let l ← l.saveKey
  return { l.take t 1 with key := none, outerKeys := l.key :: l.outerKeys, keyAllowed := true }

/-- The end of a flow collection. -/
def flowEnd (l : Lexer) (t : Token) : Option Lexer := do
  let l ← l.dropKey
  let l := match l.outerKeys with
    | key :: outerKeys => { l with key, outerKeys }
    | [] => l
  return { l.take t 1 with keyAllowed := false }

/-- A sign after which another key may begin. -/
def separator (l : Lexer) (t : Token) : Option Lexer := do
  return { (← l.dropKey).take t 1 with keyAllowed := true }

/-- The sign of an item. -/
def blockEntry (l : Lexer) : Option Lexer :=
  if l.inFlow then l.separator .blockEntry
  else if l.keyAllowed then
    (l.openBlock l.source.column l.tokens.size .blockSeqStart).separator .blockEntry
  else none

/-- The sign of a key. -/
def explicitKey (l : Lexer) : Option Lexer := do
  if !l.inFlow && !l.keyAllowed then none
  let l ← (l.openBlock l.source.column l.tokens.size .blockMapStart).dropKey
  return { l.take .key 1 with keyAllowed := !l.inFlow }

/-- The sign of a value. It shows whether a key began at the place kept in mind. -/
def value (l : Lexer) : Option Lexer :=
  match l.key with
  | some k =>
    let l := (l.insertAt k.position .key).openBlock k.column k.position .blockMapStart
    some { l.take .value 1 with key := none, keyAllowed := false }
  | none =>
    if !l.inFlow && !l.keyAllowed then none
    else
      let l := l.openBlock l.source.column l.tokens.size .blockMapStart
      some { l.take .value 1 with keyAllowed := !l.inFlow }

/-- A token that may begin a key. -/
def keyPart (l : Lexer) (found : Option (Token × List Char)) : Option Lexer := do
  let l ← l.saveKey
  let (t, rest) ← found
  return { l.takeTo t rest with keyAllowed := false }

/-- A scalar in quotes, after the quote that begins it. -/
def quotedScalar (l : Lexer) (style : ScalarStyle) (found : Option Lexeme) : Option Lexer := do
  let l ← l.saveKey
  let found ← found
  let t := Token.scalar style (String.ofList found.text)
  return { l.take t (found.size + 1) with keyAllowed := false }

/-- A block scalar after its sign. -/
def blockScalar (l : Lexer) (style : ScalarStyle) (cs : List Char) : Option Lexer := do
  let l ← l.dropKey
  let (text, rest) ← blockScalar? style l.indents.head? cs
  return { l.takeTo (.scalar style (String.ofList text)) rest with keyAllowed := true }

/-- A plain scalar. -/
def plainScalar (l : Lexer) : Option Lexer := do
  let s := l.source
  if !startsPlain l.inFlow s.rest then none
  let l ← l.saveKey
  let found ← plain? l.inFlow ((l.indents.head?.map (· + 1)).getD 0) [] s.column s.rest
  let t := Token.scalar .plain (String.ofList found.text)
  return { l.take t found.size with keyAllowed := found.endedLine }

/-- The token here, which is the first of `c :: cs`. -/
def next (l : Lexer) (c : Char) (cs : List Char) : Option Lexer :=
  let atLineStart := l.source.column == 0
  let alone := endsWord cs.head?
  if atLineStart && c == '%' then do
    let l ← l.closeAll
    let (t, rest) ← directive? cs
    return l.takeTo t rest
  else if atLineStart && startsMark startMark (c :: cs) then
    l.closeAll.map (·.take .documentStart 3)
  else if atLineStart && startsMark endMark (c :: cs) then
    l.closeAll.map (·.take .documentEnd 3)
  else
    match c with
    | '[' => l.flowStart .flowSeqStart
    | '\x7b' => l.flowStart .flowMapStart
    | ']' => l.flowEnd .flowSeqEnd
    | '\x7d' => l.flowEnd .flowMapEnd
    | ',' => l.separator .flowEntry
    | '-' => if alone then l.blockEntry else l.plainScalar
    | '?' => if l.inFlow || alone then l.explicitKey else l.plainScalar
    | ':' => if l.inFlow || alone then l.value else l.plainScalar
    | '*' => l.keyPart ((anchorName? cs).map fun (name, rest) => (.reference name, rest))
    | '&' => l.keyPart ((anchorName? cs).map fun (name, rest) => (.anchor name, rest))
    | '!' => l.keyPart (tag? l.inFlow (c :: cs))
    | '|' => if l.inFlow then none else l.blockScalar .literal cs
    | '>' => if l.inFlow then none else l.blockScalar .folded cs
    | '\'' => l.quotedScalar .single (singleQuoted? [] cs)
    | '"' => l.quotedScalar .double (doubleQuoted? .outside {} cs)
    | _ => l.plainScalar

/-- All tokens from here on. Each step passes over a character, so there is fuel
enough if there is as much as there are characters, and one more. -/
def run (l : Lexer) : Nat → Option (List Token)
  | 0 => none
  | fuel + 1 => do
    let l ← l.skipGap.dropStaleKeys
    let l := l.closeBlocks (· > l.source.column)
    match l.source.rest with
    | [] => return (← l.closeAll).tokens.toList
    | c :: cs => (← l.next c cs).run fuel

end Lexer

/-- The tokens of a text. -/
def tokens? (text : String) : Option (List Token) :=
  let cs := text.toList
  if cs.all isAllowed then
    let source := Source.ofList (withLineFeeds cs)
    ({ source } : Lexer).run (cs.length + 1)
  else none

end JavaMend.Yaml
