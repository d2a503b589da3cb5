import JavaMend.Yaml.Source

/-!
# Texts in YAML documents

The lexical part of reading scalars: those in quotes, plain ones and block
scalars, with the folding of lines that each of them does. Line ends are line
feeds or one of the two separators here.
-/

namespace JavaMend.Yaml

/-! ## Folding -/

/-- What the blanks and line ends between two words stand for: blanks within a
line stand for themselves, a single line feed for a space, and of several line
ends the first does not count if it is a line feed. -/
def foldGap (gap : List Char) : List Char :=
  match gap.filter isBreak with
  | [] => gap
  | ['\n'] => [' ']
  | '\n' :: more => more
  | breaks => breaks

/-- A text that was read. -/
structure Lexeme where
  text : List Char
  /-- The number of characters that it takes. -/
  size : Nat

/-- The lexeme with so many characters before it, which stand for `front`. -/
def Lexeme.after (passed : Nat) (front : List Char) (l : Lexeme) : Lexeme :=
  ⟨front ++ l.text, passed + l.size⟩

/-! ## Quoted scalars -/

/-- The rest of a scalar in single quotes, after the blanks and line ends of
`gap`, with the quote that ends it. A mark must not stand at the beginning of a
line. -/
def singleQuoted? (gap : List Char) : List Char → Option Lexeme
  | [] => none
  | '\'' :: '\'' :: rest => (singleQuoted? [] rest).map (·.after 2 (foldGap gap ++ ['\'']))
  | '\'' :: _ => some ⟨foldGap gap, 1⟩
  | c :: rest =>
    if isGapChar c then (singleQuoted? (gap ++ [c]) rest).map (·.after 1 [])
    else if gap.getLast?.any isBreak && startsAnyMark (c :: rest) then none
    else (singleQuoted? [] rest).map (·.after 1 (foldGap gap ++ [c]))

/-- The character of a one-letter escape. -/
def letterEscape? (c : Char) : Option Char :=
  match c with
  | '0' => some '\x00'
  | 'a' => some '\x07'
  | 'b' => some '\x08'
  | 't' => some '\t'
  | '\t' => some '\t'
  | 'n' => some '\n'
  | 'v' => some '\x0b'
  | 'f' => some '\x0c'
  | 'r' => some '\r'
  | 'e' => some '\x1b'
  | ' ' => some ' '
  | '"' => some '"'
  | '/' => some '/'
  | '\\' => some '\\'
  | 'N' => some '\u0085'
  | '_' => some '\u00a0'
  | 'L' => some '\u2028'
  | 'P' => some '\u2029'
  | _ => none

/-- How many hexadecimal digits follow the letter of an escape. -/
def escapeWidth? (c : Char) : Option Nat :=
  match c with
  | 'x' => some 2
  | 'u' => some 4
  | 'U' => some 8
  | _ => none

/-- The character of a number, if there is one. -/
def charOf? (n : Nat) : Option Char :=
  if h : n.isValidChar then some (Char.ofNatAux n h) else none

/-- Where in an escape a text is. -/
inductive Escape where
  | outside
  /-- After the backslash. -/
  | letter
  /-- Before so many digits, after others of this value. -/
  | digits (left value : Nat)

/-- The blanks and line ends before a word in double quotes. -/
structure QuotedGap where
  /-- Do they follow an escaped line end? -/
  joined : Bool := false
  chars : List Char := []

namespace QuotedGap

/-- What they stand for. After an escaped line end only line ends count. -/
def text (gap : QuotedGap) : List Char :=
  if gap.joined then gap.chars.filter isBreak else foldGap gap.chars

/-- Is the next character the first of its line? -/
def endsLine (gap : QuotedGap) : Bool :=
  match gap.chars.getLast? with
  | some c => isBreak c
  | none => gap.joined

end QuotedGap

/-- The rest of a scalar in double quotes, with the quote that ends it. -/
def doubleQuoted? (escape : Escape) (gap : QuotedGap) : List Char → Option Lexeme
  | [] => none
  | c :: rest =>
    match escape with
    | .outside =>
      if c == '"' then some ⟨gap.text, 1⟩
      else if isGapChar c then
        (doubleQuoted? .outside { gap with chars := gap.chars ++ [c] } rest).map (·.after 1 [])
      else if gap.endsLine && startsAnyMark (c :: rest) then none
      else if c == '\\' then (doubleQuoted? .letter {} rest).map (·.after 1 gap.text)
      else (doubleQuoted? .outside {} rest).map (·.after 1 (gap.text ++ [c]))
    | .letter =>
      if isBreak c then (doubleQuoted? .outside { joined := true } rest).map (·.after 1 [])
      else
        match letterEscape? c, escapeWidth? c with
        | some e, _ => (doubleQuoted? .outside {} rest).map (·.after 1 [e])
        | none, some width => (doubleQuoted? (.digits width 0) {} rest).map (·.after 1 [])
        | none, none => none
    | .digits left value =>
      match digit? 16 c with
      | none => none
      | some d =>
        let value := value * 16 + d
        if left ≤ 1 then
          match charOf? value with
          | some e => (doubleQuoted? .outside {} rest).map (·.after 1 [e])
          | none => none
        else (doubleQuoted? (.digits (left - 1) value) {} rest).map (·.after 1 [])

/-! ## Plain scalars -/

/-- Can a plain scalar start here? -/
def startsPlain (inFlow : Bool) : List Char → Bool
  | [] => false
  | c :: rest =>
    if isGapChar c then false
    else if c == '-' then !rest.head?.any isBlank
    else if c == '?' || c == ':' then !inFlow && !endsWord rest.head?
    else !",[]\x7b\x7d#&*!|>'\"%@\x60".toList.contains c

/-- Does a plain scalar end before the character? -/
def endsPlain (inFlow : Bool) (c : Char) (next : Option Char) : Bool :=
  (c == ':' && endsWord next) || (inFlow && isFlowIndicator c)

/-- In a flow collection a plain scalar must not have a colon right before an
indicator. -/
def isStrayColon (inFlow : Bool) (c : Char) (next : Option Char) : Bool :=
  inFlow && c == ':' && next.any fun d => d == '?' || isFlowIndicator d

/-- A plain scalar that was read, with the blanks and line ends after it. -/
structure PlainLexeme extends Lexeme where
  /-- Is there a line end after its last word? -/
  endedLine : Bool

/-- A plain scalar from a word on, after the blanks and line ends of `gap`. Its
lines start in the column `least` or further right, unless it stands in a flow
collection, and without tabs before that column in either case. -/
def plain? (inFlow : Bool) (least : Nat) (gap : List Char) (column : Nat) :
    List Char → Option PlainLexeme
  | [] => some ⟨⟨[], 0⟩, gap.any isBreak⟩
  | c :: rest =>
    if isBreak c then
      (plain? inFlow least (gap ++ [c]) 0 rest).map fun l => { l with toLexeme := l.after 1 [] }
    else if isBlank c then
      if c == '\t' && column < least && gap.any isBreak then none
      else
        (plain? inFlow least (gap ++ [c]) (column + 1) rest).map fun l =>
          { l with toLexeme := l.after 1 [] }
    else if !gap.isEmpty && (c == '#' || (!inFlow && column < least) ||
        (column == 0 && startsAnyMark (c :: rest))) then
      some ⟨⟨[], 0⟩, gap.any isBreak⟩
    else if isStrayColon inFlow c rest.head? then none
    else if endsPlain inFlow c rest.head? then some ⟨⟨[], 0⟩, gap.any isBreak⟩
    else
      (plain? inFlow least [] (column + 1) rest).map fun l =>
        { l with toLexeme := l.after 1 (foldGap gap ++ [c]) }

/-! ## Block scalars -/

/-- What becomes of the line ends after a block scalar. -/
inductive Chomping where
  | strip
  | clip
  | keep
deriving DecidableEq

/-- The header of a block scalar. -/
structure BlockHeader where
  chomping : Chomping
  /-- The indentation, where it is told. -/
  indent : Option Nat

/-- Reads the indicators of a header, in either order, each at most once. -/
def blockHeader? (chomping : Option Chomping) (indent : Option Nat) :
    List Char → Option (BlockHeader × List Char)
  | '-' :: rest => if chomping.isSome then none else blockHeader? (some .strip) indent rest
  | '+' :: rest => if chomping.isSome then none else blockHeader? (some .keep) indent rest
  | c :: rest =>
    if c.isDigit then
      if indent.isSome || c == '0' then none
      else blockHeader? chomping (some (c.toNat - '0'.toNat)) rest
    else some ({ chomping := chomping.getD .clip, indent }, c :: rest)
  | [] => some ({ chomping := chomping.getD .clip, indent }, [])

/-- Passes over the rest of a line on which only a comment may follow, and over
the end of the line. -/
def restOfLine? (cs : List Char) : Option (List Char) :=
  match cs.dropWhile isBlank with
  | '#' :: rest => some ((rest.dropWhile (!isBreak ·)).drop 1)
  | rest => if endsLine rest.head? then some (rest.drop 1) else none

/-- A line and the character that ends it. -/
structure TextLine where
  text : List Char
  ending : Option Char

/-- The number of characters of a line, its end included. -/
def TextLine.size (l : TextLine) : Nat := l.text.length + l.ending.toList.length

/-- The lines of a text. The last has no end, and may be empty. -/
def linesOf : List Char → List TextLine
  | [] => [⟨[], none⟩]
  | c :: rest =>
    if isBreak c then ⟨[], some c⟩ :: linesOf rest
    else
      match linesOf rest with
      | l :: more => { l with text := c :: l.text } :: more
      | [] => [⟨[c], none⟩]

/-- The number of spaces that a line starts with. -/
def TextLine.spaces (l : TextLine) : Nat := (l.text.takeWhile (· == ' ')).length

/-- The largest number of spaces at the beginning of the empty lines here and
of the line after them. A tab must not follow the spaces. -/
def widestIndent? : List TextLine → Option Nat
  | [] => some 0
  | l :: more =>
    match l.text.drop l.spaces, l.ending with
    | [], some _ => (widestIndent? more).map (max l.spaces)
    | '\t' :: _, _ => none
    | _, _ => some l.spaces

/-- One line of a block scalar: its text, the character that ends it, and the
ends of the empty lines after it. -/
structure BlockLine where
  text : List Char
  ending : Option Char
  blankAfter : List Char

/-- A block scalar with a known indentation. -/
structure BlockText where
  /-- The ends of the empty lines before its first line. -/
  blankBefore : List Char
  lines : List BlockLine
  /-- The number of characters of it. -/
  size : Nat

/-- The lines of a block scalar with a known indentation. An empty line has no
more than spaces, and at most as many as the indentation. The scalar ends
before a line with fewer spaces, which a tab must not follow. -/
def blockText? (indent : Nat) : List TextLine → Option BlockText
  | [] => some ⟨[], [], 0⟩
  | l :: more =>
    let spaces := min l.spaces indent
    match l.text.drop spaces, l.ending with
    | [], none => some ⟨[], [], 0⟩
    | [], some ending =>
      (blockText? indent more).map fun t =>
        { t with blankBefore := ending :: t.blankBefore, size := l.size + t.size }
    | c :: text, ending =>
      if spaces < indent then if c == '\t' then none else some ⟨[], [], 0⟩
      else
        (blockText? indent more).map fun t =>
          ⟨[], ⟨c :: text, ending, t.blankBefore⟩ :: t.lines, l.size + t.size⟩

/-- Does a line start with a blank? -/
def startsBlank (text : List Char) : Bool := text.head?.any isBlank

/-- The text of lines as they are. -/
def literalText (chomping : Chomping) : List BlockLine → List Char
  | [] => []
  | [l] =>
    l.text ++ (if chomping = .strip then [] else l.ending.toList) ++
      (if chomping = .keep then l.blankAfter else [])
  | l :: rest => l.text ++ l.ending.toList ++ l.blankAfter ++ literalText chomping rest

/-- The text of lines where single line feeds are spaces, except around lines
that start with a blank. -/
def foldedText (chomping : Chomping) : List BlockLine → List Char
  | l :: next :: rest =>
    let gap :=
      if l.ending ≠ some '\n' || startsBlank l.text || startsBlank next.text then
        l.ending.toList ++ l.blankAfter
      else if l.blankAfter.isEmpty then [' ']
      else l.blankAfter
    l.text ++ gap ++ foldedText chomping (next :: rest)
  | lines => literalText chomping lines

/-- The indentation of a block scalar inside of a collection in the column
`parent`, if there is one. Where it is not told, it is the one of the first line
that is not empty, but no less than that of an empty line before that one, and
further right than the collection. -/
def blockIndent? (told parent : Option Nat) (lines : List TextLine) : Option Nat :=
  match told with
  | some n => some (parent.getD 0 + n)
  | none =>
    let least := (parent.map (· + 1)).getD 0
    (widestIndent? lines).map fun widest => max (max widest least) 1

/-- A block scalar after its indicator, inside of a collection in the column
`parent`, if there is one: its text and what follows. -/
def blockScalar? (style : ScalarStyle) (parent : Option Nat) (cs : List Char) :
    Option (List Char × List Char) := do
  let (header, rest) ← blockHeader? none none cs
  let rest ← restOfLine? rest
  let lines := linesOf rest
  let indent ← blockIndent? header.indent parent lines
  let found ← blockText? indent lines
  let body := if style = .folded then foldedText header.chomping found.lines
    else literalText header.chomping found.lines
  let blank := if found.lines.isEmpty && header.chomping ≠ .keep then [] else found.blankBefore
  return (blank ++ body, rest.drop found.size)

end JavaMend.Yaml
