import JavaMend.Yaml.Source

/-!
# Writing YAML

Mappings and sequences are written one entry a line; empty ones are written
`{}` and `[]`. The items of a sequence that is the value of a key stand in the
column of the key. A text is written plainly where it can be read back as the
text it is, else in single quotes, else in double quotes with escapes; a text
of several lines is written line by line where that is possible.
-/

namespace JavaMend.Yaml

/-! ## Texts -/

/-- Characters that may be written as they are. -/
def isPrintable (c : Char) : Bool :=
  let n := c.toNat
  n == 10 || (32 ≤ n && n ≤ 126) || (0xa0 ≤ n && n ≤ 0xd7ff) ||
    (0xe000 ≤ n && n ≤ 0xfffd && n != 0xfeff) || 0x10000 ≤ n

/-- The end of a text, a blank, or the end of a line. -/
def isGap : Option Char → Bool
  | none => true
  | some c => c == ' ' || c == '\t' || c == '\x00' || isBreak c

/-- Does an indicator stand somewhere after the character `previous`? -/
def hasIndicatorAfter (previous : Char) : List Char → Bool
  | [] => false
  | c :: rest =>
    (c == ':' && isGap rest.head?) || (c == '#' && isGap (some previous)) ||
      hasIndicatorAfter c rest

/-- Would some character be taken for an indicator in a plain scalar? -/
def hasIndicator (cs : List Char) : Bool :=
  ['-', '-', '-'].isPrefixOf cs || ['.', '.', '.'].isPrefixOf cs ||
    match cs with
    | [] => false
    | c :: rest =>
      "#,[]\x7b\x7d&*!|>'\"%@\x60".toList.contains c ||
        ("?:-".toList.contains c && isGap rest.head?) || hasIndicatorAfter c rest

/-- Does a character of the first sort stand right before one of the second? -/
def adjacent (first second : Char → Bool) (cs : List Char) : Bool :=
  (cs.zip cs.tail).any fun (a, b) => first a && second b

def isSpace (c : Char) : Bool := c == ' '

/-- A space or the end of a line. -/
def isSpaceOrBreak (c : Char) : Bool := isSpace c || isBreak c

/-- Can the text be written in quotes or line by line, without escapes? -/
def isClean (cs : List Char) : Bool := cs.all isPrintable && !adjacent isSpace isBreak cs

def allowsPlain (cs : List Char) : Bool :=
  isClean cs && !cs.any isBreak && !hasIndicator cs && !cs.head?.any isSpaceOrBreak &&
    !cs.getLast?.any isSpaceOrBreak

def allowsSingle (cs : List Char) : Bool := isClean cs && !adjacent isBreak isSpace cs

def allowsLiteral (cs : List Char) : Bool :=
  !cs.isEmpty && isClean cs && !cs.getLast?.any isSpace

/-- How a text is written; a key cannot be written line by line. -/
def styleOf (isKey : Bool) (value : String) : ScalarStyle :=
  let cs := value.toList
  let quoted := if allowsSingle cs then ScalarStyle.single else .double
  if isKey && cs.any isBreak then .double
  else if cs.contains '\n' then
    if allowsLiteral cs && !isKey then .literal else .double
  else if isAmbiguous value then quoted
  else if allowsPlain cs then .plain
  else quoted

/-- An upper-case hexadecimal digit. -/
def upperHex (n : Nat) : Char := (Nat.digitChar n).toUpper

/-- The last `width` hexadecimal digits of a number. -/
def hexDigits (n : Nat) : Nat → List Char
  | 0 => []
  | width + 1 => hexDigits (n / 16) width ++ [upperHex (n % 16)]

/-- The letters of one-letter escapes. -/
def escapeLetters : List (Nat × Char) :=
  [ (0, '0'), (7, 'a'), (8, 'b'), (9, 't'), (10, 'n'), (11, 'v'), (12, 'f'), (13, 'r'), (27, 'e'),
    (34, '"'), (92, '\\'), (0x85, 'N'), (0xa0, '_'), (0x2028, 'L'), (0x2029, 'P') ]

/-- A character in double quotes. -/
def escaped (c : Char) : List Char :=
  let n := c.toNat
  if isPrintable c && !isBreak c && c != '"' && c != '\\' then [c]
  else
    match escapeLetters.lookup n with
    | some letter => ['\\', letter]
    | none =>
      if n ≤ 0xff then '\\' :: 'x' :: hexDigits n 2
      else if n ≤ 0xffff then '\\' :: 'u' :: hexDigits n 4
      else '\\' :: 'U' :: hexDigits n 8

/-- A text over lines. What follows the end of a line stands in the given column,
unless it is another line end; `broke` says whether one comes right before. -/
def indented (column : Nat) (broke : Bool) : List Char → List Char
  | [] => []
  | c :: rest =>
    if isBreak c then c :: indented column true rest
    else (if broke then List.replicate column ' ' else []) ++ c :: indented column false rest

/-- A text in single quotes. Line ends in it can only be separators, and the text
goes on in the given column after them. -/
def singleQuoted (column : Nat) (cs : List Char) : String :=
  let body := cs.flatMap fun c => if c == '\'' then ['\'', '\''] else [c]
  String.ofList ('\'' :: indented column false (body ++ ['\'']))

def doubleQuoted (cs : List Char) : String := String.ofList ('"' :: cs.flatMap escaped ++ ['"'])

/-! ## Rows -/

/-- One line, or several: the column they start in and their text. -/
structure Row where
  column : Nat
  text : String
  /-- Does the text end its line? -/
  ended : Bool := false

/-- The row with the end of its line. -/
def Row.render (r : Row) : String :=
  String.ofList (List.replicate r.column ' ') ++ r.text ++ (if r.ended then "" else "\n")

/-- The header of a text that follows line by line: whether its indentation has
to be told, and what becomes of the line ends after it. -/
def literalHeader (cs : List Char) : String :=
  let hint := if cs.head?.any isSpaceOrBreak then "2" else ""
  let chomp :=
    match cs.reverse with
    | last :: before =>
      if !isBreak last then "-" else if before.head?.all isBreak then "+" else ""
    | [] => "-"
  "|" ++ hint ++ chomp

/-- The lines of a text. -/
def literalRow (column : Nat) (cs : List Char) : Row :=
  { column := 0, text := String.ofList (indented column true cs), ended := cs.getLast?.any isBreak }

/-- A value: what stands on the line of its key or marker, and the lines after
that one. -/
structure Layout where
  inline : Option String
  rows : List Row

/-- A scalar in a collection at a column. A plain one is written as it is, and
for any other text the style is chosen. -/
def scalarLayout (isKey : Bool) (column : Nat) (style : ScalarStyle) (value : String) : Layout :=
  let cs := value.toList
  match if style = .plain then .plain else styleOf isKey value with
  | .single => ⟨some (singleQuoted (column + 2) cs), []⟩
  | .double => ⟨some (doubleQuoted cs), []⟩
  | .literal => ⟨some (literalHeader cs), [literalRow (column + 2) cs]⟩
  | _ => ⟨some value, []⟩

/-- A value after a marker of one character and a space, in a column. -/
def Layout.hang (marker : String) (column : Nat) (l : Layout) : List Row :=
  match l.inline, l.rows with
  | some text, rows => { column, text := marker ++ " " ++ text } :: rows
  | none, first :: rows => { first with column, text := marker ++ " " ++ first.text } :: rows
  | none, [] => [{ column, text := marker }]

/-- A value after its key. -/
def Layout.follow (key : String) (column : Nat) (l : Layout) : List Row :=
  match l.inline with
  | some text => { column, text := key ++ ": " ++ text } :: l.rows
  | none => { column, text := key ++ ":" } :: l.rows

/-- Can a key be written in front of a colon? -/
def isSimpleKey : Yaml → Bool
  | scalar _ _ value => !value.toList.any isBreak && value.utf8ByteSize ≤ 128
  | _ => false

mutual

/-- The layout of a value in a collection at a column. `inKey` says that it
follows a key on its line, so that a sequence may start in the same column. -/
def layout (inKey : Bool) (column : Nat) : Yaml → Layout
  | scalar _ style value => scalarLayout false column style value
  | seq [] => ⟨some "[]", []⟩
  | seq items => ⟨none, itemRows (if inKey then column else column + 2) items⟩
  | map [] => ⟨some "\x7b\x7d", []⟩
  | map fields => ⟨none, fieldRows (column + 2) fields⟩
  | reference anchor => ⟨some ("*" ++ toString anchor), []⟩

/-- The rows of the items of a sequence. -/
def itemRows (column : Nat) : List Yaml → List Row
  | [] => []
  | item :: rest => (layout false column item).hang "-" column ++ itemRows column rest

/-- The rows of the fields of a mapping. -/
def fieldRows (column : Nat) : List (Yaml × Yaml) → List Row
  | [] => []
  | (key, value) :: rest =>
    (if isSimpleKey key then
      let keyText := match key with
        | scalar _ style k => ((scalarLayout true column style k).inline).getD ""
        | _ => ""
      (layout true column value).follow keyText column
    else
      (layout false column key).hang "?" column ++ (layout false column value).hang ":" column) ++
      fieldRows column rest

end

/-- The document of a value. -/
def document (y : Yaml) : String :=
  let rows := match y with
    | map (field :: fields) => fieldRows 0 (field :: fields)
    | seq (item :: items) => itemRows 0 (item :: items)
    | y =>
      let l := layout false 0 y
      { column := 0, text := l.inline.getD "" } :: l.rows
  String.join (rows.map Row.render)

end JavaMend.Yaml
