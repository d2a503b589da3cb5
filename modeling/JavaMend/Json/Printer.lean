import JavaMend.Json.Basic

/-!
# Writing JSON

Two layouts of one value: everything on one line without blanks, or one item a
line with two spaces of indentation. Texts are written raw but for the quote,
the backslash and the control characters below the space; five of those have
short escapes.
-/

namespace JavaMend.Json

/-- A lower-case hexadecimal digit. -/
def hexDigit (n : Nat) : Char := Nat.digitChar n

/-- A character inside a text. -/
def escapeChar (c : Char) : List Char :=
  if c == '"' then ['\\', '"']
  else if c == '\\' then ['\\', '\\']
  else if c == '\x08' then ['\\', 'b']
  else if c == '\t' then ['\\', 't']
  else if c == '\n' then ['\\', 'n']
  else if c == '\x0c' then ['\\', 'f']
  else if c == '\r' then ['\\', 'r']
  else if c.toNat < 32 then
    ['\\', 'u', '0', '0', hexDigit (c.toNat / 16), hexDigit (c.toNat % 16)]
  else [c]

/-- A text in quotes. -/
def quote (s : String) : String :=
  String.ofList ('"' :: s.toList.flatMap escapeChar ++ ['"'])

/-- A number in the shortest of the exact spellings: digits, and an exponent
only where there is one. -/
def numberText (mantissa exponent : Int) : String :=
  if exponent == 0 then toString mantissa else toString mantissa ++ "e" ++ toString exponent

mutual

/-- The value on one line, without blanks. -/
def compact : Json → String
  | null => "null"
  | bool true => "true"
  | bool false => "false"
  | num mantissa exponent => numberText mantissa exponent
  | str value => quote value
  | arr items => "[" ++ ",".intercalate (compactItems items) ++ "]"
  | obj fields => "\x7b" ++ ",".intercalate (compactFields fields) ++ "\x7d"
  | flawed => "null"

/-- Each item on its own. -/
def compactItems : List Json → List String
  | [] => []
  | item :: rest => item.compact :: compactItems rest

/-- Each field on its own. -/
def compactFields : List (String × Json) → List String
  | [] => []
  | (key, value) :: rest => (quote key ++ ":" ++ value.compact) :: compactFields rest

end

/-- A line feed and the indentation of a level. -/
def newLine (level : Nat) : String := "\n" ++ String.ofList (List.replicate (2 * level) ' ')

mutual

/-- The value over several lines, at a level of indentation. -/
def prettyAt (level : Nat) : Json → String
  | null => "null"
  | bool true => "true"
  | bool false => "false"
  | num mantissa exponent => numberText mantissa exponent
  | str value => quote value
  | arr [] => "[]"
  | arr items =>
    "[" ++ newLine (level + 1) ++
      ("," ++ newLine (level + 1)).intercalate (prettyItems (level + 1) items) ++
      newLine level ++ "]"
  | obj [] => "\x7b\x7d"
  | obj fields =>
    "\x7b" ++ newLine (level + 1) ++
      ("," ++ newLine (level + 1)).intercalate (prettyFields (level + 1) fields) ++
      newLine level ++ "\x7d"
  | flawed => "null"

/-- Each item on its own. -/
def prettyItems (level : Nat) : List Json → List String
  | [] => []
  | item :: rest => prettyAt level item :: prettyItems level rest

/-- Each field on its own. -/
def prettyFields (level : Nat) : List (String × Json) → List String
  | [] => []
  | (key, value) :: rest => (quote key ++ ": " ++ prettyAt level value) :: prettyFields level rest

end

/-- The value over several lines. -/
def pretty (j : Json) : String := prettyAt 0 j

end JavaMend.Json
