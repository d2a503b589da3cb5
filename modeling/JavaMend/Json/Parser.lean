import JavaMend.Json.Basic

/-!
# Reading JSON

The strict grammar: no comments, no trailing commas, no leading zeros, no
control characters inside texts, blanks only where the grammar has them. What
follows the grammar and cannot be represented is read as `flawed`.
-/

namespace JavaMend.Json

/-! ## Lexemes -/

/-- The four characters that may stand between lexemes. -/
def isBlank (c : Char) : Bool := c == ' ' || c == '\t' || c == '\n' || c == '\r'

def skipBlanks (cs : List Char) : List Char := cs.dropWhile isBlank

/-- The value of a hexadecimal digit of either case. -/
def hexValue? (c : Char) : Option Nat :=
  if '0' ≤ c ∧ c ≤ '9' then some (c.toNat - '0'.toNat)
  else if 'a' ≤ c ∧ c ≤ 'f' then some (c.toNat - 'a'.toNat + 10)
  else if 'A' ≤ c ∧ c ≤ 'F' then some (c.toNat - 'A'.toNat + 10)
  else none

/-- The value of four hexadecimal digits. -/
def hexUnit? (a b c d : Char) : Option Nat :=
  match hexValue? a, hexValue? b, hexValue? c, hexValue? d with
  | some a, some b, some c, some d => some (((a * 16 + b) * 16 + c) * 16 + d)
  | _, _, _, _ => none

/-- The character a one-letter escape stands for. -/
def shortEscape? (c : Char) : Option Char :=
  match c with
  | '"' => some '"'
  | '\\' => some '\\'
  | '/' => some '/'
  | 'b' => some '\x08'
  | 'f' => some '\x0c'
  | 'n' => some '\n'
  | 'r' => some '\r'
  | 't' => some '\t'
  | _ => none

/-- A character of a text, or the 16-bit unit of a `\u` escape. -/
inductive TextUnit where
  | char (c : Char)
  | unit (n : Nat)

/-- The units of a text after its opening quote, and what follows its closing
quote. -/
def textUnits? : List Char → Option (List TextUnit × List Char)
  | [] => none
  | '"' :: rest => some ([], rest)
  | '\\' :: 'u' :: a :: b :: c :: d :: rest => do
    let n ← hexUnit? a b c d
    let (units, rest) ← textUnits? rest
    return (.unit n :: units, rest)
  | '\\' :: c :: rest => do
    let c ← shortEscape? c
    let (units, rest) ← textUnits? rest
    return (.char c :: units, rest)
  | c :: rest =>
    if c.toNat < 32 || c == '\\' then none
    else do
      let (units, rest) ← textUnits? rest
      return (.char c :: units, rest)

/-- The characters that units stand for; two units can make up one. There is
no answer for half a pair. -/
def chars? : List TextUnit → Option (List Char)
  | [] => some []
  | .char c :: rest => (chars? rest).map (c :: ·)
  | .unit n :: rest =>
    if 0xDC00 ≤ n ∧ n < 0xE000 then none
    else if 0xD800 ≤ n ∧ n < 0xDC00 then
      match rest with
      | .unit m :: rest =>
        if 0xDC00 ≤ m ∧ m < 0xE000 then
          (chars? rest).map (Char.ofNat (0x10000 + (n - 0xD800) * 1024 + (m - 0xDC00)) :: ·)
        else none
      | _ => none
    else (chars? rest).map (Char.ofNat n :: ·)

/-- The number that decimal digits stand for. -/
def digitsValue (digits : List Char) : Nat :=
  digits.foldl (fun n c => n * 10 + (c.toNat - '0'.toNat)) 0

/-- The fraction digits after an integer part, if there is a point. A point
without digits is an error. -/
def fraction? : List Char → Option (List Char × List Char)
  | '.' :: rest =>
    match rest.takeWhile Char.isDigit with
    | [] => none
    | digits => some (digits, rest.dropWhile Char.isDigit)
  | rest => some ([], rest)

/-- The exponent, zero if none is written. A mark without digits is an error. -/
def exponent? (cs : List Char) : Option (Int × List Char) :=
  match cs with
  | c :: rest =>
    if c == 'e' || c == 'E' then
      let (negative, rest) := match rest with
        | '-' :: rest => (true, rest)
        | '+' :: rest => (false, rest)
        | rest => (false, rest)
      match rest.takeWhile Char.isDigit with
      | [] => none
      | digits =>
        let n : Int := digitsValue digits
        some (if negative then -n else n, rest.dropWhile Char.isDigit)
    else some (0, cs)
  | [] => some (0, [])

/-- The least number that is nearer to the double after the largest, if there
were one, than to the largest. -/
def doubleBound : Nat := Nat.pow 2 1024 - Nat.pow 2 970

/-- Is `mantissa * 10 ^ exponent` beyond the largest double, which has 309
digits in front of the point? -/
def tooLarge (mantissa : Nat) (exponent : Int) : Bool :=
  let places := exponent + (Nat.toDigits 10 mantissa).length
  mantissa != 0 &&
    (places > 309 ||
      (places == 309 &&
        mantissa * Nat.pow 10 exponent.toNat ≥ doubleBound * Nat.pow 10 (-exponent).toNat))

/-- A number, and what follows it. -/
def number? (cs : List Char) : Option (Json × List Char) := do
  let (negative, cs) := match cs with
    | '-' :: rest => (true, rest)
    | cs => (false, cs)
  let whole := cs.takeWhile Char.isDigit
  let rest := cs.dropWhile Char.isDigit
  if whole.isEmpty || (whole.head? == some '0' && whole.length > 1) then none
  let (fraction, rest) ← fraction? rest
  let (exponent, rest) ← exponent? rest
  let digits := whole ++ fraction
  let mantissa := digitsValue digits
  let scale : Int := exponent - fraction.length
  if tooLarge mantissa scale then return (.flawed, rest)
  return (.num (if negative then -mantissa else mantissa) scale, rest)

/-- The rest after a keyword. -/
def afterWord? (word cs : List Char) : Option (List Char) :=
  if word.isPrefixOf cs then some (cs.drop word.length) else none

/-! ## Values -/

/-- A text in quotes: its value, `none` for half a pair, and what follows. -/
def text? (cs : List Char) : Option (Option String × List Char) :=
  match cs with
  | '"' :: rest => do
    let (units, rest) ← textUnits? rest
    return ((chars? units).map String.ofList, rest)
  | _ => none

mutual

/-- A value and what follows it. `fuel` bounds the number of nested and
following values, `depth` how many more arrays and objects may be opened. -/
def value? (fuel depth : Nat) (cs : List Char) : Option (Json × List Char) :=
  match fuel with
  | 0 => none
  | fuel + 1 =>
    match skipBlanks cs with
    | '"' :: rest => do
      let (text, rest) ← text? ('"' :: rest)
      return (match text with
        | some s => .str s
        | none => .flawed, rest)
    | '[' :: rest =>
      match skipBlanks rest with
      | ']' :: rest => some (if depth ≤ 1 then .flawed else .arr [], rest)
      | rest => do
        let (items, rest) ← items? fuel (depth - 1) rest
        return (if depth ≤ 1 then .flawed else .arr items, rest)
    | '\x7b' :: rest =>
      match skipBlanks rest with
      | '\x7d' :: rest => some (if depth ≤ 1 then .flawed else .obj [], rest)
      | rest => do
        let (fields, rest) ← fields? fuel (depth - 1) rest
        return (match fields with
          | some fields => if depth ≤ 1 then .flawed else .obj fields
          | none => .flawed, rest)
    | 't' :: rest => do return (.bool true, ← afterWord? ['r', 'u', 'e'] rest)
    | 'f' :: rest => do return (.bool false, ← afterWord? ['a', 'l', 's', 'e'] rest)
    | 'n' :: rest => do return (.null, ← afterWord? ['u', 'l', 'l'] rest)
    | cs => number? cs

/-- The items of an array up to its closing bracket, at least one. -/
def items? (fuel depth : Nat) (cs : List Char) : Option (List Json × List Char) :=
  match fuel with
  | 0 => none
  | fuel + 1 => do
    let (item, rest) ← value? fuel depth cs
    match skipBlanks rest with
    | ',' :: rest => do
      let (items, rest) ← items? fuel depth rest
      return (item :: items, rest)
    | ']' :: rest => return ([item], rest)
    | _ => none

/-- The fields of an object up to its closing brace, at least one; `none` in
place of the fields if one of the names stands for nothing. -/
def fields? (fuel depth : Nat) (cs : List Char) :
    Option (Option (List (String × Json)) × List Char) :=
  match fuel with
  | 0 => none
  | fuel + 1 => do
    let (name, rest) ← text? (skipBlanks cs)
    match skipBlanks rest with
    | ':' :: rest => do
      let (value, rest) ← value? fuel depth rest
      let fields := name.map fun name => [(name, value)]
      match skipBlanks rest with
      | ',' :: rest => do
        let (more, rest) ← fields? fuel depth rest
        return (do return (← fields) ++ (← more), rest)
      | '\x7d' :: rest => return (fields, rest)
      | _ => none
    | _ => none

end

/-- The deepest nesting a reader takes: an array or object inside this many
others is not read. -/
def depthLimit : Nat := 128

/-- The one value of a text, with nothing but blanks around it. Every nested
or following value uses up a character, so the length of the text is fuel
enough. -/
def parse? (text : String) : Option Json := do
  let cs := text.toList
  let (value, rest) ← value? (2 * cs.length + 2) depthLimit cs
  if (skipBlanks rest).isEmpty then return value else none

end JavaMend.Json
