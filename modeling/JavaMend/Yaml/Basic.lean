import JavaMend.Json.Parser

/-!
# YAML values

A document is made of scalars, sequences and mappings. A scalar is a text with
the style it is written in and perhaps a tag; what it is besides a text
(nothing, a truth value, a number) is decided by whoever reads it. A node can
also be a reference to another one that was given a name; the anchors of a
document are numbered, and the reference has the number.
-/

namespace JavaMend

/-- The ways to write a scalar. -/
inductive ScalarStyle where
  | plain
  | single
  | double
  | literal
  | folded
deriving DecidableEq

inductive Yaml where
  | scalar (tag : Option String) (style : ScalarStyle) (text : String)
  | seq (items : List Yaml)
  | map (fields : List (Yaml × Yaml))
  | reference (anchor : Nat)

namespace Yaml

/-- What stands where nothing is written. -/
def absent : Yaml := .scalar none .plain ""

/-- A text as such. -/
def text (value : String) : Yaml := .scalar none .single value

/-- A plain scalar. -/
def word (value : String) : Yaml := .scalar none .plain value

/-! ## Tags -/

/-- The tags of a standard kind of node start so. -/
def coreTagStart : String := "tag:yaml.org,2002:"

/-- The tag of a standard kind. -/
def coreTag (kind : String) : String := coreTagStart ++ kind

/-! ## What a plain scalar is -/

/-- The spellings of nothing. -/
def isNullWord (w : String) : Bool := ["null", "Null", "NULL", "~"].contains w

/-- The truth value of a word. -/
def boolOfWord? (w : String) : Option Bool :=
  if ["true", "True", "TRUE"].contains w then some true
  else if ["false", "False", "FALSE"].contains w then some false
  else none

/-- The value of a digit, if the base has it. -/
def digit? (base : Nat) (c : Char) : Option Nat := (Json.hexValue? c).filter (· < base)

/-- The value of digits in a base; there must be one at least. -/
def digits? (base : Nat) (cs : List Char) : Option Nat :=
  if cs.isEmpty then none
  else cs.foldlM (fun value c => (digit? base c).map (value * base + ·)) 0

/-- Digits that are no number, because they start with a zero. -/
def isPaddedDigits (cs : List Char) : Bool :=
  let cs := match cs with
    | '-' :: rest => rest
    | '+' :: rest => rest
    | cs => cs
  match cs with
  | '0' :: c :: rest => (c :: rest).all Char.isDigit
  | _ => false

/-- Digits with the mark of their base in front. -/
def magnitude? : List Char → Option Nat
  | '0' :: 'x' :: rest => digits? 16 rest
  | '0' :: 'o' :: rest => digits? 8 rest
  | '0' :: 'b' :: rest => digits? 2 rest
  | cs => if isPaddedDigits cs then none else digits? 10 cs

/-- The number without a sign that a word is, or with a plus sign. -/
def natOfWord? (w : String) : Option Nat :=
  match w.toList with
  | '+' :: rest => magnitude? rest
  | cs => magnitude? cs

/-- Is the word a whole number that fits 128 bits? -/
def isIntegerWord (w : String) : Bool :=
  match w.toList with
  | '-' :: rest => (magnitude? rest).any (· ≤ Nat.pow 2 127)
  | _ => (natOfWord? w).any (· < Nat.pow 2 128)

/-- Is the word a decimal number with a fraction or an exponent, and not beyond
every double? -/
def isDecimal (cs : List Char) : Bool :=
  let whole := cs.takeWhile Char.isDigit
  let (fraction, rest) := match cs.dropWhile Char.isDigit with
    | '.' :: rest => (rest.takeWhile Char.isDigit, rest.dropWhile Char.isDigit)
    | rest => ([], rest)
  let digits := whole ++ fraction
  match Json.exponent? rest with
  | some (exponent, []) =>
    !digits.isEmpty && !Json.tooLarge (Json.digitsValue digits) (exponent - fraction.length)
  | _ => false

/-- Is the word a number that need not be whole? -/
def isFloatWord (w : String) : Bool :=
  [".nan", ".NaN", ".NAN", "-.inf", "-.Inf", "-.INF"].contains w ||
    match w.toList with
    | '+' :: rest => isInfinity rest || isDecimal rest
    | '-' :: rest => isDecimal rest
    | cs => isInfinity cs || isDecimal cs
where
  /-- The spellings of infinity. -/
  isInfinity (cs : List Char) : Bool := [".inf", ".Inf", ".INF"].contains (String.ofList cs)

/-- Would the text be taken for something else if it were written plainly? -/
def isAmbiguous (value : String) : Bool :=
  value.isEmpty || isNullWord value || (boolOfWord? value).isSome || isIntegerWord value ||
    isPaddedDigits value.toList || isFloatWord value

end Yaml

end JavaMend
