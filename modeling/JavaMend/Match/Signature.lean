import JavaMend.Match.Glob

/-!
# Method signatures

A signature descriptor names a set of library members:

```
<declaring type> <name>(<arguments>)
```

The declaring type and the types of arguments are name patterns; the name is a
pattern without dots, or `<constructor>`. Among the arguments `..` stands for
any sequence of them and `*` for one of any type.
-/

namespace JavaMend

/-- Why a text is no signature descriptor. -/
inductive SignatureFault where
  /-- The text as a whole does not have the form of a descriptor. -/
  | form
  /-- A type is not a name pattern. -/
  | typePattern (text : String)
  /-- A pattern is refused by what compiles it. -/
  | refused (reason : String)
  /-- There is nothing between two commas. -/
  | emptyArgument
deriving DecidableEq

def SignatureFault.reason : SignatureFault → String
  | form => "expected '<type> <name>(<arguments>)'"
  | typePattern text => "'" ++ text ++ "' is not a type pattern"
  | refused reason => reason
  | emptyArgument => "empty argument pattern"

/-- A text that is no descriptor, and why. -/
structure SignatureError where
  descriptor : String
  fault : SignatureFault
deriving DecidableEq

def SignatureError.message (e : SignatureError) : String :=
  "invalid method signature '" ++ e.descriptor ++ "': " ++ e.fault.reason

inductive NamePattern where
  | constructor
  | name (glob : Glob)

inductive ArgPattern where
  /-- `..` -/
  | anySequence
  /-- `*` -/
  | any
  | type (glob : Glob)

/-- A pattern for library members. -/
structure Signature where
  /-- The text it was read from, without white space at its ends. -/
  descriptor : String
  owner : Glob
  name : NamePattern
  args : List ArgPattern

namespace Signature

/-! ## Reading -/

/-- The three parts of a descriptor, as text. -/
structure Parts where
  owner : List Char
  name : List Char
  args : List Char

/-- The word that stands for a constructor's name. -/
def constructorWord : List Char := MethodRef.constructorName.toList

/-- The name in front of the arguments, and what follows it. -/
def splitName? (cs : List Char) : Option (List Char × List Char) :=
  if constructorWord.isPrefixOf cs then some (constructorWord, cs.drop constructorWord.length)
  else
    match cs.takeWhile Glob.isSegmentChar with
    | [] => none
    | name => some (name, cs.dropWhile Glob.isSegmentChar)

/-- The text in parentheses, if nothing but white space follows it. -/
def splitArgs? (cs : List Char) : Option (List Char) :=
  let isPlain := fun c => c != '(' && c != ')'
  match cs.dropWhile CharClass.isWhite with
  | '(' :: rest =>
    match rest.dropWhile isPlain with
    | ')' :: more => if more.all CharClass.isWhite then some (rest.takeWhile isPlain) else none
    | _ => none
  | _ => none

/-- Splits a descriptor into its parts. White space divides the type from the
name, and may stand around everything else. -/
def split? (cs : List Char) : Option Parts := do
  let isOwnerChar := fun c => Glob.isSegmentChar c || c == '.'
  let cs := cs.dropWhile CharClass.isWhite
  let owner := cs.takeWhile isOwnerChar
  let rest := cs.dropWhile isOwnerChar
  let (name, rest') ← splitName? (rest.dropWhile CharClass.isWhite)
  if owner.isEmpty || !(rest.head?.any CharClass.isWhite) then none
  return { owner, name, args := ← splitArgs? rest' }

/-- The parts of a text between commas. -/
def betweenCommas : List Char → List (List Char)
  | [] => [[]]
  | c :: rest =>
    if c == ',' then [] :: betweenCommas rest
    else
      match betweenCommas rest with
      | first :: more => (c :: first) :: more
      | [] => [[c]]

/-- A name pattern, or the fault that it is none or that it is refused. -/
def readGlob [compiler : GlobCompiler] (text : List Char) : Except SignatureFault Glob :=
  match Glob.ofText? text with
  | some glob =>
    if glob.wildcards.isEmpty then .ok glob
    else
      match compiler.refusal? glob with
      | none => .ok glob
      | some reason => .error (.refused reason)
  | none => .error (.typePattern (String.ofList text))

/-- One argument, without white space around it. -/
def readArg [GlobCompiler] (text : List Char) : Except SignatureFault ArgPattern :=
  match text with
  | [] => .error .emptyArgument
  | ['.', '.'] => .ok .anySequence
  | ['*'] => .ok .any
  | text => .type <$> readGlob text

/-- The arguments in the order they are written; none for a blank text. -/
def readArgs [GlobCompiler] (text : List Char) : Except SignatureFault (List ArgPattern) :=
  match trimWhite text with
  | [] => .ok []
  | text => (betweenCommas text).mapM fun arg => readArg (trimWhite arg)

/-- The signature that a descriptor spells. The first fault from the left
counts. -/
def parse [GlobCompiler] (descriptor : String) :
    Except SignatureError Signature :=
  let result : Except SignatureFault Signature := do
    match split? descriptor.toList with
    | none => .error .form
    | some parts =>
      let owner ← readGlob parts.owner
      let name ← if parts.name == constructorWord then pure NamePattern.constructor
        else .name <$> readGlob parts.name
      let args ← readArgs parts.args
      return { descriptor := String.ofList (trimWhite descriptor.toList), owner, name, args }
  result.mapError fun fault => { descriptor, fault }

def NamePattern.glob? : NamePattern → Option Glob
  | .constructor => none
  | .name glob => some glob

def ArgPattern.glob? : ArgPattern → Option Glob
  | .anySequence | .any => none
  | .type glob => some glob

/-- The patterns for names that a signature is made of. -/
def globs (s : Signature) : List Glob :=
  s.owner :: (NamePattern.glob? s.name).toList ++ s.args.filterMap ArgPattern.glob?

/-- Does the signature stand for constructors? -/
def isConstructor (s : Signature) : Bool :=
  match s.name with
  | .constructor => true
  | .name _ => false

/-! ## Matching -/

/-- The list and everything left of it after dropping from its front. -/
def suffixes {α : Type} : List α → List (List α)
  | [] => [[]]
  | a :: rest => (a :: rest) :: suffixes rest

/-- Do the types of arguments match the patterns, one for one but for `..`? -/
def acceptsArgs : List ArgPattern → List Ty → Bool
  | [], types => types.isEmpty
  | .anySequence :: rest, types => (suffixes types).any (acceptsArgs rest)
  | .any :: _, [] => false
  | .any :: rest, _ :: types => acceptsArgs rest types
  | .type _ :: _, [] => false
  | .type glob :: rest, ty :: types => glob.acceptsTy ty && acceptsArgs rest types

def NamePattern.accepts (pattern : NamePattern) (m : MethodRef) : Bool :=
  match pattern with
  | .constructor => m.isConstructor
  | .name glob => !m.isConstructor && glob.accepts m.name

/-- Is the member one of those the signature stands for? The declaring type may
match through a supertype; the types of parameters match exactly. -/
def accepts (s : Signature) (m : MethodRef) : Bool :=
  NamePattern.accepts s.name m && s.owner.acceptsTyOrSuper m.owner && acceptsArgs s.args m.params

end Signature

end JavaMend
