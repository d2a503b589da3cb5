import JavaMend.Text.CharClass
import JavaMend.Tree.Type

/-!
# Name patterns

A pattern for dotted names. `*` stands for any characters within one segment
of a name, `..` for a dot and any number of whole segments after it, and every
other character for itself.

Matching follows the sets of remainders: a token takes some front part of the
name, and `GlobToken.rests` lists what each such choice leaves. A name matches
if some choice for all tokens leaves nothing.
-/

namespace JavaMend

/-- The characters of the segments of a name. -/
def isNameChar (c : Char) : Bool := CharClass.isWord c || c == '$'

inductive GlobToken where
  /-- The character itself. -/
  | char (c : Char)
  /-- Any number of characters of one segment. -/
  | anyChars
  /-- A dot, then any number of segments, each with a dot after it. -/
  | anySegments
deriving DecidableEq

namespace GlobToken

/-- What is left of a name after each run of segment characters at its front,
the empty run first. -/
def afterChars : List Char → List (List Char)
  | [] => [[]]
  | c :: rest => (c :: rest) :: if isNameChar c then afterChars rest else []

/-- What is left of a name after each of its leading dots that ends a segment.
`named` says whether the current segment has a character already. -/
def afterSegments (named : Bool) : List Char → List (List Char)
  | [] => []
  | c :: rest =>
    if c == '.' then if named then rest :: afterSegments false rest else []
    else if isNameChar c then afterSegments true rest
    else []

/-- Everything the token can leave of a name. -/
def rests : GlobToken → List Char → List (List Char)
  | char c, d :: rest => if c == d then [rest] else []
  | char _, [] => []
  | anyChars, cs => afterChars cs
  | anySegments, '.' :: rest => rest :: afterSegments false rest
  | anySegments, _ => []

end GlobToken

/-- A pattern for dotted names. -/
abbrev Glob := List GlobToken

namespace Glob

/-- Everything a pattern can leave of the given names. -/
def rests (glob : Glob) (names : List (List Char)) : List (List Char) :=
  glob.foldl (fun left token => (left.flatMap token.rests).eraseDups) names

/-- Does the whole name match? -/
def accepts (glob : Glob) (name : String) : Bool := (glob.rests [name.toList]).contains []

/-- The tokens of a pattern. -/
def tokens : List Char → Glob
  | [] => []
  | '.' :: '.' :: rest => .anySegments :: tokens rest
  | '*' :: rest => .anyChars :: tokens rest
  | c :: rest => .char c :: tokens rest

/-- The characters of the segments of a pattern. -/
def isSegmentChar (c : Char) : Bool := isNameChar c || c == '*'

/-- Pairs of brackets and nothing else. -/
def isBrackets : List Char → Bool
  | [] => true
  | '[' :: ']' :: rest => isBrackets rest
  | _ => false

/-- The rest of a pattern after the first character of a segment: more of the
segment, one or two dots and another segment, or the brackets of an array. -/
def isSegmentsEnd : List Char → Bool
  | '.' :: '.' :: c :: rest => isSegmentChar c && isSegmentsEnd rest
  | '.' :: c :: rest => isSegmentChar c && isSegmentsEnd rest
  | c :: rest => if isSegmentChar c then isSegmentsEnd rest else isBrackets (c :: rest)
  | [] => true

/-- A pattern: segments that are not empty, one or two dots between them, and
then the brackets of an array type. -/
def isPattern : List Char → Bool
  | c :: rest => isSegmentChar c && isSegmentsEnd rest
  | [] => false

/-- The pattern that a text spells. -/
def ofText? (text : List Char) : Option Glob :=
  if isPattern text then some (tokens text) else none

/-- The wildcards of a pattern. -/
def wildcards (glob : Glob) : List GlobToken :=
  glob.filter fun
    | .char _ => false
    | .anyChars | .anySegments => true

/-- Does a type have a name that matches? Primitives go by their keywords. -/
def acceptsTy (glob : Glob) : Ty → Bool
  | .cls fqn _ => glob.accepts fqn
  | .primitive kind => glob.accepts kind.keyword
  | .null | .unknown => false

/-- Does a type or one of its supertypes have a name that matches? -/
def acceptsTyOrSuper (glob : Glob) : Ty → Bool
  | .cls fqn supers => glob.accepts fqn || supers.any glob.accepts
  | ty => glob.acceptsTy ty

end Glob

/-! ## Compiling -/

/-- What compiles the patterns that have wildcards: a library of regular
expressions. It refuses a pattern whose program would be larger than its limit.
Which patterns these are is up to the library, so what is said of descriptors
is said for any compiler. -/
class GlobCompiler where
  /-- Why the library refuses a pattern, if it does. -/
  refusal? : Glob → Option String

namespace GlobCompiler

/-- The compiler that refuses no pattern. It reads the descriptors that are part
of the program, which are small. -/
@[reducible] def unlimited : GlobCompiler where
  refusal? _ := none

/-- The compiler that programs run with. A compiled pattern takes 10 MiB at most,
and each wildcard, which stands for any letter of any script, some 20 kB of
them. The latter is an estimate. -/
@[reducible] def standard : GlobCompiler where
  refusal? glob :=
    if 20000 * glob.wildcards.length > 10485760 then
      some "Compiled regex exceeds size limit of 10485760 bytes."
    else none

/-- Is the pattern taken? One without wildcards stands for one name, and is not
compiled at all. -/
def Takes (compiler : GlobCompiler) (glob : Glob) : Prop :=
  glob.wildcards = [] ∨ compiler.refusal? glob = none

end GlobCompiler

end JavaMend
