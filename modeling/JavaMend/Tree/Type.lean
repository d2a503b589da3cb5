/-!
# Static types

Every expression and declaration of a tree carries a `Ty`, given to it by
whoever resolved the source. A class type brings its flattened list of
supertypes along, so assignability is a membership test and never needs a
class path.

Types that are made from scratch, by a fix and not by a resolver, take their
supertypes from `knownSupers`. A class the table does not list is a direct
subclass of `java.lang.Object` as far as this library knows.
-/

namespace JavaMend

/-! ## Qualified names the library speaks about -/

namespace Fqn

def object : String := "java.lang.Object"
def string : String := "java.lang.String"
def system : String := "java.lang.System"
def throwable : String := "java.lang.Throwable"
def exception : String := "java.lang.Exception"
def runtimeException : String := "java.lang.RuntimeException"
def illegalStateException : String := "java.lang.IllegalStateException"
def ioException : String := "java.io.IOException"
def fileNotFoundException : String := "java.io.FileNotFoundException"
def file : String := "java.io.File"
def outputStream : String := "java.io.OutputStream"
def fileOutputStream : String := "java.io.FileOutputStream"
def serializable : String := "java.io.Serializable"
def path : String := "java.nio.file.Path"
def paths : String := "java.nio.file.Paths"
def files : String := "java.nio.file.Files"
def random : String := "java.util.Random"
def secureRandom : String := "java.security.SecureRandom"
def date : String := "java.util.Date"
def zipEntry : String := "java.util.zip.ZipEntry"
def zipArchiveEntry : String := "org.apache.commons.compress.archivers.zip.ZipArchiveEntry"
def cookie : String := "javax.servlet.http.Cookie"
def xmlInputFactory : String := "javax.xml.stream.XMLInputFactory"
def xmlResolver : String := "javax.xml.stream.XMLResolver"
def documentBuilderFactory : String := "javax.xml.parsers.DocumentBuilderFactory"
def parserConfigurationException : String := "javax.xml.parsers.ParserConfigurationException"
def xmlConstants : String := "javax.xml.XMLConstants"
def transformerFactory : String := "javax.xml.transform.TransformerFactory"
def randomStringUtils : String := "org.apache.commons.lang3.RandomStringUtils"
def legacyRandomStringUtils : String := "org.apache.commons.lang.RandomStringUtils"
def privilegedAction : String := "java.security.PrivilegedAction"
def accessController : String := "java.security.AccessController"

/-- The part of a dotted name before its last dot, and the part after it. A
name without a dot has no first part. -/
def splitLast (name : String) : Option String × String :=
  let backwards := name.toList.reverse
  match backwards.dropWhile (· != '.') with
  | [] => (none, name)
  | _ :: front =>
    (some (String.ofList front.reverse),
      String.ofList (backwards.takeWhile (· != '.')).reverse)

/-- The package of a qualified name, empty for a name without a dot. -/
def package (name : String) : String := (splitLast name).1.getD ""

/-- The unqualified name: everything after the last dot. -/
def simple (name : String) : String := (splitLast name).2

end Fqn

/-- The primitive types, `void` among them. -/
inductive Primitive where
  | boolean
  | byte
  | char
  | short
  | int
  | long
  | float
  | double
  | void
deriving DecidableEq

/-- The keyword a primitive type is written with. -/
def Primitive.keyword : Primitive → String
  | .boolean => "boolean"
  | .byte => "byte"
  | .char => "char"
  | .short => "short"
  | .int => "int"
  | .long => "long"
  | .float => "float"
  | .double => "double"
  | .void => "void"

/-- The static type of an expression or a declaration. -/
inductive Ty where
  /-- A reference type and its transitive supertypes, nearest first. -/
  | cls (fqn : String) (supers : List String)
  | primitive (kind : Primitive)
  /-- The type of the `null` literal. -/
  | null
  /-- Unresolved or erased. -/
  | unknown
deriving DecidableEq

namespace Ty

/-- Supertypes of the library classes that fixes make or look for. -/
def knownSupers : List (String × List String) :=
  let throwable := [Fqn.throwable, Fqn.object]
  let exception := Fqn.exception :: throwable
  [ (Fqn.object, []),
    (Fqn.string, [Fqn.object, "java.lang.CharSequence", "java.lang.Comparable"]),
    (Fqn.throwable, [Fqn.object]),
    (Fqn.exception, throwable),
    (Fqn.runtimeException, exception),
    (Fqn.illegalStateException, Fqn.runtimeException :: exception),
    (Fqn.ioException, exception),
    (Fqn.fileNotFoundException, Fqn.ioException :: exception),
    (Fqn.parserConfigurationException, exception),
    (Fqn.file, [Fqn.object, Fqn.serializable, "java.lang.Comparable"]),
    (Fqn.path,
      ["java.lang.Comparable", "java.lang.Iterable", "java.nio.file.Watchable", Fqn.object]),
    (Fqn.files, [Fqn.object]),
    (Fqn.random, [Fqn.object, Fqn.serializable]),
    (Fqn.secureRandom, [Fqn.random, Fqn.object, Fqn.serializable]),
    (Fqn.zipEntry, [Fqn.object, "java.lang.Cloneable"]),
    (Fqn.zipArchiveEntry, [Fqn.zipEntry, Fqn.object]),
    (Fqn.cookie, [Fqn.object, "java.lang.Cloneable", Fqn.serializable]),
    (Fqn.xmlInputFactory, [Fqn.object]),
    (Fqn.documentBuilderFactory, [Fqn.object]),
    (Fqn.transformerFactory, [Fqn.object]),
    (Fqn.xmlConstants, [Fqn.object]),
    (Fqn.outputStream, [Fqn.object, "java.io.Closeable", "java.io.Flushable"]),
    (Fqn.fileOutputStream, [Fqn.outputStream, Fqn.object, "java.io.Closeable"]) ]

/-- The class type of a name, with the supertypes this library knows for it. -/
def known (fqn : String) : Ty :=
  .cls fqn ((knownSupers.lookup fqn).getD [Fqn.object])

def string : Ty := known Fqn.string
def file : Ty := known Fqn.file
def path : Ty := known Fqn.path
def object : Ty := known Fqn.object
def boolean : Ty := .primitive .boolean
def int : Ty := .primitive .int
def long : Ty := .primitive .long
def void : Ty := .primitive .void

/-- The qualified name of a class type. -/
def fqn? : Ty → Option String
  | cls fqn _ => some fqn
  | _ => none

/-- How the type is written without its package: the simple name of a class,
the keyword of a primitive. -/
def simpleName? : Ty → Option String
  | cls fqn _ => some (Fqn.simple fqn)
  | primitive kind => some kind.keyword
  | _ => none

/-- Exactly this class, not one of its subclasses. -/
def isClass (ty : Ty) (fqn : String) : Bool := ty.fqn? == some fqn

/-- Can a value of this type be stored in a variable of class `target`? The
null type fits everywhere; a primitive or unknown type nowhere. -/
def assignableTo (ty : Ty) (target : String) : Bool :=
  match ty with
  | cls fqn supers => fqn == target || supers.contains target
  | null => true
  | _ => false

def isString (ty : Ty) : Bool := ty.isClass Fqn.string
def isFile (ty : Ty) : Bool := ty.isClass Fqn.file
def isPath (ty : Ty) : Bool := ty.isClass Fqn.path
def isUnknown (ty : Ty) : Bool := ty == unknown

instance : Inhabited Ty := ⟨unknown⟩

end Ty

/-- The library member a call site was resolved to. -/
structure MethodRef where
  /-- The type that declares the member. -/
  owner : Ty
  /-- The member's name; `MethodRef.constructorName` for a constructor. -/
  name : String
  params : List Ty
  /-- The declared result; a constructor results in its owner. -/
  result : Ty
  isStatic : Bool
deriving DecidableEq

namespace MethodRef

/-- The name constructors go by, here and in signature descriptors. -/
def constructorName : String := "<constructor>"

def method (owner : Ty) (name : String) (params : List Ty) (result : Ty) : MethodRef :=
  { owner, name, params, result, isStatic := false }

def static (owner : Ty) (name : String) (params : List Ty) (result : Ty) : MethodRef :=
  { owner, name, params, result, isStatic := true }

def constructor (owner : Ty) (params : List Ty) : MethodRef :=
  { owner, name := constructorName, params, result := owner, isStatic := false }

def isConstructor (m : MethodRef) : Bool := m.name == constructorName

end MethodRef

end JavaMend
