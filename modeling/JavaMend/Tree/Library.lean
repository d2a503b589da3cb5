import JavaMend.Tree.Type

/-!
# Library members

The methods and constructors of the Java platform, and of a few well-known
libraries, that remediations look for or call in the code they write.
-/

namespace JavaMend.Jdk

/-! ## Files and paths -/

def fileOfParentAndChild : MethodRef := .constructor .file [.file, .string]

def fileOfStrings : MethodRef := .constructor .file [.string, .string]

def fileOfString : MethodRef := .constructor .file [.string]

def fileToPath : MethodRef := .method .file "toPath" [] .path

def fileGetCanonicalPath : MethodRef := .method .file "getCanonicalPath" [] .string

def fileGetCanonicalFile : MethodRef := .method .file "getCanonicalFile" [] .file

def fileGetAbsolutePath : MethodRef := .method .file "getAbsolutePath" [] .string

def fileDelete : MethodRef := .method .file "delete" [] .boolean

def fileMkdir : MethodRef := .method .file "mkdir" [] .boolean

def fileMkdirs : MethodRef := .method .file "mkdirs" [] .boolean

def fileCreateTempFile : MethodRef := .static .file "createTempFile" [.string, .string] .file

def fileCreateTempFileIn : MethodRef :=
  .static .file "createTempFile" [.string, .string, .file] .file

def pathNormalize : MethodRef := .method .path "normalize" [] .path

def pathStartsWithPath : MethodRef := .method .path "startsWith" [.path] .boolean

def pathStartsWithString : MethodRef := .method .path "startsWith" [.string] .boolean

def pathResolve : MethodRef := .method .path "resolve" [.string] .path

def pathToFile : MethodRef := .method .path "toFile" [] .file

def filesCreateTempFile : MethodRef :=
  .static (.known Fqn.files) "createTempFile" [.string, .string] .path

def filesCreateTempFileIn : MethodRef :=
  .static (.known Fqn.files) "createTempFile" [.path, .string, .string] .path

def filesCreateTempDirectory : MethodRef :=
  .static (.known Fqn.files) "createTempDirectory" [.string] .path

def filesCreateTempDirectoryIn : MethodRef :=
  .static (.known Fqn.files) "createTempDirectory" [.path, .string] .path

def fileOutputStreamOfString : MethodRef := .constructor (.known Fqn.fileOutputStream) [.string]

def fileOutputStreamOfFile : MethodRef := .constructor (.known Fqn.fileOutputStream) [.file]

/-! ## Strings -/

def stringStartsWith : MethodRef := .method .string "startsWith" [.string] .boolean

def stringGetBytes : MethodRef := .method .string "getBytes" [] .unknown

/-! ## Archive entries -/

def zipEntryGetName : MethodRef := .method (.known Fqn.zipEntry) "getName" [] .string

def zipArchiveEntryGetName : MethodRef := .method (.known Fqn.zipArchiveEntry) "getName" [] .string

/-! ## Randomness and time -/

def random : MethodRef := .constructor (.known Fqn.random) []

def randomSeeded : MethodRef := .constructor (.known Fqn.random) [.long]

def secureRandom : MethodRef := .constructor (.known Fqn.secureRandom) []

def secureRandomSetSeed : MethodRef := .method (.known Fqn.secureRandom) "setSeed" [.long] .void

def secureRandomNextBytes : MethodRef :=
  .method (.known Fqn.secureRandom) "nextBytes" [.unknown] .void

/-- `random(int, int, int, boolean, boolean, char[], Random)` of the `RandomStringUtils` class
`owner`; the character array has no static type of its own. -/
def randomStringUtilsRandom (owner : String) : MethodRef :=
  .static (.known owner) "random"
    [.int, .int, .int, .boolean, .boolean, .unknown, .known Fqn.random] .string

def randomStringUtilsRandomAlphanumeric (owner : String) : MethodRef :=
  .static (.known owner) "randomAlphanumeric" [.int] .string

def systemCurrentTimeMillis : MethodRef := .static (.known Fqn.system) "currentTimeMillis" [] .long

def systemNanoTime : MethodRef := .static (.known Fqn.system) "nanoTime" [] .long

def dateGetTime : MethodRef := .method (.known Fqn.date) "getTime" [] .long

/-! ## Cookies -/

def cookie : MethodRef := .constructor (.known Fqn.cookie) [.string, .string]

def cookieSetSecure : MethodRef := .method (.known Fqn.cookie) "setSecure" [.boolean] .void

/-! ## XML factories -/

def xmlInputFactoryNewInstance : MethodRef :=
  .static (.known Fqn.xmlInputFactory) "newInstance" [] (.known Fqn.xmlInputFactory)

def xmlInputFactorySetProperty : MethodRef :=
  .method (.known Fqn.xmlInputFactory) "setProperty" [.string, .object] .void

def xmlInputFactorySetResolver : MethodRef :=
  .method (.known Fqn.xmlInputFactory) "setXMLResolver" [.known Fqn.xmlResolver] .void

def documentBuilderFactoryNewInstance : MethodRef :=
  .static (.known Fqn.documentBuilderFactory) "newInstance" [] (.known Fqn.documentBuilderFactory)

def documentBuilderFactorySetFeature : MethodRef :=
  .method (.known Fqn.documentBuilderFactory) "setFeature" [.string, .boolean] .void

def documentBuilderFactorySetXincludeAware : MethodRef :=
  .method (.known Fqn.documentBuilderFactory) "setXIncludeAware" [.boolean] .void

def documentBuilderFactorySetExpandEntityReferences : MethodRef :=
  .method (.known Fqn.documentBuilderFactory) "setExpandEntityReferences" [.boolean] .void

def transformerFactoryNewInstance : MethodRef :=
  .static (.known Fqn.transformerFactory) "newInstance" [] (.known Fqn.transformerFactory)

def transformerFactorySetAttribute : MethodRef :=
  .method (.known Fqn.transformerFactory) "setAttribute" [.string, .object] .void

def transformerFactorySetFeature : MethodRef :=
  .method (.known Fqn.transformerFactory) "setFeature" [.string, .boolean] .void

/-! ## Privileges and exceptions -/

def accessControllerDoPrivileged : MethodRef :=
  .static (.known Fqn.accessController) "doPrivileged" [.known Fqn.privilegedAction] .object

def illegalStateException : MethodRef :=
  .constructor (.known Fqn.illegalStateException) [.string, .known Fqn.throwable]

end JavaMend.Jdk
