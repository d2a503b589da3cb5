import JavaMend.Json.Parser
import JavaMend.Json.Printer
import JavaMend.Remedy.Cookie
import JavaMend.Remedy.DocumentBuilder
import JavaMend.Remedy.PathTraversal
import JavaMend.Remedy.Privileged
import JavaMend.Remedy.Random
import JavaMend.Remedy.RandomString
import JavaMend.Remedy.Seed
import JavaMend.Remedy.TempFile
import JavaMend.Remedy.Transformer
import JavaMend.Remedy.XmlInput
import JavaMend.Settings.Preset

/-!
# Catalogs

A catalog lists remediations in the order they run in. Each entry has an id,
under which it can be configured, and says what it remedies and with which
parameters. Catalogs are read from and written as JSON.
-/

namespace JavaMend

/-- What an entry of a catalog remedies. -/
inductive Remediation where
  /-- Paths made from user input: the descriptors of the calls that answer it,
  how the names of new locals begin, whether partial paths are completed, and
  the message of guards. -/
  | pathTraversal (userInput : List String) (variableStem : String) (fixPartialPath : Bool)
      (guardMessage : String)
  | cookieSecure
  | secureRandom
  | secureRandomSeed
  | xmlInputFactory
  | documentBuilderFactory
  | transformerFactory
  | secureTempFile
  | tempDirectory
  | randomStringUtils
  | privilegedCode
deriving DecidableEq

namespace Remediation

def kindName : Remediation → String
  | pathTraversal .. => "path_traversal"
  | cookieSecure => "cookie_secure"
  | secureRandom => "secure_random"
  | secureRandomSeed => "secure_random_seed"
  | xmlInputFactory => "xml_input_factory"
  | documentBuilderFactory => "document_builder_factory"
  | transformerFactory => "transformer_factory"
  | secureTempFile => "secure_temp_file"
  | tempDirectory => "temp_directory"
  | randomStringUtils => "random_string_utils"
  | privilegedCode => "privileged_code"

/-- The remediations without parameters. -/
def plain : List Remediation :=
  [ cookieSecure, secureRandom, secureRandomSeed, xmlInputFactory, documentBuilderFactory,
    transformerFactory, secureTempFile, tempDirectory, randomStringUtils, privilegedCode ]

/-- The remediation of a name that has no parameters. -/
def ofKind? (kind : String) : Option Remediation := plain.find? (·.kindName == kind)

def defaultStem : String := "input"

def validate [GlobCompiler] : Remediation → Except ConfigError Unit
  | pathTraversal [] _ _ _ =>
    .error (.invalid "path_traversal needs at least one user_input signature")
  | pathTraversal userInput stem fixPartialPath _ =>
    RemediationSettings.validate
      { variableStem := some stem, fixPartialPath, userInput, externalDtds := [] }
  | _ => .ok ()

/-- The parameters of a path traversal together with the settings for it: the
settings replace the beginning of names, add sources, and can only switch the
completion of partial paths on. -/
def pathSettings [GlobCompiler] (userInput : List String) (stem : String) (fixPartialPath : Bool)
    (guardMessage : String) (settings : RemediationSettings) :
    Except ConfigError PathTraversal.PathSettings := do
  return {
    userInput := ← (userInput ++ settings.userInput).mapM readSignature
    variableStem := settings.variableStem.getD stem
    fixPartialPath := fixPartialPath || settings.fixPartialPath
    guardMessage }

/-- The pass of a remediation, with the settings for it. Findings are reported
under `id`. -/
def pass [GlobCompiler] (r : Remediation) (id : String) (settings : RemediationSettings)
    (env : PassEnv) : Except ConfigError Pass :=
  match r with
  | pathTraversal userInput stem fixPartialPath guardMessage => do
    let settings ← pathSettings userInput stem fixPartialPath guardMessage settings
    return PathTraversal.pass env settings
  | cookieSecure => .ok (Cookie.pass env)
  | secureRandom => .ok (Random.pass env)
  | secureRandomSeed => .ok (Seed.pass env)
  | xmlInputFactory => .ok (XmlInput.pass env settings.externalDtds)
  | documentBuilderFactory => .ok (DocumentBuilder.pass env settings.externalDtds)
  | transformerFactory => .ok (Transformer.pass env)
  | secureTempFile => .ok (TempFile.pass env)
  | tempDirectory => .ok (TempDirectory.pass env)
  | randomStringUtils => .ok (RandomString.pass env)
  | privilegedCode => .ok (Privileged.pass env id)

end Remediation

/-- One entry of a catalog. -/
structure CatalogEntry where
  id : String
  displayName : String
  tags : List String
  remediation : Remediation
deriving DecidableEq

/-- Runs an entry on a unit. -/
def CatalogEntry.run [GlobCompiler] (entry : CatalogEntry) (settings : RemediationSettings)
    (env : PassEnv) : Pass := fun unit =>
  match entry.remediation.pass entry.id settings env with
  | .ok pass => pass unit
  | .error e => throw (.config e)

/-- Remediations in the order they run in. -/
structure Catalog where
  entries : List CatalogEntry
deriving DecidableEq

namespace Catalog

def ids (c : Catalog) : List String := c.entries.map (·.id)

/-- The entry of an id. -/
def get? (c : Catalog) (id : String) : Option CatalogEntry := c.entries.find? (·.id == id)

/-! ## Validity -/

def validateEntry [GlobCompiler] (seen : List String) (entry : CatalogEntry) :
    Except ConfigError Unit := do
  if (trimWhite entry.id.toList).isEmpty then throw (.invalid "catalog entry with empty id")
  if seen.contains entry.id then throw (.duplicateRemediation entry.id)
  entry.remediation.validate

/-- Checks entries one after the other, where `seen` are the ids before them. -/
def validateFrom [GlobCompiler] (seen : List String) : List CatalogEntry → Except ConfigError Unit
  | [] => .ok ()
  | entry :: rest => do
    validateEntry seen entry
    validateFrom (entry.id :: seen) rest

/-- The catalog of some entries: no id is blank or used twice, and all
parameters are in order. -/
def make [GlobCompiler] (entries : List CatalogEntry) : Except ConfigError Catalog := do
  validateFrom [] entries
  return { entries }

/-- What the library can remedy. -/
def builtin : Catalog where
  entries :=
    [ { id := "zip-slip", displayName := "Zip slip", tags := ["CWE-22"],
        remediation := .pathTraversal
          ["java.util.zip.ZipEntry getName()",
            "org.apache.commons.compress.archivers.zip.ZipArchiveEntry getName()"]
          "zipEntry" false badZipEntry },
      { id := "cookie-secure", displayName := "Insecure cookie", tags := ["CWE-614"],
        remediation := .cookieSecure },
      { id := "secure-random", displayName := "Insecure randomness", tags := ["CWE-330"],
        remediation := .secureRandom },
      { id := "secure-random-seed", displayName := "Predictable SecureRandom seed",
        tags := ["CWE-337"], remediation := .secureRandomSeed },
      { id := "xml-input-factory", displayName := "XXE in XMLInputFactory",
        tags := ["CWE-611"], remediation := .xmlInputFactory },
      { id := "document-builder-factory", displayName := "XXE in DocumentBuilderFactory",
        tags := ["CWE-611"], remediation := .documentBuilderFactory },
      { id := "transformer-factory", displayName := "XXE in TransformerFactory",
        tags := ["CWE-611"], remediation := .transformerFactory },
      { id := "secure-temp-file", displayName := "Temporary file with default permissions",
        tags := ["CWE-377"], remediation := .secureTempFile },
      { id := "temp-directory", displayName := "Temporary directory hijacking",
        tags := ["CWE-379"], remediation := .tempDirectory },
      { id := "random-string-utils", displayName := "Predictable RandomStringUtils",
        tags := ["CWE-338"], remediation := .randomStringUtils },
      { id := "improper-privilege-management", displayName := "Improper privilege management",
        tags := ["CWE-269"], remediation := .privilegedCode } ]

/-! ## Writing -/

def remediationFields : Remediation → List (String × Json)
  | .pathTraversal userInput stem fixPartialPath guardMessage =>
    [ ("type", .str "path_traversal"), ("user_input", .ofStrings userInput),
      ("new_variable_prefix", .str stem), ("fix_partial_path", .bool fixPartialPath),
      ("guard_message", .str guardMessage) ]
  | r => [("type", .str r.kindName)]

def entryJson (entry : CatalogEntry) : Json :=
  .obj [("id", .str entry.id), ("display_name", .str entry.displayName),
    ("tags", .ofStrings entry.tags), ("remediation", .obj (remediationFields entry.remediation))]

/-- The catalog as a JSON document. -/
def text (c : Catalog) : String := (Json.arr (c.entries.map entryJson)).pretty

/-! ## Reading -/

mutual

/-- Does every part of a value stand for something? -/
def isSound : Json → Bool
  | .flawed => false
  | .arr items => allSound items
  | .obj fields => allFieldsSound fields
  | _ => true

/-- Does every part of some values stand for something? -/
def allSound : List Json → Bool
  | [] => true
  | item :: rest => isSound item && allSound rest

/-- Does every part of some fields stand for something? -/
def allFieldsSound : List (String × Json) → Bool
  | [] => true
  | (_, value) :: rest => isSound value && allFieldsSound rest

end

/-- The values of the named fields, in the order of the names; no answer if a
name is used twice. Fields of other names are passed over. -/
def fieldsOf? (names : List String) (fields : List (String × Json)) :
    Option (List (Option Json)) :=
  names.mapM fun name =>
    match fields.filter (·.1 == name) with
    | [] => some none
    | [(_, value)] => some (some value)
    | _ => none

/-- A list of texts. -/
def readTexts? : Json → Option (List String)
  | .arr items => items.mapM Json.str?
  | _ => none

/-- A value that is there and can be read, or the value for its absence. -/
def readOr {α : Type} (read? : Json → Option α) (default : α) : Option Json → Option α
  | some j => read? j
  | none => some default

/-- The remediation of a kind with some parameters. -/
def readParams? (kind : String) (values : List (Option Json)) : Option Remediation :=
  match values with
  | [some userInput, stem, fixPartialPath, guardMessage] =>
    if kind == "path_traversal" then do
      return .pathTraversal (← readTexts? userInput)
        (← readOr Json.str? Remediation.defaultStem stem)
        (← readOr Json.bool? false fixPartialPath) (← readOr Json.str? badZipEntry guardMessage)
    else none
  | _ => none

/-- A remediation: its type and its parameters by name, or the same by
position. -/
def readRemediation? (j : Json) : Option Remediation :=
  if !isSound j then none
  else
    match j with
    | .obj fields => do
      let [some (.str kind)] ← fieldsOf? ["type"] fields | none
      match Remediation.ofKind? kind with
      | some r => return r
      | none =>
        readParams? kind (← fieldsOf?
          ["user_input", "new_variable_prefix", "fix_partial_path", "guard_message"] fields)
    | .arr (.str kind :: values) =>
      match Remediation.ofKind? kind with
      | some r => if values.isEmpty then some r else none
      | none => readParams? kind (values.map some ++ List.replicate (4 - values.length) none)
    | _ => none

/-- An entry from its parts. -/
def readParts? : List (Option Json) → Option CatalogEntry
  | [some id, some displayName, tags, some remediation] => do
    return {
      id := ← id.str?
      displayName := ← displayName.str?
      tags := ← readOr readTexts? [] tags
      remediation := ← readRemediation? remediation }
  | _ => none

/-- An entry: its parts by name, or by position. -/
def readEntry? : Json → Option CatalogEntry
  | .obj fields => do
    readParts? (← fieldsOf? ["id", "display_name", "tags", "remediation"] fields)
  | .arr values => readParts? (values.map some)
  | _ => none

/-- The entries of a document. -/
def readEntries? : Json → Option (List CatalogEntry)
  | .arr items => items.mapM readEntry?
  | _ => none

/-- The catalog of a JSON document. -/
def ofText [GlobCompiler] (text : String) : Except ConfigError Catalog :=
  match (Json.parse? text).bind readEntries? with
  | some entries => make entries
  | none => .error .json

end Catalog

end JavaMend
