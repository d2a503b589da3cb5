import JavaMend.Engine
import JavaMend.Interchange.Writer

/-!
# Writing reports

Errors, findings and outcomes as JSON. An error is written as its kind and its
message. What a file or the text of a document is wrong about is not told, so
those errors have no message here.
-/

namespace JavaMend.Interchange

/-! ## Errors -/

def writeFailure (kind message : String) : Json :=
  .obj [("error", .str kind), ("message", .str message)]

/-- The kind of an error, and whether its message is written. -/
def configKind : ConfigError → String × Bool
  | .range .. => ("Config.Range", true)
  | .unknownRemediation .. => ("Config.UnknownRemediation", true)
  | .duplicateRemediation _ => ("Config.DuplicateRemediation", true)
  | .invalidSignature .. => ("Config.InvalidSignature", true)
  | .missingVersion => ("Config.MissingVersion", true)
  | .unsupportedVersion .. => ("Config.UnsupportedVersion", true)
  | .unknownPreset _ => ("Config.UnknownPreset", true)
  | .disabledOverride .. => ("Config.DisabledRemediationOverride", true)
  | .file => ("Config.Io", false)
  | .yaml => ("Config.Yaml", false)
  | .json => ("Config.Json", false)
  | .invalid _ => ("Config.Validation", true)

def templateKind : TemplateError → String
  | .malformedPlaceholder _ => "Template.MalformedPlaceholder"
  | .arity .. => "Template.Arity"
  | .unknownOperandType .. => "Template.UnknownOperandType"
  | .typeMismatch .. => "Template.TypeMismatch"
  | .notAnExpression _ => "Template.NotAnExpression"

/-- A configuration error under a message. -/
def writeConfigErrorAs (message : String) (e : ConfigError) : Json :=
  match configKind e with
  | (kind, true) => writeFailure kind message
  | (kind, false) => .obj [("error", .str kind)]

def writeConfigError (e : ConfigError) : Json := writeConfigErrorAs e.message e

def writeTemplateError (e : TemplateError) : Json := writeFailure (templateKind e) e.message

def writeEngineError (e : EngineError) : Json :=
  match e with
  | .config inner => writeConfigErrorAs e.message inner
  | .template inner => writeFailure (templateKind inner) e.message
  | .splice _ => writeFailure "Splice" e.message
  | .analysis _ => writeFailure "Analysis" e.message

def writeSignatureError (e : SignatureError) : Json := writeFailure "Signature" e.message

/-! ## Results -/

def writeFinding (f : Finding) : Json :=
  .obj [("id", .str f.remediation), ("location", .str f.location), ("snippet", .str f.snippet),
    ("display", .str f.text)]

def writeRunFailure (f : RunFailure) : Json :=
  .obj [("id", .str f.remediation), ("cycle", .ofNat f.cycle), ("message", .str f.message),
    ("display", .str f.text)]

/-- The fields of an outcome, compared with the unit it started from. -/
def outcomeFields (start : CompilationUnit) (o : Outcome) : List (String × Json) :=
  [("text", .str o.unit.text), ("same", .bool (o.unit.id == start.id)),
    ("changed", .bool o.changed), ("failed", .bool o.failed), ("cycles", .ofNat o.cycles),
    ("passes", .ofNat o.appliedPasses), ("failures", .arr (o.failures.map writeRunFailure)),
    ("findings", .arr (o.findings.map writeFinding)), ("summary", .str o.summary)]

/-! ## Patches -/

def writeFragment : Fragment → Json
  | .statements stmts =>
    .obj [("statements", .ofStrings (stmts.map (·.text))), ("dump", .arr (stmts.map writeStmt))]
  | .expression e => .obj [("expression", .str e.text), ("dump", writeExpr e)]

def writeTemplate (t : Template) : Json :=
  .obj [("text", .str t.text), ("params", .arr (t.params.map (.ofOption .str))),
    ("imports", .ofStrings t.imports)]

/-- A pending fix: its sort, its anchor and the expression it is about. -/
def writeFix (f : PendingFix) : Json :=
  .ofStrings [f.kind.tag.text, f.anchor.text, f.tainted.text]

end JavaMend.Interchange
