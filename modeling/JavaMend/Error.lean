import JavaMend.Text.Distance

/-!
# Errors

What can go wrong, from reading a configuration to writing a fix into a block,
and how each of it is told to the user. Whatever the engine as a whole fails
with is an `EngineError`, which says in front what part it comes from.
-/

namespace JavaMend

/-- A configuration or a catalog that cannot be used. -/
inductive ConfigError where
  /-- A setting outside the range it may have. -/
  | range (field value min max hint : String)
  /-- Settings for a remediation that the catalog does not have. -/
  | unknownRemediation (id : String) (known : List String)
  | duplicateRemediation (id : String)
  | invalidSignature (descriptor reason : String)
  | missingVersion
  | unsupportedVersion (found : Nat) (supported : List Nat)
  | unknownPreset (name : String)
  /-- A remediation that is switched off and has settings of its own. -/
  | disabledOverride (id hint : String)
  /-- A file that cannot be read. -/
  | file
  /-- A text that is no YAML document of the expected form. -/
  | yaml
  /-- A text that is no JSON document of the expected form. -/
  | json
  | invalid (reason : String)
deriving DecidableEq

/-- A hint at the name that was probably meant. -/
def suggestion (id : String) (known : List String) : String :=
  match nearestText? id known with
  | some nearest => s!"Did you mean '{nearest}'?"
  | none => "The catalog is empty"

def ConfigError.message : ConfigError → String
  | range field value min max hint =>
    s!"Invalid range for field '{field}': {value} not in {min}..={max}. {hint}"
  | unknownRemediation id known => s!"Unknown remediation '{id}'. " ++ suggestion id known
  | duplicateRemediation id => s!"Duplicate remediation id '{id}' in catalog"
  | invalidSignature descriptor reason => s!"Invalid method signature '{descriptor}': {reason}"
  | missingVersion =>
    "Missing 'version' field in configuration file. " ++
      "Add 'version: 1' to the top of your YAML file."
  | unsupportedVersion found supported =>
    s!"Unsupported configuration version {found}. Supported versions: " ++
      ", ".intercalate (supported.map toString)
  | unknownPreset name =>
    s!"Unknown preset '{name}'. Valid presets: fast, balanced, thorough, custom"
  | disabledOverride id hint =>
    s!"Remediation '{id}' is disabled but has configuration overrides. {hint}"
  | file => "IO error"
  | yaml => "YAML parsing error"
  | json => "JSON parsing error"
  | invalid reason => s!"Validation error: {reason}"

/-- A template that cannot be read or filled in. -/
inductive TemplateError where
  | malformedPlaceholder (placeholder : String)
  | arity (expected found : Nat)
  | unknownOperandType (index : Nat) (expected : String)
  | typeMismatch (index : Nat) (expected found : String)
  | notAnExpression (text : String)
deriving DecidableEq

def TemplateError.message : TemplateError → String
  | malformedPlaceholder placeholder =>
    "malformed placeholder '#\x7b" ++ placeholder ++ "\x7d' in template"
  | arity expected found => s!"template expects {expected} operands, got {found}"
  | unknownOperandType index expected =>
    s!"operand {index} has an unknown type, expected {expected}"
  | typeMismatch index expected found =>
    s!"operand {index} of type {found} is not assignable to {expected}"
  | notAnExpression text =>
    s!"template renders statements, an expression is required: {text}"

/-- A fragment that cannot go where it was meant to. -/
inductive SpliceError where
  /-- The anchor is none of the block's statements, of which there are so many. -/
  | strayAnchor (statements : Nat)
  | misplacedExpression
  /-- A splicer's own reason. -/
  | refused (reason : String)
deriving DecidableEq

def SpliceError.message : SpliceError → String
  | strayAnchor statements =>
    s!"anchor is not a statement of the target block ({statements} statements)"
  | misplacedExpression => "expression fragment can only replace an expression statement"
  | refused reason => reason

/-- Whatever the engine fails with. -/
inductive EngineError where
  | config (error : ConfigError)
  | template (error : TemplateError)
  | splice (error : SpliceError)
  | analysis (reason : String)
deriving DecidableEq

def EngineError.message : EngineError → String
  | config error => "Configuration error: " ++ error.message
  | template error => "Template error: " ++ error.message
  | splice error => "Splice error: " ++ error.message
  | analysis reason => "Analysis error: " ++ reason

end JavaMend
