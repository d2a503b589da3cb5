import JavaMend.Error
import JavaMend.Flow.Query
import JavaMend.Match.Signature
import JavaMend.Text.CharClass

/-!
# Presets and settings

The three areas that can be set: how far flows are followed, how long fixing
goes on, and what single remediations look for. A preset gives each of them a
value; the preset in the middle is the one that holds where none is chosen.
-/

namespace JavaMend

/-- A choice of settings for a common situation. -/
inductive Preset where
  /-- Shallow walks and few cycles. -/
  | fast
  | balanced
  /-- Deep walks, and partial paths are fixed. -/
  | thorough
  /-- Like `balanced`, meant to be overridden. -/
  | custom
deriving DecidableEq

namespace Preset

def all : List Preset := [fast, balanced, thorough, custom]

def name : Preset → String
  | fast => "fast"
  | balanced => "balanced"
  | thorough => "thorough"
  | custom => "custom"

/-- The preset of a name, in whatever case it is written. -/
def ofName? (name : String) : Option Preset :=
  all.find? (·.name.toList == name.toList.map Char.toLower)

end Preset

/-! ## Flows -/

namespace FlowLimits

def ofPreset : Preset → FlowLimits
  | .fast => { maxDepth := 32, maxLoopIterations := 4 }
  | .balanced => .standard
  | .thorough => { maxDepth := 256, maxLoopIterations := 32 }
  | .custom => .standard

def validate (limits : FlowLimits) : Except ConfigError Unit := do
  if limits.maxDepth = 0 ∨ limits.maxDepth > 4096 then
    throw (.range "max_depth" (toString limits.maxDepth) "1" "4096"
      "Statement nesting depth must be at least 1")
  if limits.maxLoopIterations = 0 ∨ limits.maxLoopIterations > 1024 then
    throw (.range "max_loop_iterations" (toString limits.maxLoopIterations) "1" "1024"
      "Loop fixed point needs at least one iteration")

end FlowLimits

/-! ## Cycles -/

/-- How long fixing goes on. -/
structure DriverSettings where
  /-- A unit is gone over at most this often. -/
  maxCycles : Nat
  /-- Does the first remediation that fails end the run? -/
  failFast : Bool
deriving DecidableEq

namespace DriverSettings

def ofPreset : Preset → DriverSettings
  | .fast => { maxCycles := 3, failFast := false }
  | .balanced => { maxCycles := 10, failFast := false }
  | .thorough => { maxCycles := 25, failFast := false }
  | .custom => { maxCycles := 10, failFast := false }

def validate (settings : DriverSettings) : Except ConfigError Unit := do
  if settings.maxCycles = 0 ∨ settings.maxCycles > 100 then
    throw (.range "max_cycles" (toString settings.maxCycles) "1" "100"
      "At least one cycle is needed to apply fixes")

end DriverSettings

/-! ## Remediations -/

/-- What one remediation is told. What it has no use for it ignores. -/
structure RemediationSettings where
  /-- How the names of new locals begin, if not as the catalog says. -/
  variableStem : Option String
  fixPartialPath : Bool
  /-- Descriptors of calls that answer user input, besides the catalog's. -/
  userInput : List String
  /-- The document type definitions that the project uses. -/
  externalDtds : List String
deriving DecidableEq

/-- A name that Java takes for a variable, keywords aside. -/
def isIdentifier (name : String) : Bool :=
  match name.toList with
  | [] => false
  | first :: rest =>
    (CharClass.isAlphabetic first || first == '_' || first == '$') &&
      rest.all fun c => CharClass.isAlphanumeric c || c == '_' || c == '$'

/-- Reads a descriptor. -/
def readSignature [GlobCompiler] (descriptor : String) : Except ConfigError Signature :=
  match Signature.parse descriptor with
  | .ok signature => .ok signature
  | .error e => .error (.invalidSignature e.descriptor e.fault.reason)

namespace RemediationSettings

def ofPreset (preset : Preset) : RemediationSettings :=
  { variableStem := none, fixPartialPath := preset = .thorough, userInput := [],
    externalDtds := [] }

/-- A definition that can be named: not blank and without quotes. -/
def isDtdName (name : String) : Bool :=
  !(trimWhite name.toList).isEmpty && !name.toList.contains '"'

def validateStem (stem : Option String) : Except ConfigError Unit :=
  match stem with
  | some name =>
    if isIdentifier name then .ok ()
    else .error (.invalid s!"new_variable_prefix must be a Java identifier, got '{name}'")
  | none => .ok ()

def validateDtd (name : String) : Except ConfigError Unit :=
  if isDtdName name then .ok ()
  else .error (.invalid s!"external_dtds entries must be non-empty and quote-free, got '{name}'")

def validate [GlobCompiler] (settings : RemediationSettings) : Except ConfigError Unit := do
  validateStem settings.variableStem
  settings.userInput.forM fun descriptor => discard (readSignature descriptor)
  settings.externalDtds.forM validateDtd

end RemediationSettings

end JavaMend
