import JavaMend.Settings.Config
import JavaMend.Yaml.Parser
import JavaMend.Yaml.Printer

/-!
# Configuration documents

A configuration is kept in a YAML document: its version, the preset it starts
from, which remediations run, and what is overridden. What a document leaves out
has the value of the middle preset in the areas it overrides, and follows its
own preset elsewhere. Field names that mean nothing are refused in the document
as a whole and passed over inside of an area.
-/

namespace JavaMend

/-! ## Reading the parts -/

open Yaml

/-- A sequence of texts, in order and each of them once. -/
def Yaml.Decode.textSet (y : Yaml) : Decode (List String) := do return orderedTexts (← Decode.texts y)

def RemediationControl.decode (y : Yaml) : Decode RemediationControl := do
  let fields ← Decode.record ["only", "disabled"] true y
  return {
    only := ← Decode.fieldOr fields "only" none (Decode.option Decode.textSet)
    disabled := ← Decode.fieldOr fields "disabled" [] Decode.textSet }

def FlowLimits.decode (y : Yaml) : Decode FlowLimits := do
  let fields ← Decode.record ["max_depth", "max_loop_iterations"] false y
  return {
    maxDepth := ← Decode.fieldOr fields "max_depth" standard.maxDepth (Decode.nat 64)
    maxLoopIterations :=
      ← Decode.fieldOr fields "max_loop_iterations" standard.maxLoopIterations (Decode.nat 64) }

def DriverSettings.decode (y : Yaml) : Decode DriverSettings := do
  let fields ← Decode.record ["max_cycles", "fail_fast"] false y
  let other := ofPreset .balanced
  return {
    maxCycles := ← Decode.fieldOr fields "max_cycles" other.maxCycles (Decode.nat 64)
    failFast := ← Decode.fieldOr fields "fail_fast" other.failFast Decode.bool }

def RemediationSettings.decode (y : Yaml) : Decode RemediationSettings := do
  let fields ← Decode.record
    ["new_variable_prefix", "fix_partial_path", "user_input_signatures", "external_dtds"] false y
  let other := ofPreset .balanced
  return {
    variableStem :=
      ← Decode.fieldOr fields "new_variable_prefix" other.variableStem (Decode.option Decode.text)
    fixPartialPath := ← Decode.fieldOr fields "fix_partial_path" other.fixPartialPath Decode.bool
    userInput := ← Decode.fieldOr fields "user_input_signatures" other.userInput Decode.texts
    externalDtds := ← Decode.fieldOr fields "external_dtds" other.externalDtds Decode.texts }

/-! ## Documents -/

/-- What a document overrides. -/
structure ConfigOverrides where
  flow : Option FlowLimits
  driver : Option DriverSettings
  /-- The settings of single remediations, in the order of their names. -/
  remediations : List (String × RemediationSettings)

/-- A document as it is written, before anything in it is judged. -/
structure ConfigDocument where
  version : Option Nat
  preset : String
  control : Option RemediationControl
  overrides : Option ConfigOverrides

/-- The settings of single remediations; of two for one name the later hold. -/
def ConfigOverrides.decodeEach (y : Yaml) : Decode (List (String × RemediationSettings)) := do
  (← Decode.fields y).foldlM (fun entries (id, value) => do
    return insertEntry id (← RemediationSettings.decode value) entries) []

def ConfigOverrides.decode (y : Yaml) : Decode ConfigOverrides := do
  let fields ← Decode.record ["flow", "driver", "remediations"] true y
  return {
    flow := ← Decode.fieldOr fields "flow" none (Decode.option FlowLimits.decode)
    driver := ← Decode.fieldOr fields "driver" none (Decode.option DriverSettings.decode)
    remediations := ← Decode.fieldOr fields "remediations" [] decodeEach }

namespace ConfigDocument

def decode (y : Yaml) : Decode ConfigDocument := do
  let fields ← Decode.record ["version", "preset", "remediations", "overrides"] true y
  let some preset := fields.lookup "preset" | failure
  return {
    version := ← Decode.fieldOr fields "version" none (Decode.option (Decode.nat 32))
    preset := ← Decode.text preset
    control := ← Decode.fieldOr fields "remediations" none (Decode.option RemediationControl.decode)
    overrides := ← Decode.fieldOr fields "overrides" none (Decode.option ConfigOverrides.decode) }

/-- What a text says, if it is a document and has the right form. -/
def parse? (text : String) : Option ConfigDocument :=
  (Document.parse? text).bind fun d => Decode.run? d decode

/-- The version that documents have. -/
def currentVersion : Nat := 1

/-- Only the current version can be read, and a document has to say that it has
that version. -/
def checkVersion (d : ConfigDocument) : Except ConfigError Unit :=
  match d.version with
  | none => .error .missingVersion
  | some found =>
    if found = currentVersion then .ok ()
    else .error (.unsupportedVersion found [currentVersion])

/-- Applies one override and records the document it comes from. -/
def override {α : Type} (origin area : String) (value : Option α) (set : α → Config → Config)
    (c : Config) : Config :=
  match value with
  | some value =>
    { set value c with provenance := c.provenance.track area (.document origin) }
  | none => c

/-- The configuration of a document under a preset. -/
def config (d : ConfigDocument) (preset : Preset) (origin : String) : Config :=
  let overrides := d.overrides.getD { flow := none, driver := none, remediations := [] }
  let base := Config.ofPreset preset
    |> override origin "remediations.control" d.control (fun control c => { c with control })
    |> override origin "flow.*" overrides.flow (fun flow c => { c with flow := some flow })
    |> override origin "driver.*" overrides.driver (fun driver c => { c with driver := some driver })
  overrides.remediations.foldl (fun c (id, settings) =>
    override origin (Provenance.remediationArea id) (some settings)
      (fun settings c => { c with remediations := insertEntry id settings c.remediations }) c) base

end ConfigDocument

/-- Reads a document; `origin` is the name it is known by. -/
def Config.ofYaml [GlobCompiler] (text origin : String) : Except ConfigError ValidConfig :=
  match ConfigDocument.parse? text with
  | none => .error .yaml
  | some document => do
    document.checkVersion
    match Preset.ofName? document.preset with
    | none => throw (.unknownPreset document.preset)
    | some preset => (document.config preset origin).build

/-! ## Writing -/

namespace Yaml

def ofNat (n : Nat) : Yaml := word (toString n)

def ofBool (b : Bool) : Yaml := word (toString b)

def ofTexts (values : List String) : Yaml := seq (values.map text)

/-- A mapping of those fields that have a value. -/
def ofFields (fields : List (String × Option Yaml)) : Yaml :=
  map (fields.filterMap fun (key, value) => value.map fun v => (text key, v))

end Yaml

/-- What is open is left out. -/
def RemediationControl.toYaml (c : RemediationControl) : Yaml :=
  .ofFields [("only", c.only.map .ofTexts),
    ("disabled", if c.disabled.isEmpty then none else some (.ofTexts c.disabled))]

def FlowLimits.toYaml (limits : FlowLimits) : Yaml :=
  .ofFields [("max_depth", some (.ofNat limits.maxDepth)),
    ("max_loop_iterations", some (.ofNat limits.maxLoopIterations))]

def DriverSettings.toYaml (settings : DriverSettings) : Yaml :=
  .ofFields [("max_cycles", some (.ofNat settings.maxCycles)),
    ("fail_fast", some (.ofBool settings.failFast))]

def RemediationSettings.toYaml (settings : RemediationSettings) : Yaml :=
  .ofFields [("new_variable_prefix", some ((settings.variableStem.map .text).getD (.word "null"))),
    ("fix_partial_path", some (.ofBool settings.fixPartialPath)),
    ("user_input_signatures", some (.ofTexts settings.userInput)),
    ("external_dtds", some (.ofTexts settings.externalDtds))]

/-- The document of a configuration. Areas that follow the preset are left out. -/
def Config.toYaml (c : Config) : Yaml :=
  let remediations := c.remediations.map fun (id, settings) => (id, some settings.toYaml)
  .ofFields [("version", some (.ofNat ConfigDocument.currentVersion)),
    ("preset", some (.text c.preset.name)),
    ("remediations", some c.control.toYaml),
    ("overrides", some (.ofFields [
      ("flow", c.flow.map FlowLimits.toYaml),
      ("driver", c.driver.map DriverSettings.toYaml),
      ("remediations", if remediations.isEmpty then none else some (.ofFields remediations))]))]

/-- The text of that document. -/
def Config.yamlText (c : Config) : String := c.toYaml.document

end JavaMend
