import JavaMend.Settings.Control
import JavaMend.Settings.Provenance

/-!
# Configuration

A configuration starts from a preset and overrides areas of it one by one. It
is used only once it has been found valid: an engine takes a `ValidConfig`,
which carries the proof.
-/

namespace JavaMend

/-- A configuration as it is put together. -/
structure Config where
  preset : Preset
  control : RemediationControl
  /-- Is it an error to set a remediation that is switched off? -/
  strict : Bool
  flow : Option FlowLimits
  driver : Option DriverSettings
  /-- The settings of single remediations, in the order of their names. -/
  remediations : List (String × RemediationSettings)
  provenance : Provenance

namespace Config

def ofPreset (preset : Preset) : Config :=
  { preset, control := .open_, strict := false, flow := none, driver := none,
    remediations := [], provenance := .ofPreset preset }

/-- The configuration that holds where there is no other. -/
def standard : Config := ofPreset .balanced

/-! ## Overrides -/

/-- Records that the program set an area. -/
def trackBuilder (c : Config) (area : String) : Config :=
  { c with provenance := c.provenance.track area .builder }

def withStrict (c : Config) (strict : Bool) : Config := { c with strict }

def withControl (c : Config) (change : RemediationControl → RemediationControl) : Config :=
  { c with control := change c.control }.trackBuilder "remediations.control"

/-- Sets the flow limits, starting from the preset's. -/
def withFlow (c : Config) (change : FlowLimits → FlowLimits) : Config :=
  { c with flow := some (change (.ofPreset c.preset)) }.trackBuilder "flow.*"

/-- Sets the driver, starting from the preset's. -/
def withDriver (c : Config) (change : DriverSettings → DriverSettings) : Config :=
  { c with driver := some (change (.ofPreset c.preset)) }.trackBuilder "driver.*"

/-- Sets one remediation, starting from what it is set to. -/
def withRemediation (c : Config) (id : String)
    (change : RemediationSettings → RemediationSettings) : Config :=
  let base := (c.remediations.lookup id).getD (.ofPreset c.preset)
  { c with remediations := insertEntry id (change base) c.remediations }.trackBuilder
    (Provenance.remediationArea id)

/-! ## Validity -/

/-- What to do about a remediation that is set and switched off. -/
def disabledHint (id : String) : String :=
  s!"Remove .remediation(\"{id}\", ..) or enable it with " ++
    s!".with_remediations(|r| r.enable(\"{id}\"))"

def checkDisabled (c : Config) (id : String) : Except ConfigError Unit :=
  if c.strict && !c.control.isEnabled id then .error (.disabledOverride id (disabledHint id))
  else .ok ()

/-- Every area that is set is within its range, and under `strict` nothing is
set that does not run. -/
def validate [GlobCompiler] (c : Config) : Except ConfigError Unit := do
  c.flow.forM FlowLimits.validate
  c.driver.forM DriverSettings.validate
  c.remediations.forM fun (_, settings) => settings.validate
  c.remediations.forM fun (id, _) => c.checkDisabled id

end Config

/-- A configuration that was found valid. -/
structure ValidConfig [GlobCompiler] where
  config : Config
  valid : config.validate = .ok ()

/-- Checks a configuration. -/
def Config.build [GlobCompiler] (c : Config) : Except ConfigError ValidConfig :=
  match h : c.validate with
  | .ok () => .ok ⟨c, h⟩
  | .error e => .error e

namespace ValidConfig

/-- The configuration that holds where there is no other. -/
def standard [GlobCompiler] : ValidConfig := ⟨.standard, rfl⟩

def preset [GlobCompiler] (v : ValidConfig) : Preset := v.config.preset

/-- The flow limits in force. -/
def flow [GlobCompiler] (v : ValidConfig) : FlowLimits := v.config.flow.getD (.ofPreset v.preset)

/-- The driver settings in force. -/
def driver [GlobCompiler] (v : ValidConfig) : DriverSettings := v.config.driver.getD
    (.ofPreset v.preset)

/-- The settings in force for a remediation, if it runs. -/
def remediation? [GlobCompiler] (v : ValidConfig) (id : String) : Option RemediationSettings :=
  if v.config.control.isEnabled id then
    some ((v.config.remediations.lookup id).getD (.ofPreset v.preset))
  else none

/-- The names of remediations that the configuration mentions. -/
def mentioned [GlobCompiler] (v : ValidConfig) : List String :=
  v.config.remediations.map (·.1) ++ v.config.control.mentioned

/-- Fails at the first name that is none of `known`. -/
def checkKnown [GlobCompiler] (v : ValidConfig) (known : List String) : Except ConfigError Unit :=
  match v.mentioned.find? (!known.contains ·) with
  | some id => .error (.unknownRemediation id (orderedTexts known))
  | none => .ok ()

/-- The configuration in one line. -/
def describe [GlobCompiler] (v : ValidConfig) : String :=
  s!"{v.preset.name} [max_depth={v.flow.maxDepth}, " ++
    s!"max_loop_iterations={v.flow.maxLoopIterations}, max_cycles={v.driver.maxCycles}" ++
    (if v.driver.failFast then ", fail_fast" else "") ++ "]"

end ValidConfig

end JavaMend
