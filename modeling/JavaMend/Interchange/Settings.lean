import JavaMend.Settings.Config

/-!
# Settings as JSON

Settings come in as objects with the fields to change, and go out as objects
with all fields. A configuration comes in as a preset and a list of steps, each
an array of the name of the step and its arguments.
-/

namespace JavaMend.Interchange

/-- Programs run with the standard compiler. -/
instance : GlobCompiler := .standard

def natField? (j : Json) (name : String) : Option Nat := (j.intField? name).map Int.toNat

/-! ## Areas -/

def writeFlowLimits (limits : FlowLimits) : Json :=
  .obj [("max_depth", .ofNat limits.maxDepth),
    ("max_loop_iterations", .ofNat limits.maxLoopIterations)]

def writeDriverSettings (settings : DriverSettings) : Json :=
  .obj [("max_cycles", .ofNat settings.maxCycles), ("fail_fast", .bool settings.failFast)]

def writeRemediationSettings (settings : RemediationSettings) : Json :=
  .obj [("new_variable_prefix", .ofOption .str settings.variableStem),
    ("fix_partial_path", .bool settings.fixPartialPath),
    ("user_input_signatures", .ofStrings settings.userInput),
    ("external_dtds", .ofStrings settings.externalDtds)]

/-- The limits with the fields that are given. -/
def changeFlowLimits (j : Json) (limits : FlowLimits) : FlowLimits :=
  { maxDepth := (natField? j "max_depth").getD limits.maxDepth
    maxLoopIterations := (natField? j "max_loop_iterations").getD limits.maxLoopIterations }

/-- The settings with the fields that are given. -/
def changeDriverSettings (j : Json) (settings : DriverSettings) : DriverSettings :=
  { maxCycles := (natField? j "max_cycles").getD settings.maxCycles
    failFast := ((j.field? "fail_fast").bind Json.bool?).getD settings.failFast }

/-- The settings with the fields that are given; lists are added to. -/
def changeRemediationSettings (j : Json) (settings : RemediationSettings) : RemediationSettings :=
  { variableStem := (j.strField? "new_variable_prefix").or settings.variableStem
    fixPartialPath :=
      ((j.field? "fix_partial_path").bind Json.bool?).getD settings.fixPartialPath
    userInput := settings.userInput ++ j.strsOf "user_input_signatures"
    externalDtds := settings.externalDtds ++ j.strsOf "external_dtds" }

/-! ## Steps -/

/-- The argument of a step at a position, where the name of the step is at zero. -/
def argAt (step : Json) (index : Nat) : Json :=
  match step with
  | .arr items => items[index]?.getD .null
  | _ => .null

/-- The argument of a step that is a text. -/
def textAt (step : Json) (index : Nat) : String := ((argAt step index).str?).getD ""

/-- The argument of a step that is a number. -/
def natAt (step : Json) (index : Nat) : Nat := (((argAt step index).int?).getD 0).toNat

/-- The argument of a step that is a truth value. -/
def boolAt (step : Json) (index : Nat) : Bool := ((argAt step index).bool?).getD false

/-- Switches remediations on or off. -/
def controlStep (step : Json) (c : RemediationControl) : RemediationControl :=
  match textAt step 0 with
  | "enable" => c.enable (textAt step 1)
  | "disable" => c.disable (textAt step 1)
  | "only" => .onlyThese ((argAt step 1).children.filterMap (·.1.str?))
  | _ => c

def configStep (c : Config) (step : Json) : Config :=
  match textAt step 0 with
  | "strict" => c.withStrict (boolAt step 1)
  | "flow" => c.withFlow (changeFlowLimits (argAt step 1))
  | "driver" => c.withDriver (changeDriverSettings (argAt step 1))
  | "remediation" =>
    c.withRemediation (textAt step 1) (changeRemediationSettings (argAt step 2))
  | _ => c.withControl (controlStep step)

/-- Records who set an area. -/
def provenanceStep (p : Provenance) (step : Json) : Provenance :=
  p.track (textAt step 0) (match textAt step 1 with
    | "yaml" => .document (textAt step 2)
    | "preset" => .preset ((Preset.ofName? (textAt step 2)).getD .balanced)
    | _ => .builder)

end JavaMend.Interchange
