import Mathlib.Data.List.Induction
import JavaMend.Proofs.Text.Ordered
import JavaMend.Proofs.Settings.Documents

/-!
# Configurations that are built call by call

A program builds a configuration from a preset by calls, in any order, each of which changes
one area (`ConfigCall`). What is in force in the end is told apart area by area, from the
changes that were made to it alone (`configOf_flow` and the others like it).

The settings of a remediation go on from what the calls before have set, and so do the
switches. The flow limits and the driver start again from the preset: of their changes only
the last one counts, and it counts for all of them just when that makes no difference
(`inForce_last_and_inForce_all_iff`).
-/

namespace JavaMend

/-! ## Calls -/

/-- A remediation is switched on or off. -/
inductive Switch where
  | enable (id : String)
  | disable (id : String)

namespace Switch

def id : Switch → String
  | enable id => id
  | disable id => id

def apply (control : RemediationControl) : Switch → RemediationControl
  | enable id => control.enable id
  | disable id => control.disable id

end Switch

/-- A change of one area of a configuration. -/
inductive ConfigCall where
  | flow (change : FlowLimits → FlowLimits)
  | driver (change : DriverSettings → DriverSettings)
  | remediation (id : String) (change : RemediationSettings → RemediationSettings)
  | control (switches : List Switch)

namespace ConfigCall

def apply (c : Config) : ConfigCall → Config
  | flow change => c.withFlow change
  | driver change => c.withDriver change
  | remediation id change => c.withRemediation id change
  | control switches => c.withControl (switches.foldl Switch.apply ·)

def flow? : ConfigCall → Option (FlowLimits → FlowLimits)
  | flow change => some change
  | _ => none

def driver? : ConfigCall → Option (DriverSettings → DriverSettings)
  | driver change => some change
  | _ => none

def remediation? (id : String) : ConfigCall → Option (RemediationSettings → RemediationSettings)
  | remediation other change => if id = other then some change else none
  | _ => none

def switches : ConfigCall → List Switch
  | control switches => switches
  | _ => []

end ConfigCall

/-- The configuration that calls make of a preset. -/
def configOf (preset : Preset) (calls : List ConfigCall) : Config :=
  calls.foldl ConfigCall.apply (.ofPreset preset)

/-- What changes make of a value, one after the other. -/
def inTurn {α : Type} (changes : List (α → α)) (base : α) : α :=
  changes.foldl (fun a change => change a) base

/-- The last of some switches that is about a remediation. -/
def lastSwitch? (id : String) (switches : List Switch) : Option Switch :=
  (switches.filter (·.id = id)).getLast?

variable {preset : Preset} {calls : List ConfigCall} {call : ConfigCall} {c : Config}

theorem configOf_concat :
    configOf preset (calls ++ [call]) = call.apply (configOf preset calls) := by
  rw [configOf, List.foldl_concat]
  rfl

theorem inTurn_concat {α : Type} {changes : List (α → α)} {change : α → α} {base : α} :
    inTurn (changes ++ [change]) base = change (inTurn changes base) :=
  List.foldl_concat ..

/-! ## Areas -/

theorem configOf_preset : (configOf preset calls).preset = preset := by
  induction calls using List.reverseRecOn with
  | nil => rfl
  | append_singleton calls call ih =>
    rw [configOf_concat]
    refine Eq.trans ?_ ih
    cases call <;> rfl

/-- An area that is set from the same base again and again is what the last change makes of it. -/
theorem area_configOf {α : Type} {area : Config → Option α} {change? : ConfigCall → Option (α → α)}
    {base : α} (unset : area (.ofPreset preset) = none)
    (set : ∀ c call change, c.preset = preset → change? call = some change →
      area (call.apply c) = some (change base))
    (kept : ∀ c call, change? call = none → area (call.apply c) = area c) :
    area (configOf preset calls) =
      (calls.filterMap change?).getLast?.map fun change => change base := by
  induction calls using List.reverseRecOn with
  | nil => exact unset
  | append_singleton calls call ih =>
    rw [configOf_concat, List.filterMap_append]
    cases made : change? call with
    | none =>
      rw [kept _ call made, ih, List.filterMap_cons_none made, List.filterMap_nil, List.append_nil]
    | some change =>
      rw [set _ call change configOf_preset made, List.filterMap_cons_some made, List.filterMap_nil,
        List.getLast?_concat, Option.map_some]

theorem configOf_flow : (configOf preset calls).flow =
    (calls.filterMap ConfigCall.flow?).getLast?.map fun change => change (.ofPreset preset) := by
  apply area_configOf rfl
  · rintro c call change rfl made
    cases call <;> cases made
    rfl
  · intro c call made
    cases call <;> first | rfl | cases made

theorem configOf_driver : (configOf preset calls).driver =
    (calls.filterMap ConfigCall.driver?).getLast?.map fun change => change (.ofPreset preset) := by
  apply area_configOf rfl
  · rintro c call change rfl made
    cases call <;> cases made
    rfl
  · intro c call made
    cases call <;> first | rfl | cases made

/-- A change of a remediation goes on from what it is set to. -/
theorem configOf_remediations (id : String) :
    ((configOf preset calls).remediations.lookup id).getD (.ofPreset preset) =
      inTurn (calls.filterMap (ConfigCall.remediation? id)) (.ofPreset preset) := by
  induction calls using List.reverseRecOn with
  | nil => rfl
  | append_singleton calls call ih =>
    rw [configOf_concat, List.filterMap_append]
    cases call with
    | remediation other change =>
      have made : ((configOf preset calls).withRemediation other change).remediations.lookup id =
          if id = other then
            some (change (((configOf preset calls).remediations.lookup other).getD
              (.ofPreset (configOf preset calls).preset)))
          else (configOf preset calls).remediations.lookup id := lookup_insertEntry
      rw [ConfigCall.apply, made, configOf_preset]
      by_cases here : id = other
      · subst here
        simp only [ConfigCall.remediation?, if_true, List.filterMap_cons, List.filterMap_nil,
          Option.getD_some, inTurn_concat, ih]
      · simpa only [ConfigCall.remediation?, if_neg here, List.filterMap_cons, List.filterMap_nil,
          List.append_nil] using ih
    | _ => exact ih.trans (congrArg (inTurn · _) (List.append_nil _).symm)

theorem configOf_control : (configOf preset calls).control =
    (calls.flatMap (·.switches)).foldl Switch.apply .open_ := by
  induction calls using List.reverseRecOn with
  | nil => rfl
  | append_singleton calls call ih =>
    rw [configOf_concat, List.flatMap_append, List.foldl_append, ← ih, List.flatMap_singleton]
    cases call <;> rfl

/-! ## Switches -/

namespace RemediationControl

variable {control : RemediationControl} {id other : String}

theorem isEnabled_iff :
    control.isEnabled id ↔ id ∉ control.disabled ∧ ∀ only ∈ control.only, id ∈ only := by
  simp [isEnabled, Option.all_eq_true]

theorem isEnabled_enable :
    (control.enable other).isEnabled id ↔ id = other ∨ control.isEnabled id := by
  rw [isEnabled_iff, isEnabled_iff]
  by_cases here : id = other
  · simp [enable, here]
  · simp [enable, here]

theorem isEnabled_disable :
    (control.disable other).isEnabled id ↔ id ≠ other ∧ control.isEnabled id := by
  rw [isEnabled_iff, isEnabled_iff]
  simp [disable, and_assoc]

end RemediationControl

theorem lastSwitch?_concat {id : String} {switches : List Switch} {switch : Switch} :
    lastSwitch? id (switches ++ [switch]) =
      if switch.id = id then some switch else lastSwitch? id switches := by
  rw [lastSwitch?, List.filter_append]
  split
  · next here => simp [here]
  · next elsewhere => simp [elsewhere, lastSwitch?]

/-- A remediation runs if it was switched on last, or never was switched. -/
theorem isEnabled_foldl_apply (switches : List Switch) (id : String) :
    (switches.foldl Switch.apply .open_).isEnabled id ↔
      ∀ switch ∈ lastSwitch? id switches, switch = .enable id := by
  induction switches using List.reverseRecOn with
  | nil => simp [lastSwitch?, RemediationControl.isEnabled_iff, RemediationControl.open_]
  | append_singleton switches switch ih =>
    rw [List.foldl_concat, lastSwitch?_concat]
    cases switch with
    | enable other =>
      rw [Switch.apply, RemediationControl.isEnabled_enable, ih]
      by_cases here : id = other
      · simp [Switch.id, here]
      · simp [Switch.id, here, Ne.symm here]
    | disable other =>
      rw [Switch.apply, RemediationControl.isEnabled_disable, ih]
      by_cases here : id = other
      · simp [Switch.id, here]
      · simp [Switch.id, here, Ne.symm here]

/-! ## What is in force -/

/-- What is in force are the changes of every area, one after the other, where of those of
the flow limits and of the driver these count. -/
structure InForce [GlobCompiler] (preset : Preset) (calls : List ConfigCall)
    (flows : List (FlowLimits → FlowLimits))
    (drivers : List (DriverSettings → DriverSettings)) (v : ValidConfig) : Prop where
  flow : v.flow = inTurn flows (.ofPreset preset)
  driver : v.driver = inTurn drivers (.ofPreset preset)
  remediation : ∀ id, v.config.control.isEnabled id →
    v.remediation? id = some (inTurn (calls.filterMap (ConfigCall.remediation? id)) (.ofPreset preset))
  enabled : ∀ id, v.config.control.isEnabled id ↔
    ∀ switch ∈ lastSwitch? id (calls.flatMap (·.switches)), switch = .enable id

theorem inForce_last [GlobCompiler] {v : ValidConfig}
    (built : (configOf preset calls).build = .ok v) :
    InForce preset calls (calls.filterMap ConfigCall.flow?).getLast?.toList
      (calls.filterMap ConfigCall.driver?).getLast?.toList v := by
  have config : v.config = configOf preset calls := (Config.build_eq_ok.mp built).2
  have base : v.preset = preset := by rw [ValidConfig.preset, config, configOf_preset]
  constructor
  · rw [ValidConfig.flow, base, config, configOf_flow]
    cases (calls.filterMap ConfigCall.flow?).getLast? <;> rfl
  · rw [ValidConfig.driver, base, config, configOf_driver]
    cases (calls.filterMap ConfigCall.driver?).getLast? <;> rfl
  · intro id runs
    rw [ValidConfig.remediation?, if_pos runs, base, config, configOf_remediations]
  · intro id
    rw [config, configOf_control, isEnabled_foldl_apply]

/-- The changes of remediations and the switches add up. Of the changes of the flow limits and
of the driver the last ones are in force, and all of them are just if that is the same. -/
theorem inForce_last_and_inForce_all_iff [GlobCompiler] {v : ValidConfig}
    (built : (configOf preset calls).build = .ok v) :
    InForce preset calls (calls.filterMap ConfigCall.flow?).getLast?.toList
        (calls.filterMap ConfigCall.driver?).getLast?.toList v ∧
      (InForce preset calls (calls.filterMap ConfigCall.flow?) (calls.filterMap ConfigCall.driver?) v ↔
        inTurn (calls.filterMap ConfigCall.flow?) (.ofPreset preset) =
            inTurn (calls.filterMap ConfigCall.flow?).getLast?.toList (.ofPreset preset) ∧
          inTurn (calls.filterMap ConfigCall.driver?) (.ofPreset preset) =
            inTurn (calls.filterMap ConfigCall.driver?).getLast?.toList (.ofPreset preset)) := by
  have last := inForce_last built
  refine ⟨last, fun all => ⟨all.flow.symm.trans last.flow, all.driver.symm.trans last.driver⟩, ?_⟩
  rintro ⟨flow, driver⟩
  exact ⟨last.flow.trans flow.symm, last.driver.trans driver.symm, last.remediation, last.enabled⟩

/-- Both flow limits are set, by a call each. -/
def depthThenIterations : List ConfigCall :=
  [.flow ({ · with maxDepth := 10 }), .flow ({ · with maxLoopIterations := 4 })]

section

attribute [local instance] GlobCompiler.standard

/-- The depth that is set first is not in force. -/
theorem inForce_depthThenIterations : ∃ v, (configOf .balanced depthThenIterations).build = .ok v ∧
    v.flow = { maxDepth := 64, maxLoopIterations := 4 } ∧
      ¬ InForce .balanced depthThenIterations (depthThenIterations.filterMap ConfigCall.flow?)
        (depthThenIterations.filterMap ConfigCall.driver?) v := by
  have builds : ∃ v, (configOf .balanced depthThenIterations).build = .ok v := ⟨⟨_, rfl⟩, rfl⟩
  obtain ⟨v, built⟩ := builds
  obtain ⟨last, all⟩ := inForce_last_and_inForce_all_iff built
  refine ⟨v, built, last.flow, fun accumulated => ?_⟩
  have same := (all.mp accumulated).1
  revert same
  decide

end

end JavaMend
