import JavaMend.Settings.Document
import JavaMend.Proofs.Text.Ordered
import JavaMend.Proofs.Yaml.Back

/-!
# Documents that are read back

A choice says of each setting of an area whether it is made and to what value. It can be
made over settings that are there already (`FlowChoice.onto` and its likes), and it can be
written into a document. Read from there it stands over the middle preset, whatever
preset the document names (`ConfigDocument.decode_written`).

A document has a preset, the switches of remediations, and choices for the areas
(`ConfigChoices`). What is read of such a document is what was written, over the middle
preset (`ConfigDocument.decode_document`), and the configuration it loads as has just that
(`ConfigDocument.config_eq`).

A valid configuration that is written as a document can be read from it, and the one that is
read has the same settings in force (`Config.ofYaml_yamlText`). What is assumed of the document
format is that the text of this document is read as a node that says what was
written (`Yaml.Back`).
-/

namespace JavaMend

open Yaml

/-! ## The areas -/

/-- A choice of flow limits. -/
structure FlowChoice where
  maxDepth : Option Nat
  maxLoopIterations : Option Nat

/-- A choice of settings of the driver. -/
structure DriverChoice where
  maxCycles : Option Nat
  failFast : Option Bool

/-- A choice of settings of one remediation. That names of locals begin as the catalog says
can be chosen, too. -/
structure RemediationChoice where
  variableStem : Option (Option String)
  fixPartialPath : Option Bool
  userInput : Option (List String)
  externalDtds : Option (List String)

namespace FlowChoice

/-- Every limit is chosen. -/
def all (limits : FlowLimits) : FlowChoice :=
  { maxDepth := some limits.maxDepth, maxLoopIterations := some limits.maxLoopIterations }

def onto (choice : FlowChoice) (base : FlowLimits) : FlowLimits :=
  { maxDepth := choice.maxDepth.getD base.maxDepth
    maxLoopIterations := choice.maxLoopIterations.getD base.maxLoopIterations }

def fields (choice : FlowChoice) : List (String × Option Yaml) :=
  [("max_depth", choice.maxDepth.map .ofNat), ("max_loop_iterations", choice.maxLoopIterations.map .ofNat)]

/-- The numbers that a document can hold. -/
def Fits (choice : FlowChoice) : Prop :=
  (∀ n ∈ choice.maxDepth, n < 2 ^ 64) ∧ ∀ n ∈ choice.maxLoopIterations, n < 2 ^ 64

theorem decode {choice : FlowChoice} {y : Yaml} (fits : choice.Fits) (back : Back y (.ofFields choice.fields)) :
    FlowLimits.decode y = pure (choice.onto .standard) := by
  have distinct : (choice.fields.map (·.1)).Nodup := by simp [fields]
  obtain ⟨found, read, isFound⟩ :=
    back.decode_record distinct ["max_depth", "max_loop_iterations"] false nofun
  have depth : Decode.fieldOr found "max_depth" FlowLimits.standard.maxDepth (Decode.nat 64) =
      pure (choice.maxDepth.getD FlowLimits.standard.maxDepth) :=
    isFound.fieldOr_self distinct rfl fun n y here back => back.decode_nat (fits.1 n here)
  have iterations : Decode.fieldOr found "max_loop_iterations" FlowLimits.standard.maxLoopIterations
      (Decode.nat 64) = pure (choice.maxLoopIterations.getD FlowLimits.standard.maxLoopIterations) :=
    isFound.fieldOr_self distinct rfl fun n y here back => back.decode_nat (fits.2 n here)
  simp only [FlowLimits.decode, read, depth, iterations, pure_bind]
  rfl

end FlowChoice

namespace DriverChoice

/-- Every setting is chosen. -/
def all (settings : DriverSettings) : DriverChoice :=
  { maxCycles := some settings.maxCycles, failFast := some settings.failFast }

def onto (choice : DriverChoice) (base : DriverSettings) : DriverSettings :=
  { maxCycles := choice.maxCycles.getD base.maxCycles, failFast := choice.failFast.getD base.failFast }

def fields (choice : DriverChoice) : List (String × Option Yaml) :=
  [("max_cycles", choice.maxCycles.map .ofNat), ("fail_fast", choice.failFast.map .ofBool)]

def Fits (choice : DriverChoice) : Prop := ∀ n ∈ choice.maxCycles, n < 2 ^ 64

theorem decode {choice : DriverChoice} {y : Yaml} (fits : choice.Fits)
    (back : Back y (.ofFields choice.fields)) :
    DriverSettings.decode y = pure (choice.onto (.ofPreset .balanced)) := by
  have distinct : (choice.fields.map (·.1)).Nodup := by simp [fields]
  obtain ⟨found, read, isFound⟩ := back.decode_record distinct ["max_cycles", "fail_fast"] false nofun
  have cycles (other : Nat) : Decode.fieldOr found "max_cycles" other (Decode.nat 64) =
      pure (choice.maxCycles.getD other) :=
    isFound.fieldOr_self distinct rfl fun n y here back => back.decode_nat (fits n here)
  have fast (other : Bool) : Decode.fieldOr found "fail_fast" other Decode.bool =
      pure (choice.failFast.getD other) :=
    isFound.fieldOr_self distinct rfl fun b y _ back => back.decode_bool
  simp only [DriverSettings.decode, read, cycles, fast, pure_bind]
  rfl

end DriverChoice

namespace RemediationChoice

/-- Every setting is chosen. -/
def all (settings : RemediationSettings) : RemediationChoice :=
  { variableStem := some settings.variableStem, fixPartialPath := some settings.fixPartialPath
    userInput := some settings.userInput, externalDtds := some settings.externalDtds }

def onto (choice : RemediationChoice) (base : RemediationSettings) : RemediationSettings :=
  { variableStem := choice.variableStem.getD base.variableStem
    fixPartialPath := choice.fixPartialPath.getD base.fixPartialPath
    userInput := choice.userInput.getD base.userInput
    externalDtds := choice.externalDtds.getD base.externalDtds }

/-- A name, or the word for none. -/
def stemYaml (stem : Option String) : Yaml := (stem.map .text).getD (.word "null")

def fields (choice : RemediationChoice) : List (String × Option Yaml) :=
  [("new_variable_prefix", choice.variableStem.map stemYaml),
    ("fix_partial_path", choice.fixPartialPath.map .ofBool),
    ("user_input_signatures", choice.userInput.map .ofTexts),
    ("external_dtds", choice.externalDtds.map .ofTexts)]

theorem decode_stem {stem : Option String} {y : Yaml} (back : Back y (stemYaml stem)) :
    Decode.option Decode.text y = pure stem := by
  cases stem with
  | none => exact back.decode_null
  | some name => exact back.decode_some nofun back.decode_text

theorem decode {choice : RemediationChoice} {y : Yaml} (back : Back y (.ofFields choice.fields)) :
    RemediationSettings.decode y = pure (choice.onto (.ofPreset .balanced)) := by
  have distinct : (choice.fields.map (·.1)).Nodup := by simp [fields]
  obtain ⟨found, read, isFound⟩ := back.decode_record distinct
    ["new_variable_prefix", "fix_partial_path", "user_input_signatures", "external_dtds"] false nofun
  have stem (other : Option String) : Decode.fieldOr found "new_variable_prefix" other
      (Decode.option Decode.text) = pure (choice.variableStem.getD other) :=
    isFound.fieldOr_self distinct rfl fun _ _ _ back => decode_stem back
  have partialPath (other : Bool) : Decode.fieldOr found "fix_partial_path" other Decode.bool =
      pure (choice.fixPartialPath.getD other) :=
    isFound.fieldOr_self distinct rfl fun _ _ _ back => back.decode_bool
  have input (other : List String) : Decode.fieldOr found "user_input_signatures" other Decode.texts =
      pure (choice.userInput.getD other) :=
    isFound.fieldOr_self distinct rfl fun _ _ _ back => back.decode_texts
  have dtds (other : List String) : Decode.fieldOr found "external_dtds" other Decode.texts =
      pure (choice.externalDtds.getD other) :=
    isFound.fieldOr_self distinct rfl fun _ _ _ back => back.decode_texts
  simp only [RemediationSettings.decode, read, stem, partialPath, input, dtds, pure_bind]
  rfl

end RemediationChoice

/-! ## Switches -/

/-- The same switches, with the names in order. -/
def RemediationControl.ordered (c : RemediationControl) : RemediationControl :=
  { only := c.only.map orderedTexts, disabled := orderedTexts c.disabled }

namespace RemediationControl

@[simp] theorem isEnabled_ordered (c : RemediationControl) (id : String) :
    c.ordered.isEnabled id = c.isEnabled id := by
  cases only : c.only with
  | none => simp [isEnabled, ordered, only]
  | some texts => simp [isEnabled, ordered, only]

theorem decode_textSet {texts : List String} {y : Yaml} (back : Back y (.ofTexts texts)) :
    Decode.textSet y = pure (orderedTexts texts) := by
  rw [Decode.textSet, back.decode_texts, pure_bind]

theorem decode_toYaml {c : RemediationControl} {y : Yaml} (back : Back y c.toYaml) :
    decode y = pure c.ordered := by
  -- An empty set of those that are switched off is not written.
  let disabled := if c.disabled.isEmpty then none else some c.disabled
  have written : c.toYaml = .ofFields [("only", c.only.map .ofTexts), ("disabled", disabled.map .ofTexts)] := by
    simp only [toYaml, disabled]
    split <;> rfl
  rw [written] at back
  have distinct : (["only", "disabled"] : List String).Nodup := by simp
  obtain ⟨found, read, isFound⟩ := back.decode_record distinct ["only", "disabled"] true (by simp)
  have only : Decode.fieldOr found "only" none (Decode.option Decode.textSet) =
      pure (c.only.map orderedTexts) := by
    rw [isFound.fieldOr distinct rfl fun texts y _ back =>
      back.decode_some (by rintro w ⟨⟩) (decode_textSet back)]
    cases c.only <;> rfl
  have off : Decode.fieldOr found "disabled" [] Decode.textSet = pure (orderedTexts c.disabled) := by
    rw [isFound.fieldOr distinct rfl fun texts y _ back => decode_textSet back]
    cases empty : c.disabled <;> simp [disabled, empty, orderedTexts]
  simp only [decode, read, only, off, pure_bind]
  rfl

end RemediationControl

/-! ## Choices for all areas -/

/-- Choices for the areas of a configuration. -/
structure ConfigChoices where
  flow : Option FlowChoice
  driver : Option DriverChoice
  /-- The choices for single remediations. -/
  remediations : List (String × RemediationChoice)
  distinct : (remediations.map (·.1)).Nodup

namespace ConfigChoices

def Fits (choices : ConfigChoices) : Prop :=
  (∀ c ∈ choices.flow, c.Fits) ∧ ∀ c ∈ choices.driver, c.Fits

/-- The settings of single remediations over the same base. -/
def remediationsOver (choices : ConfigChoices) (base : RemediationSettings) :
    List (String × RemediationSettings) :=
  choices.remediations.map fun r => (r.1, r.2.onto base)

/-- What is overridden if the choices are made over a preset. -/
def overrides (choices : ConfigChoices) (preset : Preset) : ConfigOverrides :=
  { flow := choices.flow.map (·.onto (.ofPreset preset))
    driver := choices.driver.map (·.onto (.ofPreset preset))
    remediations := tableOf (choices.remediationsOver (.ofPreset preset)) }

def remediationFields (choices : ConfigChoices) : List (String × Option Yaml) :=
  choices.remediations.map fun r => (r.1, some (.ofFields r.2.fields))

/-- The fields of the choices; a table of remediations without entries is not written. -/
def fields (choices : ConfigChoices) : List (String × Option Yaml) :=
  [("flow", choices.flow.map fun c => .ofFields c.fields),
    ("driver", choices.driver.map fun c => .ofFields c.fields),
    ("remediations",
      if choices.remediations.isEmpty then none else some (.ofFields choices.remediationFields))]

theorem distinct_over {choices : ConfigChoices} {base : RemediationSettings} :
    ((choices.remediationsOver base).map (·.1)).Nodup := by
  simpa [remediationsOver, Function.comp_def] using choices.distinct

theorem foldlM_decode {found : List (String × Yaml)} {entries table : List (String × RemediationSettings)}
    (decoded : List.Forall₂ (fun f e => f.1 = e.1 ∧ RemediationSettings.decode f.2 = pure e.2) found entries) :
    (found.foldlM (fun entries (id, value) => do
      return insertEntry id (← RemediationSettings.decode value) entries) table) =
      (pure (entries.foldl (fun table entry => insertEntry entry.1 entry.2 table) table) : Decode _) := by
  induction decoded generalizing table with
  | nil => rfl
  | cons both _ ih =>
    simp only [List.foldlM_cons, List.foldl_cons, both.1, both.2, pure_bind]
    exact ih

theorem decodeEach {choices : ConfigChoices} {y : Yaml}
    (back : Back y (.ofFields choices.remediationFields)) :
    ConfigOverrides.decodeEach y = pure (tableOf (choices.remediationsOver (.ofPreset .balanced))) := by
  obtain ⟨found, read, sorted, perm, each⟩ := back.decode_fields
  have decoded : List.Forall₂ (fun f e => f.1 = e.1 ∧ RemediationSettings.decode f.2 = pure e.2) sorted
      (choices.remediationsOver (.ofPreset .balanced)) := by
    clear perm
    have written : present choices.remediationFields =
        choices.remediations.map fun r => (r.1, .ofFields r.2.fields) := by
      simp [present, remediationFields]
    rw [written, List.forall₂_map_right_iff] at each
    rw [remediationsOver, List.forall₂_map_right_iff]
    exact each.imp fun _ _ both => ⟨both.1, RemediationChoice.decode both.2⟩
  obtain ⟨entries, all, perm'⟩ := List.perm_comp_forall₂ perm decoded
  rw [ConfigOverrides.decodeEach, read, pure_bind, foldlM_decode all]
  exact congrArg pure (tableOf_perm distinct_over perm')

theorem decode {choices : ConfigChoices} {y : Yaml} (fits : choices.Fits)
    (back : Back y (.ofFields choices.fields)) :
    ConfigOverrides.decode y = pure (choices.overrides .balanced) := by
  let written := if choices.remediations.isEmpty then none else some choices
  have split : choices.fields = [("flow", choices.flow.map fun c => .ofFields c.fields),
      ("driver", choices.driver.map fun c => .ofFields c.fields),
      ("remediations", written.map fun c => .ofFields c.remediationFields)] := by
    simp only [fields, written]
    split <;> rfl
  rw [split] at back
  have distinct : (["flow", "driver", "remediations"] : List String).Nodup := by simp
  obtain ⟨found, read, isFound⟩ :=
    back.decode_record distinct ["flow", "driver", "remediations"] true (by simp)
  have flow : Decode.fieldOr found "flow" none (Decode.option FlowLimits.decode) =
      pure (choices.flow.map (·.onto (.ofPreset .balanced))) := by
    rw [isFound.fieldOr distinct rfl fun c y here back =>
      back.decode_some (by rintro w ⟨⟩) (FlowChoice.decode (fits.1 c here) back)]
    cases choices.flow <;> rfl
  have driver : Decode.fieldOr found "driver" none (Decode.option DriverSettings.decode) =
      pure (choices.driver.map (·.onto (.ofPreset .balanced))) := by
    rw [isFound.fieldOr distinct rfl fun c y here back =>
      back.decode_some (by rintro w ⟨⟩) (DriverChoice.decode (fits.2 c here) back)]
    cases choices.driver <;> rfl
  have remediations : Decode.fieldOr found "remediations" [] ConfigOverrides.decodeEach =
      pure (tableOf (choices.remediationsOver (.ofPreset .balanced))) := by
    rw [isFound.fieldOr distinct rfl fun c y _ back => decodeEach back]
    cases empty : choices.remediations <;> simp [written, empty, remediationsOver, tableOf]
  simp only [ConfigOverrides.decode, read, flow, driver, remediations, pure_bind]
  rfl

end ConfigChoices

/-! ## Documents -/

namespace ConfigDocument

/-- The document of a preset, of switches and of choices. -/
def yaml (preset : Preset) (control : Option RemediationControl) (choices : Option ConfigChoices) : Yaml :=
  .ofFields [("version", some (.ofNat currentVersion)), ("preset", some (.text preset.name)),
    ("remediations", control.map (·.toYaml)), ("overrides", choices.map fun c => .ofFields c.fields)]

theorem decode_yaml {preset : Preset} {control : Option RemediationControl}
    {choices : Option ConfigChoices} {y : Yaml} (fits : ∀ c ∈ choices, c.Fits)
    (back : Back y (yaml preset control choices)) :
    decode y = pure
      { version := some currentVersion, preset := preset.name, control := control.map (·.ordered)
        overrides := choices.map (·.overrides .balanced) } := by
  have distinct : (["version", "preset", "remediations", "overrides"] : List String).Nodup := by simp
  obtain ⟨found, read, isFound⟩ :=
    back.decode_record distinct ["version", "preset", "remediations", "overrides"] true (by simp)
  have version : Decode.fieldOr found "version" none (Decode.option (Decode.nat 32)) =
      pure (some currentVersion) := by
    have field : List.lookup "version" [("version", some (ofNat currentVersion)),
        ("preset", some (.text preset.name)), ("remediations", control.map (·.toYaml)),
        ("overrides", choices.map fun c => .ofFields c.fields)] = some ((some currentVersion).map ofNat) := rfl
    have number : ∀ w, ofNat currentVersion = Yaml.word w → (w.isEmpty || isNullWord w) = false := by
      rintro w ⟨⟩
      decide
    rw [isFound.fieldOr distinct field fun n y here back => ?_]
    · rfl
    · cases here
      exact back.decode_some number (back.decode_nat (by decide))
  obtain ⟨node, there, isName⟩ := isFound.lookup_some (distinct.sublist present_names)
    (lookup_present "preset" distinct)
  have switches : Decode.fieldOr found "remediations" none (Decode.option RemediationControl.decode) =
      pure (control.map (·.ordered)) := by
    rw [isFound.fieldOr distinct rfl fun c y _ back =>
      back.decode_some (by rintro w ⟨⟩) (RemediationControl.decode_toYaml back)]
    cases control <;> rfl
  have overrides : Decode.fieldOr found "overrides" none (Decode.option ConfigOverrides.decode) =
      pure (choices.map (·.overrides .balanced)) := by
    rw [isFound.fieldOr distinct rfl fun c y here back =>
      back.decode_some (by rintro w ⟨⟩) (ConfigChoices.decode (fits c here) back)]
    cases choices <;> rfl
  simp only [decode, read, version, there, isName.decode_text, switches, overrides, pure_bind]

/-! ### What a document loads as -/

/-- What a document overrides, if it does. -/
def overridden (d : ConfigDocument) : ConfigOverrides :=
  d.overrides.getD { flow := none, driver := none, remediations := [] }

/-- The effective parts of the configuration of a document. -/
structure Loads (d : ConfigDocument) (preset : Preset) (c : Config) : Prop where
  preset : c.preset = preset
  control : c.control = d.control.getD .open_
  strict : c.strict = false
  flow : c.flow = d.overridden.flow
  driver : c.driver = d.overridden.driver
  remediations : c.remediations = tableOf d.overridden.remediations

/-- An override of a remediation leaves everything else as it is. -/
theorem foldl_override (origin : String) (entries : List (String × RemediationSettings)) (base : Config) :
    ∃ provenance, entries.foldl (fun c (id, settings) =>
      override origin (Provenance.remediationArea id) (some settings)
        (fun settings c => { c with remediations := insertEntry id settings c.remediations }) c) base =
      { base with
        remediations :=
          entries.foldl (fun table entry => insertEntry entry.1 entry.2 table) base.remediations
        provenance } := by
  induction entries generalizing base with
  | nil => exact ⟨base.provenance, rfl⟩
  | cons entry entries ih => exact ih _

theorem loads_config (d : ConfigDocument) (preset : Preset) (origin : String) :
    d.Loads preset (d.config preset origin) := by
  obtain ⟨provenance, folded⟩ := foldl_override origin d.overridden.remediations
    (Config.ofPreset preset
      |> override origin "remediations.control" d.control (fun control c => { c with control })
      |> override origin "flow.*" d.overridden.flow (fun flow c => { c with flow := some flow })
      |> override origin "driver.*" d.overridden.driver (fun driver c => { c with driver := some driver }))
  have loaded : d.config preset origin = _ := folded
  rw [loaded]
  constructor <;> cases d.control <;> cases d.overridden.flow <;> cases d.overridden.driver <;> rfl

theorem ofName?_name (preset : Preset) : Preset.ofName? preset.name = some preset := by
  cases preset <;> decide

/-- What was written as a document is loaded from it. -/
theorem ofYaml_of_back [GlobCompiler] {preset : Preset} {control : Option RemediationControl}
    {choices : Option ConfigChoices} {text : String} {d : Document} (fits : ∀ c ∈ choices, c.Fits)
    (parsed : Document.parse? text = some d) (back : Back d.root (yaml preset control choices))
    (origin : String) : ∃ document : ConfigDocument, document.control = control.map (·.ordered) ∧
      document.overrides = choices.map (·.overrides .balanced) ∧
        Config.ofYaml text origin = (document.config preset origin).build := by
  let document : ConfigDocument :=
    { version := some currentVersion, preset := preset.name, control := control.map (·.ordered)
      overrides := choices.map (·.overrides .balanced) }
  have read : parse? text = some document := by
    rw [parse?, parsed, Option.bind_some, Decode.run?, decode_yaml fits back]
    rfl
  refine ⟨document, rfl, rfl, ?_⟩
  simp only [Config.ofYaml, read, document, ofName?_name]
  rfl

end ConfigDocument

/-! ## Validity -/

theorem FlowLimits.validate_eq_ok {limits : FlowLimits} : limits.validate = .ok () ↔
    (0 < limits.maxDepth ∧ limits.maxDepth ≤ 4096) ∧
      0 < limits.maxLoopIterations ∧ limits.maxLoopIterations ≤ 1024 := by
  rw [validate]
  split
  · next outside =>
    simp only [bind, Except.bind, throw, throwThe, MonadExceptOf.throw, reduceCtorEq, false_iff]
    omega
  · split
    · next outside =>
      simp only [throw, throwThe, MonadExceptOf.throw, reduceCtorEq, false_iff]
      omega
    · simp only [pure, Except.pure, true_iff]
      omega

theorem DriverSettings.validate_eq_ok {settings : DriverSettings} : settings.validate = .ok () ↔
    0 < settings.maxCycles ∧ settings.maxCycles ≤ 100 := by
  rw [validate]
  split
  · next outside =>
    simp only [throw, throwThe, MonadExceptOf.throw, reduceCtorEq, false_iff]
    omega
  · simp only [pure, Except.pure, true_iff]
    omega

namespace Config

theorem bind_eq_ok {ε : Type} {first second : Except ε Unit} :
    (first >>= fun _ => second) = .ok () ↔ first = .ok () ∧ second = .ok () := by
  cases first <;> simp [bind, Except.bind]

theorem forM_eq_ok {ε α : Type} {f : α → Except ε Unit} {list : List α} :
    list.forM f = .ok () ↔ ∀ a ∈ list, f a = .ok () := by
  induction list with
  | nil => simp [pure, Except.pure]
  | cons a list ih =>
    rw [List.forall_mem_cons, ← ih]
    exact bind_eq_ok

theorem option_forM_eq_ok {ε α : Type} {f : α → Except ε Unit} {o : Option α} :
    o.forM f = .ok () ↔ ∀ a ∈ o, f a = .ok () := by
  cases o <;> simp [Option.forM, pure, Except.pure]

/-- A configuration is valid if its areas are and nothing is set that may not be. -/
theorem validate_eq_ok [GlobCompiler] {c : Config} : c.validate = .ok () ↔
    (∀ limits ∈ c.flow, limits.validate = .ok ()) ∧ (∀ settings ∈ c.driver, settings.validate = .ok ()) ∧
      (∀ r ∈ c.remediations, r.2.validate = .ok ()) ∧ ∀ r ∈ c.remediations, c.checkDisabled r.1 = .ok () := by
  have parts : c.validate = .ok () ↔ c.flow.forM FlowLimits.validate = .ok () ∧
      c.driver.forM DriverSettings.validate = .ok () ∧
        (c.remediations.forM fun r => r.2.validate) = .ok () ∧
          (c.remediations.forM fun r => c.checkDisabled r.1) = .ok () :=
    bind_eq_ok.trans (and_congr_right fun _ => bind_eq_ok.trans (and_congr_right fun _ => bind_eq_ok))
  rw [parts, option_forM_eq_ok, option_forM_eq_ok, forM_eq_ok, forM_eq_ok]

theorem build_eq_ok [GlobCompiler] {c : Config} {v : ValidConfig} :
    c.build = .ok v ↔ c.validate = .ok () ∧ v.config = c := by
  rw [build]
  split
  · next valid =>
    simp only [Except.ok.injEq, valid, true_and]
    constructor
    · rintro rfl
      rfl
    · rintro rfl
      rfl
  · next e invalid => simp [invalid]

/-! ## Tables of remediations -/

/-- The settings of single remediations are a table in order. -/
def Ordered (c : Config) : Prop := KeysAscend c.remediations

theorem ordered_ofPreset (preset : Preset) : (ofPreset preset).Ordered := .nil

theorem Ordered.withStrict {c : Config} (ordered : c.Ordered) (strict : Bool) :
    (c.withStrict strict).Ordered := ordered

theorem Ordered.withControl {c : Config} (ordered : c.Ordered)
    (change : RemediationControl → RemediationControl) : (c.withControl change).Ordered := ordered

theorem Ordered.withFlow {c : Config} (ordered : c.Ordered) (change : FlowLimits → FlowLimits) :
    (c.withFlow change).Ordered := ordered

theorem Ordered.withDriver {c : Config} (ordered : c.Ordered) (change : DriverSettings → DriverSettings) :
    (c.withDriver change).Ordered := ordered

theorem Ordered.withRemediation {c : Config} (ordered : c.Ordered) (id : String)
    (change : RemediationSettings → RemediationSettings) : (c.withRemediation id change).Ordered :=
  ordered.insertEntry

/-- What is loaded from a document is in order, too. -/
theorem ordered_of_ofYaml [GlobCompiler] {text origin : String} {v : ValidConfig}
    (loaded : ofYaml text origin = .ok v) :
    v.config.Ordered := by
  rw [ofYaml] at loaded
  split at loaded
  · cases loaded
  · next document _ =>
    cases version : document.checkVersion with
    | error e => simp [version, bind, Except.bind] at loaded
    | ok =>
      split at loaded
      · simp [version, bind, Except.bind] at loaded
      · next preset _ =>
        have built : (document.config preset origin).build = .ok v := by
          simpa [version, bind, Except.bind] using loaded
        rw [(build_eq_ok.mp built).2, Ordered, (document.loads_config preset origin).remediations]
        exact ascend_tableOf

/-! ## Choices that a configuration makes -/

/-- Every setting of the areas that are set. -/
def choices (c : Config) (ordered : c.Ordered) : ConfigChoices :=
  { flow := c.flow.map .all
    driver := c.driver.map .all
    remediations := c.remediations.map fun r => (r.1, .all r.2)
    distinct := by simpa [Function.comp_def] using ordered.nodup }

theorem toYaml_eq {c : Config} (ordered : c.Ordered) :
    c.toYaml = ConfigDocument.yaml c.preset (some c.control) (some (c.choices ordered)) := by
  have flow : c.flow.map FlowLimits.toYaml = (c.choices ordered).flow.map fun f => .ofFields f.fields := by
    rw [choices, Option.map_map]
    rfl
  have driver : c.driver.map DriverSettings.toYaml =
      (c.choices ordered).driver.map fun f => .ofFields f.fields := by
    rw [choices, Option.map_map]
    rfl
  have remediations : (c.remediations.map fun r => (r.1, some r.2.toYaml)) =
      (c.choices ordered).remediationFields := by
    rw [choices, ConfigChoices.remediationFields, List.map_map]
    rfl
  have empty : (c.choices ordered).remediationFields.isEmpty = (c.choices ordered).remediations.isEmpty := by
    simp [ConfigChoices.remediationFields]
  simp only [toYaml, flow, driver, remediations, empty]
  rfl

/-- Made over any preset, the choices are the settings that they were taken from. -/
theorem overrides_choices {c : Config} (ordered : c.Ordered) (preset : Preset) :
    (c.choices ordered).overrides preset =
      { flow := c.flow, driver := c.driver, remediations := c.remediations } := by
  have same : (c.choices ordered).remediationsOver (.ofPreset preset) = c.remediations := by
    rw [choices, ConfigChoices.remediationsOver, List.map_map]
    exact List.map_id c.remediations
  have flow : (c.choices ordered).flow.map (·.onto (.ofPreset preset)) = c.flow := by
    rw [choices, Option.map_map]
    exact Option.map_id_apply
  have driver : (c.choices ordered).driver.map (·.onto (.ofPreset preset)) = c.driver := by
    rw [choices, Option.map_map]
    exact Option.map_id_apply
  rw [ConfigChoices.overrides, same, tableOf_eq_self ordered, flow, driver]

theorem fits_choices [GlobCompiler] {c : Config} (ordered : c.Ordered)
    (valid : c.validate = .ok ()) :
    (c.choices ordered).Fits := by
  obtain ⟨flow, driver, -, -⟩ := validate_eq_ok.mp valid
  constructor
  · intro choice mem
    obtain ⟨limits, here, rfl⟩ := Option.map_eq_some_iff.mp mem
    obtain ⟨depth, iterations⟩ := FlowLimits.validate_eq_ok.mp (flow limits here)
    constructor <;> rintro n ⟨⟩ <;> omega
  · intro choice mem
    obtain ⟨settings, here, rfl⟩ := Option.map_eq_some_iff.mp mem
    have cycles := DriverSettings.validate_eq_ok.mp (driver settings here)
    rintro n ⟨⟩
    omega

/-! ## Reading back -/

/-- A valid configuration can be read from the document that is written of it, and has the
same preset, limits and driver, and the same settings for each remediation that runs. -/
theorem ofYaml_yamlText [GlobCompiler] {c : Config} {v : ValidConfig} (built : c.build = .ok v)
    (ordered : c.Ordered)
    {d : Document} (parsed : Document.parse? c.yamlText = some d) (back : Back d.root c.toYaml)
    (origin : String) :
    ∃ w, ofYaml c.yamlText origin = .ok w ∧ w.preset = v.preset ∧ w.flow = v.flow ∧
      w.driver = v.driver ∧ ∀ id, w.remediation? id = v.remediation? id := by
  obtain ⟨valid, rfl⟩ := build_eq_ok.mp built
  rw [toYaml_eq ordered] at back
  obtain ⟨document, control, overrides, loaded⟩ := ConfigDocument.ofYaml_of_back
    (by simpa using fits_choices ordered valid) parsed back origin
  obtain ⟨preset, switches, strict, flow, driver, remediations⟩ := document.loads_config v.config.preset origin
  have overridden : document.overridden =
      { flow := v.config.flow, driver := v.config.driver, remediations := v.config.remediations } := by
    simp only [ConfigDocument.overridden, overrides, Option.map_some, Option.getD_some, overrides_choices]
  rw [overridden] at flow driver remediations
  rw [control] at switches
  rw [tableOf_eq_self ordered] at remediations
  have stillValid : (document.config v.config.preset origin).validate = .ok () := by
    obtain ⟨limits, settings, each, -⟩ := validate_eq_ok.mp valid
    rw [validate_eq_ok, flow, driver, remediations]
    refine ⟨limits, settings, each, fun r _ => ?_⟩
    simp [checkDisabled, strict]
  refine ⟨⟨_, stillValid⟩, loaded.trans (build_eq_ok.mpr ⟨stillValid, rfl⟩), preset, ?_, ?_, fun id => ?_⟩
  · rw [ValidConfig.flow, ValidConfig.flow, ValidConfig.preset, flow, preset]
    rfl
  · rw [ValidConfig.driver, ValidConfig.driver, ValidConfig.preset, driver, preset]
    rfl
  · rw [ValidConfig.remediation?, ValidConfig.remediation?, ValidConfig.preset, switches, remediations, preset]
    simp [ValidConfig.preset]

/-- A deep walk with fewer steps of loops, and one remediation switched off. -/
def overridden : Config :=
  ((ofPreset .thorough).withControl (·.disable "zip-slip")).withFlow
    fun limits => { limits with maxLoopIterations := 8 }

section

attribute [local instance] GlobCompiler.standard

theorem ofYaml_yamlText_overridden : ∃ w, ofYaml overridden.yamlText "saved" = .ok w ∧
    w.preset = .thorough ∧ w.flow = { maxDepth := 256, maxLoopIterations := 8 } ∧
      w.driver = { maxCycles := 25, failFast := false } ∧ w.remediation? "zip-slip" = none := by
  have valid : overridden.validate = .ok () := by rfl
  have ordered : overridden.Ordered :=
    ((ordered_ofPreset .thorough).withControl _).withFlow _
  have readBack : (Document.parse? overridden.yamlText).any (isBack ·.root overridden.toYaml) = true := by
    decide +kernel
  obtain ⟨d, parsed, back⟩ := (Option.any_eq_true _ _).mp readBack
  obtain ⟨w, loaded, preset, flow, driver, remediations⟩ := ofYaml_yamlText
    (build_eq_ok.mpr ⟨valid, rfl⟩ : overridden.build = .ok ⟨overridden, valid⟩) ordered parsed
      (back_of_isBack back) "saved"
  exact ⟨w, loaded, preset, flow, driver, remediations _⟩

end

end Config

end JavaMend
