import JavaMend.Proofs.Settings.Documents

/-!
# Overriding by document and by program

The same choices can be made in a document and by a program that builds a configuration.
A program makes them over the preset (`ConfigChoices.built`), a document over the middle
preset. Both give a configuration, and the two have the same settings in force if every area
that is written chooses what its preset has of its own, and in no other case
(`ConfigChoices.loaded_eq_built_iff`).
-/

namespace JavaMend

open Yaml

/-! ## Valid choices -/

def FlowChoice.Valid (choice : FlowChoice) : Prop :=
  (∀ n ∈ choice.maxDepth, 0 < n ∧ n ≤ 4096) ∧ ∀ n ∈ choice.maxLoopIterations, 0 < n ∧ n ≤ 1024

def DriverChoice.Valid (choice : DriverChoice) : Prop := ∀ n ∈ choice.maxCycles, 0 < n ∧ n ≤ 100

structure RemediationChoice.Valid [GlobCompiler] (choice : RemediationChoice) : Prop where
  variableStem : ∀ stem ∈ choice.variableStem, ∀ name ∈ stem, isIdentifier name = true
  userInput : ∀ descriptors ∈ choice.userInput, ∀ d ∈ descriptors, ∃ s, readSignature d = .ok s
  externalDtds : ∀ names ∈ choice.externalDtds, ∀ name ∈ names, RemediationSettings.isDtdName name = true

/-- All choices are valid. -/
structure ConfigChoices.Valid [GlobCompiler] (choices : ConfigChoices) : Prop where
  flow : ∀ c ∈ choices.flow, c.Valid
  driver : ∀ c ∈ choices.driver, c.Valid
  remediations : ∀ r ∈ choices.remediations, r.2.Valid

theorem FlowLimits.validate_ofPreset (preset : Preset) : (ofPreset preset).validate = .ok () := by
  cases preset <;> rfl

theorem DriverSettings.validate_ofPreset (preset : Preset) : (ofPreset preset).validate = .ok () := by
  cases preset <;> rfl

theorem FlowChoice.Valid.onto {choice : FlowChoice} (valid : choice.Valid) {base : FlowLimits}
    (isBase : base.validate = .ok ()) : (choice.onto base).validate = .ok () := by
  obtain ⟨maxDepth, maxLoopIterations⟩ := choice
  rw [FlowLimits.validate_eq_ok] at isBase ⊢
  cases maxDepth <;> cases maxLoopIterations <;> simp_all [FlowChoice.Valid, FlowChoice.onto]

theorem DriverChoice.Valid.onto {choice : DriverChoice} (valid : choice.Valid) {base : DriverSettings}
    (isBase : base.validate = .ok ()) : (choice.onto base).validate = .ok () := by
  obtain ⟨maxCycles, failFast⟩ := choice
  rw [DriverSettings.validate_eq_ok] at isBase ⊢
  cases maxCycles <;> simp_all [DriverChoice.Valid, DriverChoice.onto]

theorem RemediationSettings.validate_eq_ok [GlobCompiler] {settings : RemediationSettings} :
    settings.validate = .ok () ↔
    (∀ name ∈ settings.variableStem, isIdentifier name = true) ∧
      (∀ d ∈ settings.userInput, ∃ s, readSignature d = .ok s) ∧
        ∀ name ∈ settings.externalDtds, isDtdName name = true := by
  have parts : settings.validate = .ok () ↔ validateStem settings.variableStem = .ok () ∧
      (settings.userInput.forM fun d => discard (readSignature d)) = .ok () ∧
        settings.externalDtds.forM validateDtd = .ok () :=
    Config.bind_eq_ok.trans (and_congr_right fun _ => Config.bind_eq_ok)
  have stem : validateStem settings.variableStem = .ok () ↔
      ∀ name ∈ settings.variableStem, isIdentifier name = true := by
    cases settings.variableStem with
    | none => simp [validateStem]
    | some name => by_cases named : isIdentifier name = true <;> simp [validateStem, named]
  have read (d : String) : discard (readSignature d) = .ok () ↔ ∃ s, readSignature d = .ok s := by
    cases readSignature d <;> simp [discard, Functor.mapConst, Except.map]
  have dtd (name : String) : validateDtd name = .ok () ↔ isDtdName name = true := by
    by_cases named : isDtdName name = true <;> simp [validateDtd, named]
  rw [parts, stem, Config.forM_eq_ok, Config.forM_eq_ok]
  simp only [read, dtd]

theorem RemediationChoice.Valid.onto [GlobCompiler] {choice : RemediationChoice}
    (valid : choice.Valid) (preset : Preset) :
    (choice.onto (.ofPreset preset)).validate = .ok () := by
  obtain ⟨stem, input, dtds⟩ := valid
  obtain ⟨variableStem, fixPartialPath, userInput, externalDtds⟩ := choice
  rw [RemediationSettings.validate_eq_ok]
  cases variableStem <;> cases userInput <;> cases externalDtds <;>
    simp_all [RemediationChoice.onto, RemediationSettings.ofPreset]

namespace ConfigChoices

/-! ## The program -/

/-- The configuration of a program that makes the choices. -/
def built (choices : ConfigChoices) (preset : Preset) : Config :=
  let base := Config.ofPreset preset
  let base := choices.flow.elim base fun c => base.withFlow c.onto
  let base := choices.driver.elim base fun c => base.withDriver c.onto
  choices.remediations.foldl (fun c r => c.withRemediation r.1 r.2.onto) base

/-- With a choice for each remediation that is not set yet, all of them are made over the
preset. -/
theorem foldl_withRemediation {rs : List (String × RemediationChoice)} (base : Config)
    (distinct : (rs.map (·.1)).Nodup) (fresh : ∀ r ∈ rs, base.remediations.lookup r.1 = none) :
    ∃ provenance, rs.foldl (fun c r => c.withRemediation r.1 r.2.onto) base =
      { base with
        remediations := (rs.map fun r => (r.1, r.2.onto (.ofPreset base.preset))).foldl
          (fun table entry => insertEntry entry.1 entry.2 table) base.remediations
        provenance } := by
  induction rs generalizing base with
  | nil => exact ⟨base.provenance, rfl⟩
  | cons r rs ih =>
    rw [List.map_cons, List.nodup_cons] at distinct
    rw [List.forall_mem_cons] at fresh
    have next : ∀ r' ∈ rs, (base.withRemediation r.1 r.2.onto).remediations.lookup r'.1 = none := by
      intro r' mem
      have other : r'.1 ≠ r.1 := fun same => distinct.1 (same ▸ List.mem_map_of_mem mem)
      exact lookup_insertEntry.trans ((if_neg other).trans (fresh.2 r' mem))
    obtain ⟨provenance, folded⟩ := ih _ distinct.2 next
    refine ⟨provenance, ?_⟩
    rw [List.foldl_cons, folded]
    simp [Config.withRemediation, Config.trackBuilder, fresh.1]

/-- The choices, made over one preset in a configuration with another, and nothing else. -/
structure Makes (choices : ConfigChoices) (base preset : Preset) (c : Config) : Prop where
  preset : c.preset = preset
  control : c.control = .open_
  strict : c.strict = false
  flow : c.flow = (choices.overrides base).flow
  driver : c.driver = (choices.overrides base).driver
  remediations : c.remediations = (choices.overrides base).remediations

/-- What the program builds are its choices over the preset. -/
theorem makes_built (choices : ConfigChoices) (preset : Preset) :
    choices.Makes preset preset (choices.built preset) := by
  let base := choices.flow.elim (Config.ofPreset preset) fun c => (Config.ofPreset preset).withFlow c.onto
  let base' := choices.driver.elim base fun c => base.withDriver c.onto
  have none : base'.remediations = [] := by
    cases flow : choices.flow <;> cases driver : choices.driver <;> simp only [base', base, flow, driver] <;> rfl
  obtain ⟨provenance, folded⟩ := foldl_withRemediation base' choices.distinct (by simp [none])
  have unfolded : choices.built preset = _ := folded
  rw [unfolded]
  constructor <;> cases flow : choices.flow <;> cases driver : choices.driver <;>
    simp only [base', base, flow, driver, overrides, Option.elim, Option.map] <;> rfl

/-- What a document loads as are its choices over the middle preset. -/
theorem makes_config {choices : ConfigChoices} {document : ConfigDocument} (control : document.control = none)
    (overrides : document.overrides = some (choices.overrides .balanced)) (preset : Preset) (origin : String) :
    choices.Makes .balanced preset (document.config preset origin) := by
  obtain ⟨isPreset, switches, strict, flow, driver, remediations⟩ := document.loads_config preset origin
  have overridden : document.overridden = choices.overrides .balanced := by
    rw [ConfigDocument.overridden, overrides, Option.getD_some]
  rw [control] at switches
  rw [overridden] at flow driver remediations
  exact ⟨isPreset, switches, strict, flow, driver, remediations.trans (tableOf_eq_self ascend_tableOf)⟩

theorem lookup_overrides {choices : ConfigChoices} {base : Preset} {id : String} :
    (choices.overrides base).remediations.lookup id =
      (choices.remediations.lookup id).map (·.onto (.ofPreset base)) := by
  rw [overrides, lookup_tableOf distinct_over, remediationsOver]
  induction choices.remediations with
  | nil => rfl
  | cons r rs ih =>
    rw [List.map_cons, List.lookup_cons, List.lookup_cons, ih]
    by_cases here : id = r.1 <;> simp [here, beq_eq_decide]

namespace Makes

variable {choices : ConfigChoices} {base preset : Preset} {c : Config}

theorem validate [GlobCompiler] (makes : choices.Makes base preset c) (valid : choices.Valid) :
    c.validate = .ok () := by
  rw [Config.validate_eq_ok, makes.flow, makes.driver, makes.remediations]
  refine ⟨?_, ?_, ?_, ?_⟩
  · intro limits mem
    obtain ⟨choice, here, rfl⟩ := Option.map_eq_some_iff.mp mem
    exact (valid.flow choice here).onto (FlowLimits.validate_ofPreset base)
  · intro settings mem
    obtain ⟨choice, here, rfl⟩ := Option.map_eq_some_iff.mp mem
    exact (valid.driver choice here).onto (DriverSettings.validate_ofPreset base)
  · intro r mem
    obtain ⟨choice, here, rfl⟩ := List.mem_map.mp ((mem_tableOf distinct_over).mp mem)
    exact (valid.remediations choice here).onto base
  · intro r _
    simp [Config.checkDisabled, makes.strict]

variable [GlobCompiler] {v : ValidConfig}

theorem flow_eq (makes : choices.Makes base preset v.config) :
    v.flow = (choices.flow.map (·.onto (.ofPreset base))).getD (.ofPreset preset) := by
  rw [ValidConfig.flow, ValidConfig.preset, makes.flow, makes.preset]
  rfl

theorem driver_eq (makes : choices.Makes base preset v.config) :
    v.driver = (choices.driver.map (·.onto (.ofPreset base))).getD (.ofPreset preset) := by
  rw [ValidConfig.driver, ValidConfig.preset, makes.driver, makes.preset]
  rfl

theorem remediation?_eq (makes : choices.Makes base preset v.config) (id : String) : v.remediation? id =
    some (((choices.remediations.lookup id).map (·.onto (.ofPreset base))).getD (.ofPreset preset)) := by
  have enabled : RemediationControl.open_.isEnabled id = true := rfl
  rw [ValidConfig.remediation?, ValidConfig.preset, makes.control, makes.remediations, makes.preset,
    lookup_overrides, enabled, if_pos rfl]

end Makes

/-! ## The comparison -/

/-- In the areas that are written, what the preset has of its own is chosen. -/
structure Settled (choices : ConfigChoices) (preset : Preset) : Prop where
  flow : preset = .fast ∨ preset = .thorough →
    ∀ c ∈ choices.flow, c.maxDepth.isSome ∧ c.maxLoopIterations.isSome
  driver : preset = .fast ∨ preset = .thorough → ∀ c ∈ choices.driver, c.maxCycles.isSome
  remediations : preset = .thorough → ∀ r ∈ choices.remediations, r.2.fixPartialPath.isSome

theorem flow_over_eq_iff {choice : FlowChoice} {preset : Preset} :
    choice.onto (.ofPreset .balanced) = choice.onto (.ofPreset preset) ↔
      (preset = .fast ∨ preset = .thorough → choice.maxDepth.isSome ∧ choice.maxLoopIterations.isSome) := by
  obtain ⟨maxDepth, maxLoopIterations⟩ := choice
  cases preset <;> cases maxDepth <;> cases maxLoopIterations <;>
    simp [FlowChoice.onto, FlowLimits.ofPreset, FlowLimits.standard]

theorem driver_over_eq_iff {choice : DriverChoice} {preset : Preset} :
    choice.onto (.ofPreset .balanced) = choice.onto (.ofPreset preset) ↔
      (preset = .fast ∨ preset = .thorough → choice.maxCycles.isSome) := by
  obtain ⟨maxCycles, failFast⟩ := choice
  cases preset <;> cases maxCycles <;> simp [DriverChoice.onto, DriverSettings.ofPreset]

theorem remediation_over_eq_iff {choice : RemediationChoice} {preset : Preset} :
    choice.onto (.ofPreset .balanced) = choice.onto (.ofPreset preset) ↔
      (preset = .thorough → choice.fixPartialPath.isSome) := by
  obtain ⟨variableStem, fixPartialPath, userInput, externalDtds⟩ := choice
  cases preset <;> cases fixPartialPath <;> simp [RemediationChoice.onto, RemediationSettings.ofPreset]

theorem Valid.fits [GlobCompiler] {choices : ConfigChoices} (valid : choices.Valid) :
    choices.Fits := by
  refine ⟨fun c mem => ⟨fun n here => ?_, fun n here => ?_⟩, fun c mem n here => ?_⟩
  · have := (valid.flow c mem).1 n here
    omega
  · have := (valid.flow c mem).2 n here
    omega
  · have := valid.driver c mem n here
    omega

/-- Choices that are valid can be made in a document and by a program, and the settings in
force are the same if and only if the choices settle what the preset has of its own. -/
theorem loaded_eq_built_iff [GlobCompiler] {choices : ConfigChoices} {preset : Preset}
    {text : String} {d : Document}
    (valid : choices.Valid) (parsed : Document.parse? text = some d)
    (back : Back d.root (ConfigDocument.yaml preset none (some choices))) (origin : String) :
    ∃ loaded built, Config.ofYaml text origin = .ok loaded ∧ (choices.built preset).build = .ok built ∧
      (loaded.flow = built.flow ∧ loaded.driver = built.driver ∧
        (∀ id, loaded.remediation? id = built.remediation? id) ↔ choices.Settled preset) := by
  obtain ⟨document, control, overrides, loads⟩ := ConfigDocument.ofYaml_of_back
    (by simpa using valid.fits) parsed back origin
  have isLoaded := (makes_config control overrides preset origin).validate valid
  have isBuilt := (makes_built choices preset).validate valid
  let loaded : ValidConfig := ⟨_, isLoaded⟩
  let built : ValidConfig := ⟨_, isBuilt⟩
  have inDocument : choices.Makes .balanced preset loaded.config := makes_config control overrides preset origin
  have inProgram : choices.Makes preset preset built.config := makes_built choices preset
  refine ⟨loaded, built, loads.trans (Config.build_eq_ok.mpr ⟨isLoaded, rfl⟩),
    Config.build_eq_ok.mpr ⟨isBuilt, rfl⟩, ?_⟩
  rw [inDocument.flow_eq, inProgram.flow_eq, inDocument.driver_eq, inProgram.driver_eq]
  simp only [inDocument.remediation?_eq, inProgram.remediation?_eq, Option.some.injEq]
  have flow : (choices.flow.map (·.onto (.ofPreset .balanced))).getD (.ofPreset preset) =
      (choices.flow.map (·.onto (.ofPreset preset))).getD (.ofPreset preset) ↔
        (preset = .fast ∨ preset = .thorough →
          ∀ c ∈ choices.flow, c.maxDepth.isSome ∧ c.maxLoopIterations.isSome) := by
    cases choices.flow <;> simp [flow_over_eq_iff]
  have driver : (choices.driver.map (·.onto (.ofPreset .balanced))).getD (.ofPreset preset) =
      (choices.driver.map (·.onto (.ofPreset preset))).getD (.ofPreset preset) ↔
        (preset = .fast ∨ preset = .thorough → ∀ c ∈ choices.driver, c.maxCycles.isSome) := by
    cases choices.driver <;> simp [driver_over_eq_iff]
  have remediations : (∀ id,
      ((choices.remediations.lookup id).map (·.onto (.ofPreset .balanced))).getD (.ofPreset preset) =
        ((choices.remediations.lookup id).map (·.onto (.ofPreset preset))).getD (.ofPreset preset)) ↔
        (preset = .thorough → ∀ r ∈ choices.remediations, r.2.fixPartialPath.isSome) := by
    constructor
    · intro same isThorough r mem
      have here := same r.1
      rw [(lookup_eq_some_iff_mem choices.distinct).mpr mem] at here
      exact remediation_over_eq_iff.mp here isThorough
    · intro settled id
      cases there : choices.remediations.lookup id with
      | none => rfl
      | some choice =>
        have mem := (lookup_eq_some_iff_mem choices.distinct).mp there
        exact remediation_over_eq_iff.mpr fun isThorough => settled isThorough _ mem
  rw [flow, driver, remediations]
  exact ⟨fun ⟨flow, driver, remediations⟩ => ⟨flow, driver, remediations⟩,
    fun settled => ⟨settled.flow, settled.driver, settled.remediations⟩⟩

/-- One of the two limits is chosen. -/
def depthOnly : ConfigChoices :=
  { flow := some { maxDepth := some 10, maxLoopIterations := none }, driver := none, remediations := []
    distinct := .nil }

section

attribute [local instance] GlobCompiler.standard

/-- Under the preset `fast` a document that chooses one of the limits and a program that does
so come to different settings. -/
theorem loaded_ne_built_fast : ∃ loaded built : ValidConfig,
    Config.ofYaml "version: 1\npreset: fast\noverrides:\n  flow:\n    max_depth: 10\n" "inline" = .ok loaded ∧
      (depthOnly.built .fast).build = .ok built ∧
        ¬ (loaded.flow = built.flow ∧ loaded.driver = built.driver ∧
          ∀ id, loaded.remediation? id = built.remediation? id) := by
  have valid : depthOnly.Valid := by
    constructor
    · rintro _ ⟨⟩
      exact ⟨by rintro _ ⟨⟩; decide, nofun⟩
    · exact nofun
    · exact nofun
  have readBack :
      (Document.parse? "version: 1\npreset: fast\noverrides:\n  flow:\n    max_depth: 10\n").any
        (isBack ·.root (ConfigDocument.yaml .fast none (some depthOnly))) = true := by
    decide +kernel
  obtain ⟨d, parsed, back⟩ := (Option.any_eq_true _ _).mp readBack
  obtain ⟨loaded, built, loads, builds, same⟩ :=
    loaded_eq_built_iff valid parsed (back_of_isBack back) "inline"
  refine ⟨loaded, built, loads, builds, fun equal => ?_⟩
  have settled := (same.mp equal).flow (.inl rfl) _ rfl
  cases settled.2

end

end ConfigChoices

end JavaMend
