import JavaMend.Proofs.Engine.Cycle
import JavaMend.Proofs.Tree.Places

/-!
# Runs of the built-in catalog

Whatever a valid configuration switches on and sets, the settings that a
remediation ends up with are valid themselves: they are either among those that
were checked, or a preset's. So every pass of the built-in catalog can be made
and succeeds on every unit, and a run ends without a failure.

A second run continues where the first one ended. If the first run came to rest,
the second finds nothing to do and hands back the very same unit; if it was cut
off, because every cycle it was allowed changed something, the second goes on
changing the unit as the next cycle of the first would have done. So whether a
second run leaves a unit alone is decided by the cycles from the unit itself:
it does if and only if they come to rest in as many as a run is allowed.
-/

namespace JavaMend

/-! ## Settings in force -/

/-- The first of two checks that both pass. -/
theorem ok_of_bind_ok {ε : Type} {check : Except ε Unit} {rest : Unit → Except ε Unit}
    (h : (check >>= rest) = .ok ()) : check = .ok () ∧ rest () = .ok () := by
  cases check with
  | error e => cases h
  | ok _ => exact ⟨rfl, h⟩

/-- A check of every item of a list passes on each of them. -/
theorem ok_of_forM_ok {ε α : Type} {check : α → Except ε Unit} {items : List α}
    (h : items.forM check = .ok ()) : ∀ item ∈ items, check item = .ok () := by
  induction items with
  | nil => intro item hitem; cases hitem
  | cons first rest ih =>
    obtain ⟨hfirst, hrest⟩ : check first = .ok () ∧ rest.forM check = .ok () := ok_of_bind_ok h
    intro item hitem
    rcases List.mem_cons.mp hitem with rfl | hitem
    · exact hfirst
    · exact ih hrest item hitem

theorem RemediationSettings.validate_ofPreset [GlobCompiler] (preset : Preset) :
    (RemediationSettings.ofPreset preset).validate = .ok () := by
  cases preset <;> rfl

/-- An entry that is found in a list by its name is in the list. -/
theorem mem_of_lookup {id : String} {settings : RemediationSettings}
    {entries : List (String × RemediationSettings)} (h : entries.lookup id = some settings) :
    (id, settings) ∈ entries := by
  induction entries with
  | nil => cases h
  | cons entry rest ih =>
    obtain ⟨name, first⟩ := entry
    rw [List.lookup_cons] at h
    by_cases same : id == name
    · rw [same] at h
      rw [eq_of_beq same, Option.some.inj h]
      exact List.mem_cons_self
    · rw [Bool.not_eq_true] at same
      rw [same] at h
      exact List.mem_cons_of_mem _ (ih h)

/-- The settings in force for a remediation are valid. -/
theorem ValidConfig.validate_remediation [GlobCompiler] {v : ValidConfig} {id : String}
    {settings : RemediationSettings} (h : v.remediation? id = some settings) :
    settings.validate = .ok () := by
  have checked := (ok_of_bind_ok (ok_of_bind_ok (ok_of_bind_ok v.valid).2).2).1
  unfold ValidConfig.remediation? at h
  split at h
  · cases found : v.config.remediations.lookup id with
    | none =>
      rw [found] at h
      rw [← Option.some.inj h]
      exact RemediationSettings.validate_ofPreset v.preset
    | some own =>
      rw [found] at h
      rw [← Option.some.inj h]
      exact ok_of_forM_ok checked _ (mem_of_lookup found)
  · cases h

/-! ## Runs -/

namespace Engine

/-- An engine is made of what it is given and of the standard services. -/
theorem eq_of_make [GlobCompiler] {config : ValidConfig} {catalog : Catalog} {a : Engine}
    (h : make config catalog = .ok a) :
    a = { config, catalog, matcher := .standard, splicer := .standard } := by
  unfold make at h
  split at h
  · exact (Except.ok.inj h).symm
  · cases h

/-- The passes of an engine over the built-in catalog succeed on every unit. -/
theorem reliable_of_make [GlobCompiler] {config : ValidConfig} {a : Engine}
    (h : make config .builtin = .ok a) : a.Reliable := by
  have made := eq_of_make h
  have standard : a.passEnv.splicer = .standard := by rw [made]; rfl
  have builtin : a.catalog = .builtin := by rw [made]
  intro h hmem
  obtain ⟨entry, settings⟩ := h
  obtain ⟨known, hknown, found⟩ := List.mem_filterMap.mp hmem
  obtain ⟨own, hown, same⟩ := Option.map_eq_some_iff.mp found
  obtain ⟨rfl, rfl⟩ := Prod.mk.inj same
  rw [builtin] at hknown
  obtain ⟨pass, made, succeeds⟩ := Remediation.pass_succeeds
    (Catalog.builtin_ready known hknown) known.id (ValidConfig.validate_remediation hown) standard
  intro unit next
  obtain ⟨output, next', ran⟩ := succeeds unit next
  refine ⟨output, next', ?_⟩
  simp only [CatalogEntry.run, made]
  exact ran

/-- With the built-in catalog, whatever the configuration, no pass fails on any
unit, and a run ends without a failure. -/
theorem run_of_make_builtin [GlobCompiler] {config : ValidConfig} {a : Engine}
    (h : make config .builtin = .ok a) :
    (∀ pass ∈ a.enabled, ∀ unit next, ∃ output next',
      pass.1.run pass.2 a.passEnv unit next = (.ok output, next')) ∧
    ∀ unit next, ∃ o next', a.run unit next = (.ok o, next') ∧ o.failures = [] := by
  have reliable := reliable_of_make h
  refine ⟨reliable, fun unit next => ?_⟩
  obtain ⟨o, moved, ran, cycled⟩ := run_spec reliable unit next
  exact ⟨o, _, ran, cycled.at_.failures⟩

section

attribute [local instance] GlobCompiler.standard

/-- A thorough configuration under which one failure would end the run, on a
unit with one class. -/
theorem run_of_make_failFast :
    let config : ValidConfig :=
      ⟨{ Config.ofPreset .thorough with driver := some ⟨25, true⟩ }, rfl⟩
    let a : Engine :=
      { config, catalog := .builtin, matcher := .standard, splicer := .standard }
    let unit : CompilationUnit := ⟨0, none, [], [⟨1, ⟨[], "A", .known "A"⟩, ⟨2, false, []⟩⟩]⟩
    make config .builtin = .ok a ∧
      ∃ o next', a.run unit 3 = (.ok o, next') ∧ o.failures = [] := by
  intro config a unit
  have made : make config .builtin = .ok a := rfl
  exact ⟨made, (run_of_make_builtin made).2 unit 3⟩

end

end Engine

/-! ## Fixing what was fixed -/

namespace Engine

variable [GlobCompiler] {a : Engine}

/-- A run ends at rest exactly if one of the stages it may reach is at rest. -/
theorem Cycled.atRest_iff {left moved : Nat} {stage : Stage} {o o' : Outcome}
    (h : a.Cycled left moved stage o o') :
    a.AtRest (a.cycle^[moved] stage) ↔ ∃ k ≤ left, a.AtRest (a.cycle^[k] stage) := by
  constructor
  · intro rest
    exact ⟨moved, h.within, rest⟩
  · intro h
    obtain ⟨k, hk, rest⟩ := h
    have reached : moved ≤ k := by
      by_contra hlt
      exact h.moving k (Nat.lt_of_not_le hlt) rest
    rcases Nat.lt_or_ge moved left with hlt | hge
    · exact h.rest hlt
    · have : moved = k := by omega
      exact this ▸ rest

/-- A run that is allowed a cycle changes nothing exactly if it starts at
rest. -/
theorem Cycled.eq_zero_iff {left moved : Nat} {stage : Stage} {o o' : Outcome}
    (h : a.Cycled left moved stage o o') (allowed : 0 < left) :
    moved = 0 ↔ a.AtRest stage := by
  constructor
  · rintro rfl
    exact h.rest allowed
  · intro rest
    rcases Nat.eq_zero_or_pos moved with zero | pos
    · exact zero
    · exact (h.moving 0 pos rest).elim

theorem Cycled.changed_eq_false_iff {left moved : Nat} {stage : Stage} {unit : CompilationUnit}
    {o : Outcome} (h : a.Cycled left moved stage (.start unit) o) :
    o.changed = false ↔ moved = 0 := by
  have counted := h.counted
  simp only [Outcome.start, Nat.zero_add] at counted
  simp only [Outcome.changed, decide_eq_false_iff_not, Nat.not_lt, Nat.le_zero]
  constructor
  · intro none
    omega
  · intro zero
    exact h.unchanged zero

end Engine

/-- `fix` answers the unit that the standard engine ends with. -/
theorem fix_of_run [GlobCompiler] {unit : CompilationUnit} {next next' : NodeId} {o : Outcome}
    (h : Engine.standard.run unit next = (.ok o, next')) :
    fix unit .builtin next = (o.unit, next') := by
  unfold fix
  rw [show Engine.make .standard .builtin = .ok .standard from rfl]
  show StateT.bind (Engine.standard.run unit) _ next = _
  simp only [StateT.bind, h]
  rfl

/-- Fixing a fixed unit once more changes nothing if and only if the unit comes
to rest in the cycles that a run is allowed. -/
theorem fix_fix_unchanged_iff [GlobCompiler] (unit : CompilationUnit) (next : NodeId) :
    ∃ once twice : Outcome, ∃ used used' : NodeId,
      Engine.standard.run unit next = (.ok once, used) ∧
      fix unit .builtin next = (once.unit, used) ∧
      Engine.standard.run once.unit used = (.ok twice, used') ∧
      fix once.unit .builtin used = (twice.unit, used') ∧
      (twice.unit.alike once.unit = true ∧ twice.changed = false ↔
        ∃ k ≤ Engine.standard.config.driver.maxCycles,
          Engine.standard.AtRest (Engine.standard.cycle^[k] ⟨unit, next⟩)) := by
  have made : Engine.make .standard .builtin = .ok .standard := rfl
  have reliable := Engine.reliable_of_make made
  obtain ⟨once, moved, ran, cycled⟩ := Engine.run_spec reliable unit next
  obtain ⟨twice, again, ranAgain, cycledAgain⟩ := Engine.run_spec reliable once.unit
    (Engine.standard.cycle^[moved] ⟨unit, next⟩).next
  refine ⟨once, twice, _, _, ran, fix_of_run ran, ranAgain, fix_of_run ranAgain, ?_⟩
  -- The second run starts at the stage where the first one ended.
  have start : (⟨once.unit, (Engine.standard.cycle^[moved] ⟨unit, next⟩).next⟩ : Stage) =
      Engine.standard.cycle^[moved] ⟨unit, next⟩ := by
    rw [cycled.at_.unit]
  have allowed : 0 < Engine.standard.config.driver.maxCycles := Nat.succ_pos 9
  rw [← cycled.atRest_iff, ← start, ← cycledAgain.eq_zero_iff allowed,
    cycledAgain.changed_eq_false_iff]
  constructor
  · exact And.right
  · intro zero
    have same : twice.unit = once.unit := by
      rw [cycledAgain.at_.unit, zero]
      rfl
    exact ⟨same ▸ Node.alike_refl _, zero⟩

end JavaMend
