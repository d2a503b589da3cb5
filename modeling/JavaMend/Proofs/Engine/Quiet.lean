import JavaMend.Proofs.Engine.Cycle

/-!
# Runs that stop by themselves

A pass is quiet at a stage if it succeeds there without changing the unit. An
engine all of whose passes are quiet needs one cycle to find that out, and hands
the unit back as the node it was (`Engine.run_of_quiet`).

The converse direction reads the stages off a run that is over. A pass either
leaves its mark on the outcome, by a count or by a failure, or it was quiet
(`Engine.runOne_cases`); so the last cycle of a run without failures that had
cycles left shows that every pass is quiet where the run ended. Nothing is assumed
about the passes here: any of them may fail at other stages.
-/

namespace JavaMend.Engine

/-- The pass succeeds at the stage, and what it makes is no change. -/
def Quiet [GlobCompiler] (a : Engine) (pass : CatalogEntry × RemediationSettings) (stage : Stage) :
    Prop :=
  ∃ output used, pass.1.run pass.2 a.passEnv stage.unit stage.next = (.ok output, used) ∧
    isChange stage.unit output.unit = false

/-- An outcome that differs from another one in the findings at most. -/
structure SameButFindings (o o' : Outcome) : Prop where
  unit : o'.unit = o.unit
  cycles : o'.cycles = o.cycles
  appliedPasses : o'.appliedPasses = o.appliedPasses
  failures : o'.failures = o.failures

/-- A step and what follows it succeed only one after the other. -/
theorem ok_of_bind {α β : Type} {first : ExceptT EngineError Fresh α}
    {rest : α → ExceptT EngineError Fresh β} {y : β} {next next' : NodeId}
    (ran : (first >>= rest) next = (.ok y, next')) :
    ∃ x used, first next = (.ok x, used) ∧ rest x used = (.ok y, next') := by
  cases h : first next with
  | mk result used =>
    cases result with
    | ok x => exact ⟨x, used, rfl, (bind_of_ok h).symm.trans ran⟩
    | error e =>
      have failed : (first >>= rest) next = (.error e, used) := by
        show StateT.bind first (ExceptT.bindCont rest) next = _
        simp only [StateT.bind, h]
        rfl
      rw [failed] at ran
      cases ran

section

variable [GlobCompiler] {a : Engine}

/-! ## From quiet passes to a run -/

/-- A quiet pass can add findings and does nothing else. -/
theorem Quiet.runOne {pass : CatalogEntry × RemediationSettings} {o : Outcome} {next : NodeId}
    (quiet : a.Quiet pass ⟨o.unit, next⟩) (clean : o.failures = []) :
    ∃ o', a.runOne o pass next = (.ok o', next) ∧ SameButFindings o o' := by
  obtain ⟨entry, settings⟩ := pass
  obtain ⟨output, used, ran, unchanged⟩ := quiet
  have fresh : o.failures.any (·.remediation == entry.id) = false := by
    rw [clean]; rfl
  unfold Engine.runOne
  simp only [fresh, ran, Outcome.addFindings, unchanged, Bool.false_eq_true, if_false]
  exact ⟨_, rfl, rfl, rfl, rfl, rfl⟩

theorem foldlM_runOne_of_quiet {passes : List (CatalogEntry × RemediationSettings)} {o : Outcome}
    {next : NodeId} (quiet : ∀ pass ∈ passes, a.Quiet pass ⟨o.unit, next⟩)
    (clean : o.failures = []) :
    ∃ o', passes.foldlM a.runOne o next = (.ok o', next) ∧ SameButFindings o o' := by
  induction passes generalizing o with
  | nil => exact ⟨o, rfl, rfl, rfl, rfl, rfl⟩
  | cons pass rest ih =>
    obtain ⟨o₁, ran₁, same₁⟩ := (quiet pass List.mem_cons_self).runOne clean
    have still : ∀ p ∈ rest, a.Quiet p ⟨o₁.unit, next⟩ := by
      intro p hp
      rw [same₁.unit]
      exact quiet p (List.mem_cons_of_mem _ hp)
    obtain ⟨o₂, ran₂, same₂⟩ := ih still (same₁.failures.trans clean)
    refine ⟨o₂, ?_, same₂.unit.trans same₁.unit, same₂.cycles.trans same₁.cycles,
      same₂.appliedPasses.trans same₁.appliedPasses, same₂.failures.trans same₁.failures⟩
    rw [List.foldlM_cons]
    exact (bind_of_ok ran₁).trans ran₂

/-- If every pass is quiet, a run is one cycle that changes nothing. -/
theorem run_of_quiet {unit : CompilationUnit} {next : NodeId}
    (quiet : ∀ pass ∈ a.enabled, a.Quiet pass ⟨unit, next⟩)
    (allowed : 0 < a.config.driver.maxCycles) :
    ∃ o, a.run unit next = (.ok o, next) ∧ o.unit = unit ∧ o.cycles = 1 ∧
      o.appliedPasses = 0 ∧ o.failures = [] := by
  obtain ⟨left, more⟩ : ∃ left, a.config.driver.maxCycles = left + 1 :=
    ⟨_, (Nat.succ_pred_eq_of_pos allowed).symm⟩
  obtain ⟨o, ran, same⟩ := foldlM_runOne_of_quiet
    (o := { Outcome.start unit with cycles := 0 + 1 }) quiet rfl
  refine ⟨o, ?_, same.unit, same.cycles, same.appliedPasses, same.failures⟩
  unfold run
  rw [more, runCycles]
  refine (bind_of_ok ran).trans ?_
  rw [if_pos same.appliedPasses]
  rfl

/-! ## From a run to quiet passes -/

/-- What a pass can do to an outcome: it was passed over because it had failed, it
was quiet, it changed the unit, or it failed. -/
theorem runOne_cases {pass : CatalogEntry × RemediationSettings} {o o' : Outcome}
    {next next' : NodeId} (ran : a.runOne o pass next = (.ok o', next')) :
    (o.failures ≠ [] ∧ o' = o) ∨
    (a.Quiet pass ⟨o.unit, next⟩ ∧ next' = next ∧ SameButFindings o o') ∨
    (o'.appliedPasses = o.appliedPasses + 1 ∧ o'.cycles = o.cycles ∧
      o'.failures = o.failures) ∨
    (o'.failures ≠ [] ∧ o'.appliedPasses = o.appliedPasses) := by
  obtain ⟨entry, settings⟩ := pass
  unfold runOne at ran
  dsimp only at ran
  split at ran
  next known =>
    cases ran
    refine .inl ⟨?_, rfl⟩
    intro none
    rw [none] at known
    cases known
  next =>
    split at ran
    next output used passed =>
      split at ran
      next change =>
        cases ran
        exact .inr (.inr (.inl ⟨rfl, rfl, rfl⟩))
      next same =>
        cases ran
        exact .inr (.inl ⟨⟨output, used, passed, Bool.eq_false_iff.mpr same⟩, rfl, rfl, rfl, rfl, rfl⟩)
    next e used failed =>
      split at ran
      next => cases ran
      next =>
        cases ran
        exact .inr (.inr (.inr ⟨List.append_ne_nil_of_right_ne_nil _ (List.cons_ne_nil _ _), rfl⟩))

/-- What passes in a row leave of an outcome that ends without failures. -/
structure Passed (a : Engine) (passes : List (CatalogEntry × RemediationSettings))
    (o o' : Outcome) (next next' : NodeId) : Prop where
  clean : o.failures = []
  cycles : o'.cycles = o.cycles
  counted : o.appliedPasses ≤ o'.appliedPasses
  /-- If none of them is counted, all of them were quiet. -/
  quiet : o'.appliedPasses = o.appliedPasses →
    o'.unit = o.unit ∧ next' = next ∧ ∀ pass ∈ passes, a.Quiet pass ⟨o.unit, next⟩

theorem runOne_passed {pass : CatalogEntry × RemediationSettings} {o o' : Outcome}
    {next next' : NodeId} (ran : a.runOne o pass next = (.ok o', next'))
    (clean : o'.failures = []) : a.Passed [pass] o o' next next' := by
  obtain ⟨failed, rfl⟩ | ⟨quiet, kept, same⟩ | ⟨count, cycles, failures⟩ | ⟨failed, -⟩ :=
    runOne_cases ran
  · exact (failed clean).elim
  · refine ⟨same.failures.symm.trans clean, same.cycles, Nat.le_of_eq same.appliedPasses.symm,
      fun _ => ⟨same.unit, kept, fun p hp => ?_⟩⟩
    rw [List.mem_singleton.mp hp]
    exact quiet
  · refine ⟨failures.symm.trans clean, cycles, by omega, fun none => ?_⟩
    omega
  · exact (failed clean).elim

theorem foldlM_runOne_passed {passes : List (CatalogEntry × RemediationSettings)}
    {o o' : Outcome} {next next' : NodeId}
    (ran : passes.foldlM a.runOne o next = (.ok o', next')) (clean : o'.failures = []) :
    a.Passed passes o o' next next' := by
  induction passes generalizing o next with
  | nil =>
    cases ran
    exact ⟨clean, rfl, Nat.le_refl _, fun _ => ⟨rfl, rfl, fun _ h => (List.not_mem_nil h).elim⟩⟩
  | cons pass rest ih =>
    rw [List.foldlM_cons] at ran
    obtain ⟨mid, used, ranFirst, ranRest⟩ := ok_of_bind ran
    have second := ih ranRest
    have first := runOne_passed ranFirst second.clean
    refine ⟨first.clean, second.cycles.trans first.cycles, Nat.le_trans first.counted second.counted,
      fun none => ?_⟩
    have counted₁ := first.counted
    have counted₂ := second.counted
    obtain ⟨unit₁, kept₁, quiet₁⟩ := first.quiet (by omega)
    obtain ⟨unit₂, kept₂, quiet₂⟩ := second.quiet (by omega)
    refine ⟨unit₂.trans unit₁, kept₂.trans kept₁, fun p hp => ?_⟩
    rcases List.mem_cons.mp hp with rfl | hp
    · exact quiet₁ p List.mem_cons_self
    · rw [← unit₁, ← kept₁]
      exact quiet₂ p hp

/-- A run that ends without failures had none on the way, and it is over when its
cycles are used up, or when every pass is quiet where it ends. -/
theorem runCycles_ends {left : Nat} {o o' : Outcome} {next next' : NodeId}
    (ran : a.runCycles left o next = (.ok o', next')) (clean : o'.failures = []) :
    o.failures = [] ∧ (o'.cycles = o.cycles + left ∨
      ∀ pass ∈ a.enabled, a.Quiet pass ⟨o'.unit, next'⟩) := by
  induction left generalizing o next with
  | zero =>
    cases ran
    exact ⟨clean, .inl rfl⟩
  | succ left ih =>
    rw [runCycles] at ran
    obtain ⟨after, used, cycle, goes⟩ := ok_of_bind ran
    split at goes
    next none =>
      cases goes
      have passed := foldlM_runOne_passed cycle clean
      obtain ⟨unit, kept, quiet⟩ := passed.quiet none
      rw [unit, kept]
      exact ⟨passed.clean, .inr quiet⟩
    next =>
      obtain ⟨cleanAfter, ends⟩ := ih goes
      have passed := foldlM_runOne_passed cycle cleanAfter
      have one : after.cycles = o.cycles + 1 := passed.cycles
      refine ⟨passed.clean, ends.imp_left fun used_up => ?_⟩
      rw [used_up, one, Nat.add_assoc, Nat.add_comm 1]

/-- A run without failures that stops below the limit of its cycles has come to a
fixed point: a further run on its result takes one cycle, applies no pass, and
hands back the very same unit. -/
theorem run_again_of_stopped {unit : CompilationUnit} {next used : NodeId} {o : Outcome}
    (ran : a.run unit next = (.ok o, used)) (clean : o.failures = [])
    (below : o.cycles < a.config.driver.maxCycles) :
    ∃ again, a.run o.unit used = (.ok again, used) ∧ again.changed = false ∧
      again.cycles = 1 ∧ again.appliedPasses = 0 ∧ again.unit = o.unit := by
  have quiet : ∀ pass ∈ a.enabled, a.Quiet pass ⟨o.unit, used⟩ := by
    rcases (runCycles_ends ran clean).2 with used_up | quiet
    · simp only [Outcome.start, Nat.zero_add] at used_up
      exact absurd used_up (Nat.ne_of_lt below)
    · exact quiet
  obtain ⟨again, ranAgain, same, cycles, applied, -⟩ := run_of_quiet quiet (Nat.zero_lt_of_lt below)
  refine ⟨again, ranAgain, ?_, cycles, applied, same⟩
  rw [Outcome.changed, applied]
  rfl

end

section

attribute [local instance] GlobCompiler.standard

/-- A class with the field `Random r = new Random();`: the first cycle replaces the
generator, the second finds nothing, and neither does a further run. -/
theorem run_again_of_random_field :
    let random := Ty.known Fqn.random
    let creation : Expr := ⟨5, random, .create "Random" [] (some (.constructor random []))⟩
    let field : Stmt := ⟨3, .declare ⟨[], "Random", [⟨4, "r", random, some creation⟩]⟩⟩
    let unit : CompilationUnit := ⟨0, none, [], [⟨1, ⟨[], "A", .known "A"⟩, ⟨2, false, [field]⟩⟩]⟩
    ∃ o used again, standard.run unit 6 = (.ok o, used) ∧ o.failures = [] ∧ o.cycles = 2 ∧
      o.appliedPasses = 1 ∧ standard.run o.unit used = (.ok again, used) ∧
      again.changed = false ∧ again.cycles = 1 ∧ again.appliedPasses = 0 ∧
      again.unit = o.unit := by
  intro random creation field unit
  have summary : (standard.run unit 6).1.toOption.map
      (fun o => (o.failures, o.cycles, o.appliedPasses)) = some ([], 2, 1) := by
    decide +kernel
  cases ran : standard.run unit 6 with
  | mk result used =>
    rw [ran] at summary
    cases result with
    | error e => cases summary
    | ok o =>
      simp only [Except.toOption, Option.map_some, Option.some.injEq, Prod.mk.injEq] at summary
      obtain ⟨clean, cycles, applied⟩ := summary
      have below : o.cycles < standard.config.driver.maxCycles := by
        rw [cycles]
        decide
      obtain ⟨again, ranAgain, rest⟩ := run_again_of_stopped ran clean below
      exact ⟨o, used, again, rfl, clean, cycles, applied, ranAgain, rest⟩

end

end JavaMend.Engine
