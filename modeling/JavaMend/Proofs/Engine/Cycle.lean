import JavaMend.Engine
import JavaMend.Proofs.Remedy.Success
import Mathlib.Logic.Function.Iterate

/-!
# Stages of a run

An outcome counts what happened; what happens next depends on less. A `Stage`
is a unit with the supply of ids, and an engine whose passes all succeed takes
stages to stages: `Engine.cycle` is one cycle, and a stage at rest is one that
no pass changes.

`Engine.runCycles_spec` says what a run is in these terms. It iterates the
cycle up to the first stage at rest, or as often as allowed, and it records no
failure.
-/

namespace JavaMend

/-- How far a run has come: the unit so far and the supply of ids. -/
structure Stage where
  unit : CompilationUnit
  next : NodeId

/-- An outcome without failures that stands at a stage. -/
structure Outcome.At (o : Outcome) (stage : Stage) : Prop where
  unit : o.unit = stage.unit
  failures : o.failures = []

namespace Engine

/-- An engine none of whose passes fails. -/
def Reliable [GlobCompiler] (a : Engine) : Prop :=
  ∀ pass ∈ a.enabled, (pass.1.run pass.2 a.passEnv).Succeeds

/-- What a pass makes of a stage, if that is a change. -/
def change? [GlobCompiler] (a : Engine) (pass : CatalogEntry × RemediationSettings)
    (stage : Stage) :
    Option Stage :=
  match pass.1.run pass.2 a.passEnv stage.unit stage.next with
  | (.ok output, used) => if isChange stage.unit output.unit then some ⟨output.unit, used⟩ else none
  | (.error _, _) => none

/-- The stage after passes, one after the other. -/
def stageAfter [GlobCompiler] (a : Engine) :
    List (CatalogEntry × RemediationSettings) → Stage → Stage
  | [], stage => stage
  | pass :: rest, stage => a.stageAfter rest ((a.change? pass stage).getD stage)

/-- How many of some passes, run one after the other, change the unit. -/
def changesIn [GlobCompiler] (a : Engine) : List (CatalogEntry × RemediationSettings) → Stage → Nat
  | [], _ => 0
  | pass :: rest, stage =>
    (a.change? pass stage).toList.length +
      a.changesIn rest ((a.change? pass stage).getD stage)

/-- One cycle over everything that is switched on. -/
def cycle [GlobCompiler] (a : Engine) (stage : Stage) : Stage := a.stageAfter a.enabled stage

/-- No pass changes the unit. -/
def AtRest [GlobCompiler] (a : Engine) (stage : Stage) : Prop :=
  ∀ pass ∈ a.enabled, a.change? pass stage = none

/-- What follows a step that succeeds goes on from the supply it leaves. -/
theorem bind_of_ok {α β : Type} {first : ExceptT EngineError Fresh α} {x : α} {next used : NodeId}
    {rest : α → ExceptT EngineError Fresh β} (ran : first next = (.ok x, used)) :
    (first >>= rest) next = rest x used := by
  show StateT.bind first (ExceptT.bindCont rest) next = rest x used
  simp only [StateT.bind, ran]
  rfl

variable [GlobCompiler] {a : Engine}

/-- Passes change nothing in a row exactly if none of them alone does. -/
theorem changesIn_eq_zero_iff {passes : List (CatalogEntry × RemediationSettings)}
    {stage : Stage} :
    a.changesIn passes stage = 0 ↔ ∀ pass ∈ passes, a.change? pass stage = none := by
  induction passes with
  | nil => exact ⟨fun _ _ h => (List.not_mem_nil h).elim, fun _ => rfl⟩
  | cons pass rest ih =>
    cases h : a.change? pass stage with
    | some changed => simp [changesIn, h]
    | none =>
      simp only [changesIn, h, Option.getD_none, Option.toList_none, List.length_nil,
        Nat.zero_add, ih, List.forall_mem_cons, true_and]

theorem atRest_iff {stage : Stage} : a.AtRest stage ↔ a.changesIn a.enabled stage = 0 :=
  changesIn_eq_zero_iff.symm

/-- Passes that change nothing leave the stage as it is. -/
theorem stageAfter_of_rest {passes : List (CatalogEntry × RemediationSettings)} {stage : Stage}
    (rest : ∀ pass ∈ passes, a.change? pass stage = none) : a.stageAfter passes stage = stage := by
  induction passes with
  | nil => rfl
  | cons pass tail ih =>
    rw [stageAfter, rest pass List.mem_cons_self]
    exact ih fun p hp => rest p (List.mem_cons_of_mem _ hp)

/-! ## A pass -/

/-- A pass that succeeds moves an outcome along its stages and counts a
change. -/
theorem runOne_spec {pass : CatalogEntry × RemediationSettings}
    (succeeds : (pass.1.run pass.2 a.passEnv).Succeeds) {o : Outcome} {stage : Stage}
    (at_ : o.At stage) :
    ∃ o', a.runOne o pass stage.next = (.ok o', ((a.change? pass stage).getD stage).next) ∧
      o'.At ((a.change? pass stage).getD stage) ∧
      o'.appliedPasses = o.appliedPasses + (a.change? pass stage).toList.length := by
  obtain ⟨entry, settings⟩ := pass
  obtain ⟨output, used, ran⟩ := succeeds stage.unit stage.next
  have quiet : o.failures.any (·.remediation == entry.id) = false := by
    rw [at_.failures]; rfl
  unfold runOne change?
  simp only [quiet, at_.unit, ran, Outcome.addFindings, Bool.false_eq_true, if_false]
  by_cases changes : isChange stage.unit output.unit = true
  · rw [if_pos changes, if_pos changes]
    exact ⟨_, rfl, ⟨rfl, at_.failures⟩, rfl⟩
  · rw [if_neg changes, if_neg changes]
    exact ⟨_, rfl, ⟨rfl, at_.failures⟩, rfl⟩

/-- The same of several passes in a row. -/
theorem foldlM_runOne_spec {passes : List (CatalogEntry × RemediationSettings)}
    (succeed : ∀ pass ∈ passes, (pass.1.run pass.2 a.passEnv).Succeeds)
    {o : Outcome} {stage : Stage} (at_ : o.At stage) :
    ∃ o', passes.foldlM a.runOne o stage.next = (.ok o', (a.stageAfter passes stage).next) ∧
      o'.At (a.stageAfter passes stage) ∧
      o'.appliedPasses = o.appliedPasses + a.changesIn passes stage := by
  induction passes generalizing o stage with
  | nil => exact ⟨o, rfl, at_, rfl⟩
  | cons pass rest ih =>
    obtain ⟨o₁, ran, at₁, count₁⟩ := runOne_spec (succeed pass List.mem_cons_self) at_
    obtain ⟨o₂, ranRest, at₂, count₂⟩ :=
      ih (fun p hp => succeed p (List.mem_cons_of_mem _ hp)) at₁
    refine ⟨o₂, ?_, at₂, ?_⟩
    · rw [List.foldlM_cons]
      exact (bind_of_ok ran).trans ranRest
    · rw [count₂, count₁, changesIn, Nat.add_assoc]

/-! ## Cycles -/

/-- What a run of at most `left` cycles from `stage` makes of an outcome, where
`moved` of the cycles changed the unit. -/
structure Cycled [GlobCompiler] (a : Engine) (left moved : Nat) (stage : Stage) (o o' : Outcome) :
    Prop where
  at_ : o'.At (a.cycle^[moved] stage)
  within : moved ≤ left
  /-- No cycle that was followed by another one started at rest. -/
  moving : ∀ i < moved, ¬ a.AtRest (a.cycle^[i] stage)
  /-- A run that could have gone on has come to rest. -/
  rest : moved < left → a.AtRest (a.cycle^[moved] stage)
  unchanged : moved = 0 → o'.appliedPasses = o.appliedPasses
  counted : o.appliedPasses + moved ≤ o'.appliedPasses

/-- One cycle more in front of a run. -/
theorem Cycled.cons {left moved : Nat} {stage : Stage} {o after o' : Outcome}
    (h : a.Cycled left moved (a.cycle stage) after o') (moving : ¬ a.AtRest stage)
    (counted : o.appliedPasses + 1 ≤ after.appliedPasses) :
    a.Cycled (left + 1) (moved + 1) stage o o' where
  at_ := h.at_
  within := Nat.succ_le_succ h.within
  moving i hi := by
    cases i with
    | zero => exact moving
    | succ i => exact h.moving i (Nat.lt_of_succ_lt_succ hi)
  rest hlt := h.rest (Nat.lt_of_succ_lt_succ hlt)
  unchanged hzero := by cases hzero
  counted := by have := h.counted; omega

/-- A run iterates the cycle until it comes to rest or may not go on. -/
theorem runCycles_spec (reliable : a.Reliable) (left : Nat) {o : Outcome} {stage : Stage}
    (at_ : o.At stage) :
    ∃ o' moved, a.runCycles left o stage.next = (.ok o', (a.cycle^[moved] stage).next) ∧
      a.Cycled left moved stage o o' := by
  induction left generalizing o stage with
  | zero =>
    refine ⟨o, 0, rfl, at_, Nat.le_refl 0, ?_, ?_, fun _ => rfl, Nat.le_refl _⟩
    · intro i hi; cases hi
    · intro hlt; cases hlt
  | succ left ih =>
    have started : ({ o with cycles := o.cycles + 1 } : Outcome).At stage :=
      ⟨at_.unit, at_.failures⟩
    obtain ⟨after, ran, atAfter, count⟩ := foldlM_runOne_spec reliable started
    rw [runCycles, bind_of_ok ran]
    by_cases rest : a.AtRest stage
    · -- Nothing changed, so the cycle ends where it began.
      have still : after.appliedPasses = o.appliedPasses := by
        rw [count, atRest_iff.mp rest]; rfl
      have stays : a.stageAfter a.enabled stage = stage := stageAfter_of_rest rest
      rw [if_pos still, stays]
      rw [stays] at atAfter
      refine ⟨after, 0, rfl, atAfter, Nat.zero_le _, ?_, fun _ => rest, fun _ => still,
        Nat.le_of_eq still.symm⟩
      intro i hi; cases hi
    · have moved : o.appliedPasses + 1 ≤ after.appliedPasses := by
        have := mt atRest_iff.mpr rest
        simp only at count
        omega
      rw [if_neg (by omega)]
      obtain ⟨o', k, ranRest, cycled⟩ := ih atAfter
      exact ⟨o', k + 1, ranRest, cycled.cons rest moved⟩

/-- A run, in terms of its stages. -/
theorem run_spec (reliable : a.Reliable) (unit : CompilationUnit) (next : NodeId) :
    ∃ o moved, a.run unit next = (.ok o, (a.cycle^[moved] ⟨unit, next⟩).next) ∧
      a.Cycled a.config.driver.maxCycles moved ⟨unit, next⟩ (.start unit) o := by
  have started : (Outcome.start unit).At ⟨unit, next⟩ := ⟨rfl, rfl⟩
  exact runCycles_spec reliable _ started

end Engine

end JavaMend
