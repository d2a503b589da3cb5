import JavaMend.Proofs.Engine.Quiet
import JavaMend.Proofs.Engine.Builtin

/-!
# A pass that fails

A pass that fails is not run again, and of what it was doing nothing stays but the
record of its failure: the unit is the one from before, and the ids that it took
are given back. So a run in which a pass fails when it first comes up goes as it
would go without its entry in the catalog, one failure apart
(`Engine.run_of_failsFirst`).

The two runs are compared step by step. `Outcome.OneMore` relates an outcome with
the failure to one without it; a pass of another entry keeps the relation, and the
pass that failed is passed over.
-/

namespace JavaMend

/-! ## Catalogs -/

namespace Catalog

/-- The catalog without the entry of an id. -/
def without (c : Catalog) (id : String) : Catalog := ⟨c.entries.filter (·.id != id)⟩

theorem nodup_of_validateFrom [GlobCompiler] {entries : List CatalogEntry} {seen : List String}
    (valid : validateFrom seen entries = .ok ()) :
    (entries.map (·.id)).Nodup ∧ ∀ entry ∈ entries, entry.id ∉ seen := by
  induction entries generalizing seen with
  | nil => exact ⟨List.nodup_nil, fun _ h => (List.not_mem_nil h).elim⟩
  | cons entry rest ih =>
    obtain ⟨first, later⟩ := ok_of_bind_ok valid
    obtain ⟨distinct, unseen⟩ := ih later
    have fresh : entry.id ∉ seen := by
      intro known
      have duplicate : seen.contains entry.id = true := List.contains_iff_mem.mpr known
      unfold validateEntry at first
      rw [if_pos duplicate] at first
      split at first <;> cases first
    refine ⟨List.nodup_cons.mpr ⟨fun again => ?_, distinct⟩, fun other mem => ?_⟩
    · obtain ⟨other, mem, same⟩ := List.mem_map.mp again
      exact unseen other mem (same ▸ List.mem_cons_self)
    · rcases List.mem_cons.mp mem with rfl | mem
      · exact fresh
      · exact fun known => unseen other mem (List.mem_cons_of_mem _ known)

/-- No two entries of a catalog have one id. -/
theorem nodup_ids_of_make [GlobCompiler] {entries : List CatalogEntry} {c : Catalog}
    (made : make entries = .ok c) : c.ids.Nodup := by
  unfold make at made
  cases valid : validateFrom [] entries with
  | error e =>
    rw [valid] at made
    cases made
  | ok _ =>
    rw [valid] at made
    cases made
    exact (nodup_of_validateFrom valid).1

end Catalog

/-- A run may go through one cycle at least. -/
theorem ValidConfig.maxCycles_pos [GlobCompiler] (v : ValidConfig) : 0 < v.driver.maxCycles := by
  have checked := (ok_of_bind_ok (ok_of_bind_ok v.valid).2).1
  unfold ValidConfig.driver
  cases own : v.config.driver with
  | none => cases v.preset <;> decide
  | some settings =>
    rw [own] at checked
    by_contra none
    have zero : settings.maxCycles = 0 := Nat.eq_zero_of_not_pos none
    have refused : DriverSettings.validate settings = .ok () := checked
    unfold DriverSettings.validate at refused
    rw [if_pos (.inl zero)] at refused
    cases refused

/-! ## Outcomes -/

/-- The first outcome has one failure more, and is the second one otherwise. -/
structure Outcome.OneMore (failure : RunFailure) (o o' : Outcome) : Prop where
  unit : o.unit = o'.unit
  cycles : o.cycles = o'.cycles
  appliedPasses : o.appliedPasses = o'.appliedPasses
  findings : o.findings = o'.findings
  failures : ∃ earlier later, o'.failures = earlier ++ later ∧
    o.failures = earlier ++ failure :: later
  /-- It is the only failure of its remediation. -/
  alone : ∀ f ∈ o'.failures, f.remediation ≠ failure.remediation

namespace Engine

/-- Whether the pass of an entry was seen to fail. -/
theorem any_failures_eq_false {failures : List RunFailure} {id : String}
    (spared : ∀ f ∈ failures, f.remediation ≠ id) :
    failures.any (·.remediation == id) = false := by
  rw [List.any_eq_false]
  intro f mem same
  exact spared f mem (eq_of_beq same)

variable [GlobCompiler] {a : Engine} {pass : CatalogEntry × RemediationSettings}
  {failure : RunFailure} {o o' : Outcome} {next used : NodeId} {id : String}

/-- The engine without the entry of an id. -/
def without (a : Engine) (id : String) : Engine := { a with catalog := a.catalog.without id }

/-- An entry with its settings, if it runs. -/
def setUp? (a : Engine) (entry : CatalogEntry) : Option (CatalogEntry × RemediationSettings) :=
  (a.config.remediation? entry.id).map fun settings => (entry, settings)

theorem enabled_eq (a : Engine) : a.enabled = a.catalog.entries.filterMap a.setUp? := rfl

theorem fst_of_setUp? {entry : CatalogEntry} (runs : a.setUp? entry = some pass) :
    pass.1 = entry := by
  obtain ⟨settings, -, rfl⟩ := Option.map_eq_some_iff.mp runs
  rfl

theorem enabled_without (a : Engine) (id : String) :
    (a.without id).enabled = a.enabled.filter (·.1.id != id) := by
  show (a.catalog.entries.filter (·.id != id)).filterMap a.setUp? =
    (a.catalog.entries.filterMap a.setUp?).filter (·.1.id != id)
  rw [List.filterMap_filter, List.filter_filterMap]
  congr 1
  funext entry
  cases runs : a.setUp? entry with
  | none => simp
  | some pass => simp [Option.filter_some, fst_of_setUp? runs]

theorem runOne_without (a : Engine) (id : String) : (a.without id).runOne = a.runOne := rfl

/-! ## A pass -/

theorem runOne_of_failed (failed : o.failures.any (·.remediation == pass.1.id) = true)
    (next : NodeId) : a.runOne o pass next = (.ok o, next) :=
  if_pos failed

/-- What a pass makes is kept if it is a change. -/
theorem runOne_of_ok {output : PassResult}
    (first : o.failures.any (·.remediation == pass.1.id) = false)
    (ran : pass.1.run pass.2 a.passEnv o.unit next = (.ok output, used)) :
    a.runOne o pass next =
      if isChange o.unit output.unit then
        (.ok { o.addFindings output.findings with
          unit := output.unit, appliedPasses := o.appliedPasses + 1 }, used)
      else (.ok (o.addFindings output.findings), next) := by
  obtain ⟨entry, settings⟩ := pass
  unfold runOne
  simp only [first, ran, Bool.false_eq_true, if_false]
  rfl

/-- A failure is recorded, and the unit and the supply stay as they are. -/
theorem runOne_of_error {e : EngineError} (isolates : a.config.driver.failFast = false)
    (first : o.failures.any (·.remediation == pass.1.id) = false)
    (fails : pass.1.run pass.2 a.passEnv o.unit next = (.error e, used)) :
    a.runOne o pass next =
      (.ok { o with failures := o.failures ++ [⟨pass.1.id, o.cycles, e.message⟩] }, next) := by
  obtain ⟨entry, settings⟩ := pass
  unfold runOne
  simp only [first, fails, isolates, Bool.false_eq_true, if_false]

/-- A pass records failures of its own entry only, in the cycle it is run in. -/
theorem runOne_spares (isolates : a.config.driver.failFast = false)
    (ran : a.runOne o pass next = (.ok o', used)) (other : pass.1.id ≠ id)
    (spared : ∀ f ∈ o.failures, f.remediation ≠ id) :
    o'.cycles = o.cycles ∧ ∀ f ∈ o'.failures, f.remediation ≠ id := by
  cases failed : o.failures.any (·.remediation == pass.1.id) with
  | true =>
    rw [runOne_of_failed failed] at ran
    cases ran
    exact ⟨rfl, spared⟩
  | false =>
    cases result : pass.1.run pass.2 a.passEnv o.unit next with
    | mk answer taken =>
      cases answer with
      | ok output =>
        rw [runOne_of_ok failed result] at ran
        split at ran
        all_goals
          cases ran
          exact ⟨rfl, spared⟩
      | error e =>
        rw [runOne_of_error isolates failed result] at ran
        cases ran
        refine ⟨rfl, fun f mem => ?_⟩
        rcases List.mem_append.mp mem with mem | mem
        · exact spared f mem
        · rw [List.mem_singleton.mp mem]
          exact other

theorem foldlM_runOne_spares (isolates : a.config.driver.failFast = false)
    {passes : List (CatalogEntry × RemediationSettings)}
    (ran : passes.foldlM a.runOne o next = (.ok o', used))
    (others : ∀ pass ∈ passes, pass.1.id ≠ id) (spared : ∀ f ∈ o.failures, f.remediation ≠ id) :
    o'.cycles = o.cycles ∧ ∀ f ∈ o'.failures, f.remediation ≠ id := by
  induction passes generalizing o next with
  | nil =>
    cases ran
    exact ⟨rfl, spared⟩
  | cons pass rest ih =>
    rw [List.foldlM_cons] at ran
    obtain ⟨mid, between, first, later⟩ := ok_of_bind ran
    obtain ⟨cycles, spared⟩ := runOne_spares isolates first (others pass List.mem_cons_self) spared
    obtain ⟨cycles', spared⟩ := ih later (fun p hp => others p (List.mem_cons_of_mem _ hp)) spared
    exact ⟨cycles'.trans cycles, spared⟩

end Engine

/-! ## Two runs -/

namespace Outcome.OneMore

open Engine

variable {failure : RunFailure} {o o' : Outcome}

/-- The failure more is one of its own remediation. -/
theorem any_failures (more : OneMore failure o o') {id : String}
    (other : id ≠ failure.remediation) :
    o.failures.any (·.remediation == id) = o'.failures.any (·.remediation == id) := by
  obtain ⟨earlier, later, without, with_⟩ := more.failures
  have differs : (failure.remediation == id) = false := beq_eq_false_iff_ne.mpr (Ne.symm other)
  rw [with_, without, List.any_append, List.any_append, List.any_cons, differs, Bool.false_or]

variable [GlobCompiler] {a : Engine} {pass : CatalogEntry × RemediationSettings}

theorem runOne_skips (more : OneMore failure o o') (same : pass.1.id = failure.remediation)
    (next : NodeId) : a.runOne o pass next = (.ok o, next) := by
  obtain ⟨earlier, later, -, with_⟩ := more.failures
  refine runOne_of_failed (List.any_eq_true.mpr ⟨failure, ?_, beq_iff_eq.mpr same.symm⟩) next
  rw [with_]
  exact List.mem_append_right _ List.mem_cons_self

/-- A pass of another entry does the same to both. -/
theorem runOne (more : OneMore failure o o') (isolates : a.config.driver.failFast = false)
    (other : pass.1.id ≠ failure.remediation) (next : NodeId) :
    ∃ q q' used, a.runOne o pass next = (.ok q, used) ∧ a.runOne o' pass next = (.ok q', used) ∧
      OneMore failure q q' := by
  have alike := more.any_failures other
  cases failed : o'.failures.any (·.remediation == pass.1.id) with
  | true =>
    exact ⟨o, o', next, runOne_of_failed (alike.trans failed) next, runOne_of_failed failed next,
      more⟩
  | false =>
    cases result : pass.1.run pass.2 a.passEnv o'.unit next with
    | mk answer taken =>
      have result' : pass.1.run pass.2 a.passEnv o.unit next = (answer, taken) := by
        rw [more.unit]
        exact result
      cases answer with
      | ok output =>
        have found : (o.addFindings output.findings).findings =
            (o'.addFindings output.findings).findings := by
          unfold addFindings
          rw [more.findings]
        rw [runOne_of_ok (alike.trans failed) result', runOne_of_ok failed result, more.unit]
        by_cases changes : isChange o'.unit output.unit = true
        · rw [if_pos changes, if_pos changes]
          exact ⟨_, _, taken, rfl, rfl, rfl, more.cycles, congrArg (· + 1) more.appliedPasses,
            found, more.failures, more.alone⟩
        · rw [if_neg changes, if_neg changes]
          exact ⟨_, _, next, rfl, rfl, more.unit, more.cycles, more.appliedPasses, found,
            more.failures, more.alone⟩
      | error e =>
        have ran := runOne_of_error isolates failed result
        have spared := runOne_spares isolates ran other more.alone
        refine ⟨_, _, next, runOne_of_error isolates (alike.trans failed) result', ran, more.unit,
          more.cycles, more.appliedPasses, more.findings, ?_, spared.2⟩
        obtain ⟨earlier, later, without, with_⟩ := more.failures
        refine ⟨earlier, later ++ [⟨pass.1.id, o'.cycles, e.message⟩], ?_, ?_⟩
        · show o'.failures ++ _ = _
          rw [without, List.append_assoc]
        · show o.failures ++ _ = _
          rw [with_, more.cycles, List.append_assoc]
          rfl

/-- Passes in a row, where the second run leaves out those of the entry that
failed. -/
theorem foldlM_runOne (more : OneMore failure o o') (isolates : a.config.driver.failFast = false)
    (passes : List (CatalogEntry × RemediationSettings)) (next : NodeId) :
    ∃ q q' used, passes.foldlM a.runOne o next = (.ok q, used) ∧
      (passes.filter (·.1.id != failure.remediation)).foldlM a.runOne o' next = (.ok q', used) ∧
      OneMore failure q q' := by
  induction passes generalizing o o' next with
  | nil => exact ⟨o, o', next, rfl, rfl, more⟩
  | cons pass rest ih =>
    by_cases same : pass.1.id = failure.remediation
    · obtain ⟨q, q', used, ran, ran', related⟩ := ih more next
      refine ⟨q, q', used, ?_, ?_, related⟩
      · rw [List.foldlM_cons]
        exact (bind_of_ok (more.runOne_skips same next)).trans ran
      · rw [List.filter_cons, same, bne_self_eq_false]
        exact ran'
    · obtain ⟨m, m', between, first, first', middle⟩ := more.runOne isolates same next
      obtain ⟨q, q', used, ran, ran', related⟩ := ih middle between
      refine ⟨q, q', used, ?_, ?_, related⟩
      · rw [List.foldlM_cons]
        exact (bind_of_ok first).trans ran
      · rw [List.filter_cons, if_pos (bne_iff_ne.mpr same), List.foldlM_cons]
        exact (bind_of_ok first').trans ran'

/-- A cycle in both runs, and the cycles after it. -/
theorem runCycles_succ {m m' : Outcome} {left : Nat} {next between : NodeId}
    (more : OneMore failure m m') (applied : o.appliedPasses = o'.appliedPasses)
    (ran : a.enabled.foldlM a.runOne { o with cycles := o.cycles + 1 } next = (.ok m, between))
    (ran' : (a.without failure.remediation).enabled.foldlM a.runOne
      { o' with cycles := o'.cycles + 1 } next = (.ok m', between))
    (later : ∃ q q' used, a.runCycles left m between = (.ok q, used) ∧
      (a.without failure.remediation).runCycles left m' between = (.ok q', used) ∧
      OneMore failure q q') :
    ∃ q q' used, a.runCycles (left + 1) o next = (.ok q, used) ∧
      (a.without failure.remediation).runCycles (left + 1) o' next = (.ok q', used) ∧
      OneMore failure q q' := by
  rw [Engine.runCycles, Engine.runCycles, runOne_without, bind_of_ok ran, bind_of_ok ran',
    more.appliedPasses, applied]
  by_cases rest : m'.appliedPasses = o'.appliedPasses
  · rw [if_pos rest, if_pos rest]
    exact ⟨m, m', between, rfl, rfl, more⟩
  · rw [if_neg rest, if_neg rest]
    exact later

theorem runCycles (more : OneMore failure o o') (isolates : a.config.driver.failFast = false)
    (left : Nat) (next : NodeId) :
    ∃ q q' used, a.runCycles left o next = (.ok q, used) ∧
      (a.without failure.remediation).runCycles left o' next = (.ok q', used) ∧
      OneMore failure q q' := by
  induction left generalizing o o' next with
  | zero => exact ⟨o, o', next, rfl, rfl, more⟩
  | succ left ih =>
    have started : OneMore failure { o with cycles := o.cycles + 1 }
        { o' with cycles := o'.cycles + 1 } :=
      ⟨more.unit, congrArg (· + 1) more.cycles, more.appliedPasses, more.findings, more.failures,
        more.alone⟩
    obtain ⟨m, m', between, ran, ran', middle⟩ := started.foldlM_runOne isolates a.enabled next
    rw [← enabled_without] at ran'
    exact middle.runCycles_succ more.appliedPasses ran ran' (ih middle between)

end Outcome.OneMore

namespace Engine

/-- The pass of an entry fails when it comes up in the first cycle, which is when it
is first run. -/
def FailsFirst [GlobCompiler] (a : Engine) (unit : CompilationUnit) (next : NodeId)
    (entry : CatalogEntry)
    (e : EngineError) : Prop :=
  ∃ before settings after reached between used,
    a.enabled = before ++ (entry, settings) :: after ∧
      before.foldlM a.runOne { Outcome.start unit with cycles := 1 } next = (.ok reached, between) ∧
      entry.run settings a.passEnv reached.unit between = (.error e, used)

section

variable [GlobCompiler] {a : Engine} {entry : CatalogEntry} {settings : RemediationSettings}
  {before after : List (CatalogEntry × RemediationSettings)}

/-- No entry that runs before another one has its id. -/
theorem enabled_distinct (distinct : a.catalog.ids.Nodup)
    (enabled : a.enabled = before ++ (entry, settings) :: after) :
    ∀ pass ∈ before, pass.1.id ≠ entry.id := by
  have apart : a.enabled.Pairwise fun p q => p.1.id ≠ q.1.id := by
    rw [enabled_eq, List.pairwise_filterMap]
    refine (List.pairwise_map.mp distinct).imp fun ne p hp q hq => ?_
    rw [fst_of_setUp? hp, fst_of_setUp? hq]
    exact ne
  rw [enabled, List.pairwise_append] at apart
  exact fun pass mem => apart.2.2 pass mem _ List.mem_cons_self

/-- The first cycle, with the entry that fails and without it. -/
theorem firstCycle_of_error {reached : Outcome} {o : Outcome} {next between used : NodeId}
    {e : EngineError} (isolates : a.config.driver.failFast = false)
    (others : ∀ pass ∈ before, pass.1.id ≠ entry.id)
    (enabled : a.enabled = before ++ (entry, settings) :: after) (clean : o.failures = [])
    (ran : before.foldlM a.runOne o next = (.ok reached, between))
    (fails : entry.run settings a.passEnv reached.unit between = (.error e, used)) :
    ∃ m m' used, a.enabled.foldlM a.runOne o next = (.ok m, used) ∧
      (a.without entry.id).enabled.foldlM a.runOne o next = (.ok m', used) ∧
      Outcome.OneMore ⟨entry.id, o.cycles, e.message⟩ m m' := by
  obtain ⟨cycles, spared⟩ := foldlM_runOne_spares isolates ran others
    (fun f mem => by rw [clean] at mem; cases mem)
  have failed : a.runOne reached (entry, settings) between = _ :=
    runOne_of_error isolates (any_failures_eq_false spared) fails
  have more : Outcome.OneMore ⟨entry.id, reached.cycles, e.message⟩
      { reached with failures := reached.failures ++ [⟨entry.id, reached.cycles, e.message⟩] }
      reached :=
    ⟨rfl, rfl, rfl, rfl, ⟨reached.failures, [], (List.append_nil _).symm, rfl⟩, spared⟩
  obtain ⟨m, m', last, ranAfter, ranAfter', related⟩ := more.foldlM_runOne isolates after between
  refine ⟨m, m', last, ?_, ?_, cycles ▸ related⟩
  · rw [enabled, List.foldlM_append, bind_of_ok ran, List.foldlM_cons]
    exact (bind_of_ok failed).trans ranAfter
  · have kept : before.filter (·.1.id != entry.id) = before :=
      List.filter_eq_self.mpr fun pass mem => bne_iff_ne.mpr (others pass mem)
    rw [enabled_without, enabled, List.filter_append, kept, List.foldlM_append, bind_of_ok ran,
      List.filter_cons, bne_self_eq_false]
    exact ranAfter'

/-- A pass that fails the first time it is run, where failures do not end the run,
leaves nothing behind but one failure. The run ends as that of the engine without
the entry ends: with the same unit and the same supply of ids, after as many cycles
and changes and with the same findings. -/
theorem run_of_failsFirst {entries : List CatalogEntry}
    (made : Catalog.make entries = .ok a.catalog) (isolates : a.config.driver.failFast = false)
    {unit : CompilationUnit} {next : NodeId} {e : EngineError}
    (fails : a.FailsFirst unit next entry e) :
    ∃ o o' used, a.run unit next = (.ok o, used) ∧
      (a.without entry.id).run unit next = (.ok o', used) ∧
      o.unit = o'.unit ∧ o.changed = o'.changed ∧ o.cycles = o'.cycles ∧
      o.appliedPasses = o'.appliedPasses ∧ o.findings = o'.findings ∧
      (∃ earlier later, o'.failures = earlier ++ later ∧
        o.failures = earlier ++ ⟨entry.id, 1, e.message⟩ :: later) ∧
      ∀ f ∈ o'.failures, f.remediation ≠ entry.id := by
  obtain ⟨before, settings, after, reached, between, used, enabled, ran, failed⟩ := fails
  have others := enabled_distinct (Catalog.nodup_ids_of_make made) enabled
  obtain ⟨m, m', last, cycle, cycle', middle⟩ :=
    firstCycle_of_error isolates others enabled rfl ran failed
  obtain ⟨left, allowed⟩ : ∃ left, a.config.driver.maxCycles = left + 1 :=
    ⟨_, (Nat.succ_pred_eq_of_pos a.config.maxCycles_pos).symm⟩
  have ends : ∃ o o' used, a.runCycles (left + 1) (.start unit) next = (.ok o, used) ∧
      (a.without entry.id).runCycles (left + 1) (.start unit) next = (.ok o', used) ∧
      Outcome.OneMore ⟨entry.id, 1, e.message⟩ o o' :=
    middle.runCycles_succ rfl cycle cycle' (middle.runCycles isolates left last)
  obtain ⟨o, o', final, ran, ran', more⟩ := ends
  refine ⟨o, o', final, ?_, ?_, more.unit, ?_, more.cycles, more.appliedPasses, more.findings,
    more.failures, more.alone⟩
  · rw [run, allowed]
    exact ran
  · show (a.without entry.id).runCycles a.config.driver.maxCycles _ next = _
    rw [allowed]
    exact ran'
  · rw [Outcome.changed, Outcome.changed, more.appliedPasses]

end

namespace RefusedCookie

attribute [local instance] GlobCompiler.standard

def random : Ty := .known Fqn.random

/-- `Random r = new Random();` -/
def generator : Stmt :=
  ⟨3, .declare ⟨[], "Random", [⟨4, "r", random,
    some ⟨5, random, .create "Random" [] (some (.constructor random []))⟩⟩]⟩⟩

def cookie : Ty := .known Fqn.cookie

/-- `Cookie c = new Cookie("a", "b");` -/
def declaration : Stmt :=
  ⟨6, .declare ⟨[], "Cookie", [⟨7, "c", cookie,
    some ⟨8, cookie, .create "Cookie"
      [⟨9, .string, .literal (.string "a")⟩, ⟨10, .string, .literal (.string "b")⟩]
      (some (.constructor cookie [.string, .string]))⟩⟩]⟩⟩

def unit : CompilationUnit :=
  ⟨0, none, [], [⟨1, ⟨[], "A", .known "A"⟩, ⟨2, false, [generator, declaration]⟩⟩]⟩

def randomEntry : CatalogEntry := ⟨"secure-random", "", [], .secureRandom⟩

def cookieEntry : CatalogEntry := ⟨"cookie-secure", "", [], .cookieSecure⟩

/-- An engine that can replace expressions and not add statements. -/
def engine : Engine where
  config := .standard
  catalog := ⟨[randomEntry, cookieEntry]⟩
  matcher := .standard
  splicer := .refusing [.before, .after]

/-- How many changes the first pass makes, and what the second one then says. -/
def refusal : Option (Nat × String) :=
  match [(randomEntry, RemediationSettings.ofPreset .balanced)].foldlM engine.runOne
      { Outcome.start unit with cycles := 1 } 11 with
  | (.ok o, next) =>
    match cookieEntry.run (.ofPreset .balanced) engine.passEnv o.unit next with
    | (.error e, _) => some (o.appliedPasses, e.message)
    | (.ok _, _) => none
  | (.error _, _) => none

theorem failsFirst : ∃ e : EngineError, e.message = "Splice error: after is disabled" ∧
    engine.FailsFirst unit 11 cookieEntry e := by
  have refused : refusal = some (1, "Splice error: after is disabled") := by decide +kernel
  unfold refusal at refused
  split at refused
  next o next ran =>
    split at refused
    next e used fails =>
      simp only [Option.some.injEq, Prod.mk.injEq] at refused
      exact ⟨e, refused.2, [(randomEntry, .ofPreset .balanced)], .ofPreset .balanced, [], o, next,
        used, rfl, ran, fails⟩
    next => cases refused
  next => cases refused

/-- The generator is replaced with or without the entry that fails. -/
theorem run_of_refused_cookie :
    Catalog.make [randomEntry, cookieEntry] = .ok engine.catalog ∧
      engine.config.driver.failFast = false ∧
      ∃ e : EngineError, e.message = "Splice error: after is disabled" ∧
        engine.FailsFirst unit 11 cookieEntry e ∧
        ∃ o o' used, engine.run unit 11 = (.ok o, used) ∧
          (engine.without cookieEntry.id).run unit 11 = (.ok o', used) ∧
          o.unit = o'.unit ∧ o.changed = o'.changed ∧ o.cycles = o'.cycles ∧
          o.appliedPasses = o'.appliedPasses ∧ o.findings = o'.findings ∧
          (∃ earlier later, o'.failures = earlier ++ later ∧
            o.failures = earlier ++ ⟨cookieEntry.id, 1, e.message⟩ :: later) ∧
          ∀ f ∈ o'.failures, f.remediation ≠ cookieEntry.id := by
  have made : Catalog.make [randomEntry, cookieEntry] = .ok engine.catalog := rfl
  have isolates : engine.config.driver.failFast = false := rfl
  obtain ⟨e, message, fails⟩ := failsFirst
  exact ⟨made, isolates, e, message, fails, run_of_failsFirst made isolates fails⟩

end RefusedCookie

end Engine

end JavaMend
