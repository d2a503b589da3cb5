import JavaMend.Proofs.Engine.Isolation
import JavaMend.Proofs.Remedy.Silent
import JavaMend.Proofs.Remedy.Untriggered
import Mathlib.Data.List.Induction
import Mathlib.Data.List.Infix
import Mathlib.Data.List.Nodup

/-!
# What a run has found

A run collects what its passes report, in every cycle and each finding once, and
forgets nothing. So its findings are not those of the unit it ends with: a flagged
place that a later cycle rewrites is reported again with its new text, and the old
report stays.

`Engine.run_findings` says what the findings of a run are. A run that stops by
itself has reported in its last cycle what a further run on the result reports; so
it has found all that the further run finds, and no more than that exactly if what it
had found before the last cycle is the beginning of it (`Finding.once_append_eq_iff`).
-/

namespace JavaMend

/-! ## Each finding once -/

namespace Finding

/-- The findings of a first list, and those of a second one that are new. -/
def addNew (all found : List Finding) : List Finding :=
  found.foldl (fun all f => if all.contains f then all else all ++ [f]) all

/-- The findings of a list, each where it stands first. -/
def once (found : List Finding) : List Finding := addNew [] found

variable {all found more : List Finding} {f : Finding}

theorem addNew_append (all found more : List Finding) :
    addNew all (found ++ more) = addNew (addNew all found) more :=
  List.foldl_append

theorem addNew_singleton (all : List Finding) (f : Finding) :
    addNew all [f] = if f ∈ all then all else all ++ [f] := by
  show (if all.contains f then all else all ++ [f]) = _
  simp only [List.contains_eq_mem, decide_eq_true_eq]

theorem prefix_addNew (all found : List Finding) : all <+: addNew all found := by
  induction found using List.reverseRecOn with
  | nil => exact List.prefix_rfl
  | append_singleton front f ih =>
    rw [addNew_append, addNew_singleton]
    split
    · exact ih
    · exact ih.trans (List.prefix_append _ _)

theorem mem_addNew : f ∈ addNew all found ↔ f ∈ all ∨ f ∈ found := by
  induction found using List.reverseRecOn with
  | nil => exact (or_iff_left List.not_mem_nil).symm
  | append_singleton front g ih =>
    rw [addNew_append, addNew_singleton, List.mem_append, List.mem_singleton]
    split
    next known =>
      rw [ih, ← or_assoc]
      refine (or_iff_left_of_imp ?_).symm
      rintro rfl
      exact ih.mp known
    next => rw [List.mem_append, List.mem_singleton, ih, or_assoc]

theorem mem_once : f ∈ once found ↔ f ∈ found := by
  rw [once, mem_addNew, or_iff_right List.not_mem_nil]

theorem nodup_once (found : List Finding) : (once found).Nodup := by
  unfold once
  induction found using List.reverseRecOn with
  | nil => exact List.nodup_nil
  | append_singleton front f ih =>
    rw [addNew_append, addNew_singleton]
    split
    next => exact ih
    next new =>
      refine List.nodup_append.mpr ⟨ih, List.nodup_singleton f, fun g known h same => ?_⟩
      rintro rfl
      exact new (List.mem_singleton.mp same ▸ known)

/-- What is added are the new findings, in their own order. -/
theorem addNew_eq_append (all found : List Finding) :
    addNew all found = all ++ (once found).filter (· ∉ all) := by
  induction found using List.reverseRecOn with
  | nil => exact (List.append_nil all).symm
  | append_singleton front f ih =>
    have last : once (front ++ [f]) = if f ∈ once front then once front else once front ++ [f] := by
      rw [once, addNew_append, addNew_singleton]
      rfl
    rw [addNew_append, addNew_singleton, last]
    by_cases known : f ∈ front
    · rw [if_pos (mem_addNew.mpr (.inr known)), if_pos (mem_once.mpr known), ih]
    · rw [if_neg (mt mem_once.mp known), List.filter_append, ← List.append_assoc, ← ih]
      by_cases old : f ∈ all
      · rw [if_pos (mem_addNew.mpr (.inl old))]
        simp [old]
      · rw [if_neg fun h => (mem_addNew.mp h).elim old known]
        simp [old]

/-- A list is no longer than its end, each finding counted once, exactly if its
front is how the end begins. -/
theorem once_append_eq_iff : once (found ++ more) = once more ↔ once found <+: once more := by
  have whole : once (found ++ more) = addNew (once found) more := addNew_append _ _ _
  constructor
  · intro same
    rw [← same, whole]
    exact prefix_addNew _ _
  · rintro ⟨rest, begins⟩
    have apart := nodup_once more
    rw [← begins, List.nodup_append] at apart
    have kept : (once found ++ rest).filter (· ∉ once found) = rest := by
      rw [List.filter_append, List.filter_eq_nil_iff.mpr (fun f mem => by simpa using mem),
        List.filter_eq_self.mpr ?_, List.nil_append]
      intro f mem
      simp only [decide_eq_true_eq]
      exact fun old => apart.2.2 f old f mem rfl
    rw [whole, addNew_eq_append, ← begins, kept]

end Finding

/-! ## What is reported -/

namespace Engine

/-- What a pass reports at a stage. -/
def reports [GlobCompiler] (a : Engine) (pass : CatalogEntry × RemediationSettings)
    (stage : Stage) :
    List Finding :=
  match pass.1.run pass.2 a.passEnv stage.unit stage.next with
  | (.ok output, _) => output.findings
  | (.error _, _) => []

/-- What passes report, one after the other. -/
def reportsIn [GlobCompiler] (a : Engine) :
    List (CatalogEntry × RemediationSettings) → Stage → List Finding
  | [], _ => []
  | pass :: rest, stage =>
    a.reports pass stage ++ a.reportsIn rest ((a.change? pass stage).getD stage)

/-- What is reported in so many cycles. -/
def reported [GlobCompiler] (a : Engine) : Nat → Stage → List Finding
  | 0, _ => []
  | n + 1, stage => a.reportsIn a.enabled stage ++ a.reported n (a.cycle stage)

section

variable [GlobCompiler] {a : Engine} {o o' : Outcome} {stage : Stage} {used : NodeId}

/-- The last of several cycles. -/
theorem reported_succ (a : Engine) (n : Nat) (stage : Stage) :
    a.reported (n + 1) stage =
      a.reported n stage ++ a.reportsIn a.enabled (a.cycle^[n] stage) := by
  induction n generalizing stage with
  | zero => exact List.append_nil _
  | succ n ih => rw [reported, ih, reported, List.append_assoc, Function.iterate_succ_apply]

/-- A pass adds what it reports and leaves the count of cycles alone. -/
theorem runOne_findings {pass : CatalogEntry × RemediationSettings}
    (succeeds : (pass.1.run pass.2 a.passEnv).Succeeds) (at_ : o.At stage)
    (ran : a.runOne o pass stage.next = (.ok o', used)) :
    o'.findings = Finding.addNew o.findings (a.reports pass stage) ∧ o'.cycles = o.cycles := by
  obtain ⟨output, taken, result⟩ := succeeds stage.unit stage.next
  have first : o.failures.any (·.remediation == pass.1.id) = false := by
    rw [at_.failures]
    rfl
  have reports : a.reports pass stage = output.findings := by rw [Engine.reports, result]
  rw [← at_.unit] at result
  rw [runOne_of_ok first result] at ran
  rw [reports]
  split at ran
  all_goals
    cases ran
    exact ⟨rfl, rfl⟩

theorem foldlM_runOne_findings {passes : List (CatalogEntry × RemediationSettings)}
    (succeed : ∀ pass ∈ passes, (pass.1.run pass.2 a.passEnv).Succeeds) (at_ : o.At stage)
    (ran : passes.foldlM a.runOne o stage.next = (.ok o', used)) :
    o'.findings = Finding.addNew o.findings (a.reportsIn passes stage) ∧ o'.cycles = o.cycles := by
  induction passes generalizing o stage with
  | nil =>
    cases ran
    exact ⟨rfl, rfl⟩
  | cons pass rest ih =>
    have first := succeed pass List.mem_cons_self
    obtain ⟨o₁, ran₁, at₁, -⟩ := runOne_spec first at_
    rw [List.foldlM_cons] at ran
    have later := (bind_of_ok ran₁).symm.trans ran
    obtain ⟨found₁, cycles₁⟩ := runOne_findings first at_ ran₁
    obtain ⟨found₂, cycles₂⟩ := ih (fun p hp => succeed p (List.mem_cons_of_mem _ hp)) at₁ later
    refine ⟨?_, cycles₂.trans cycles₁⟩
    rw [found₂, found₁, reportsIn, Finding.addNew_append]

/-- What cycles leave of an outcome: `n` of them were run, and their reports were
added. -/
structure Reported (a : Engine) (left n : Nat) (stage : Stage) (o o' : Outcome) : Prop where
  within : n ≤ left
  cycles : o'.cycles = o.cycles + n
  findings : o'.findings = Finding.addNew o.findings (a.reported n stage)
  /-- A run that could have gone on was at rest in its last cycle. -/
  rest : n < left → ∃ m, n = m + 1 ∧ a.AtRest (a.cycle^[m] stage)
  /-- No other cycle was at rest. -/
  moving : ∀ i, i + 1 < n → ¬ a.AtRest (a.cycle^[i] stage)

/-- One cycle more in front of a run. -/
theorem Reported.cons {left n : Nat} {after : Outcome}
    (h : a.Reported left n (a.cycle stage) after o') (moving : ¬ a.AtRest stage)
    (cycles : after.cycles = o.cycles + 1)
    (findings : after.findings = Finding.addNew o.findings (a.reportsIn a.enabled stage)) :
    a.Reported (left + 1) (n + 1) stage o o' where
  within := Nat.succ_le_succ h.within
  cycles := by rw [h.cycles, cycles, Nat.add_assoc, Nat.add_comm 1]
  findings := by rw [h.findings, findings, reported, Finding.addNew_append]
  rest hlt := by
    obtain ⟨m, rfl, rest⟩ := h.rest (Nat.lt_of_succ_lt_succ hlt)
    exact ⟨m + 1, rfl, rest⟩
  moving i hi := by
    cases i with
    | zero => exact moving
    | succ i => exact h.moving i (Nat.lt_of_succ_lt_succ hi)

theorem runCycles_reported (reliable : a.Reliable) (left : Nat) (at_ : o.At stage)
    (ran : a.runCycles left o stage.next = (.ok o', used)) :
    ∃ n, a.Reported left n stage o o' ∧ (⟨o'.unit, used⟩ : Stage) = a.cycle^[n] stage := by
  induction left generalizing o stage with
  | zero =>
    cases ran
    refine ⟨0, ⟨Nat.le_refl 0, rfl, rfl, ?_, ?_⟩, by rw [at_.unit]; rfl⟩
    · intro hlt; cases hlt
    · intro i hi; cases hi
  | succ left ih =>
    have started : ({ o with cycles := o.cycles + 1 } : Outcome).At stage :=
      ⟨at_.unit, at_.failures⟩
    obtain ⟨after, cycle, atAfter, count⟩ := foldlM_runOne_spec reliable started
    obtain ⟨findings, cycles⟩ := foldlM_runOne_findings reliable started cycle
    rw [runCycles, bind_of_ok cycle] at ran
    by_cases rest : a.AtRest stage
    · have still : after.appliedPasses = o.appliedPasses := by
        rw [count, atRest_iff.mp rest]
        rfl
      rw [if_pos still] at ran
      cases ran
      refine ⟨1, ⟨by omega, cycles, ?_, fun _ => ⟨0, rfl, rest⟩, ?_⟩, by rw [atAfter.unit]; rfl⟩
      · rw [findings, reported, reported, List.append_nil]
      · intro i hi
        omega
    · have moved : after.appliedPasses ≠ o.appliedPasses := by
        have := mt atRest_iff.mpr rest
        simp only at count
        omega
      rw [if_neg moved] at ran
      obtain ⟨n, reported, ends⟩ := ih atAfter ran
      exact ⟨n + 1, reported.cons rest cycles findings, ends⟩

/-- The findings of a run are what was reported in its cycles. -/
theorem run_findings (reliable : a.Reliable) {unit : CompilationUnit} {next : NodeId}
    (ran : a.run unit next = (.ok o, used)) :
    o.findings = Finding.once (a.reported o.cycles ⟨unit, next⟩) := by
  have started : (Outcome.start unit).At ⟨unit, next⟩ := ⟨rfl, rfl⟩
  obtain ⟨n, reported, -⟩ := runCycles_reported reliable _ started ran
  have cycles : o.cycles = n := reported.cycles.trans (Nat.zero_add n)
  rw [reported.findings, cycles]
  rfl

/-- At rest, a run takes one cycle. -/
theorem run_of_atRest (reliable : a.Reliable) {unit : CompilationUnit} {next : NodeId}
    (rest : a.AtRest ⟨unit, next⟩) :
    ∃ o, a.run unit next = (.ok o, next) ∧
      o.findings = Finding.once (a.reportsIn a.enabled ⟨unit, next⟩) := by
  obtain ⟨o, moved, ran, cycled⟩ := run_spec reliable unit next
  cases (cycled.eq_zero_iff a.config.maxCycles_pos).mpr rest
  have started : (Outcome.start unit).At ⟨unit, next⟩ := ⟨rfl, rfl⟩
  obtain ⟨n, reported, -⟩ := runCycles_reported reliable _ started ran
  have one : n = 1 := by
    have most : ¬ 1 < n := fun more => reported.moving 0 more rest
    have least : n ≠ 0 := by
      rintro rfl
      obtain ⟨m, none, -⟩ := reported.rest a.config.maxCycles_pos
      cases none
    omega
  refine ⟨o, ran, ?_⟩
  rw [reported.findings, one, Engine.reported, Engine.reported, List.append_nil]
  rfl

/-! ## The built-in catalog -/

theorem stageAfter_append (a : Engine) (passes more : List (CatalogEntry × RemediationSettings))
    (stage : Stage) :
    a.stageAfter (passes ++ more) stage = a.stageAfter more (a.stageAfter passes stage) := by
  induction passes generalizing stage with
  | nil => rfl
  | cons pass rest ih => exact ih _

theorem reportsIn_append (a : Engine) (passes more : List (CatalogEntry × RemediationSettings))
    (stage : Stage) :
    a.reportsIn (passes ++ more) stage =
      a.reportsIn passes stage ++ a.reportsIn more (a.stageAfter passes stage) := by
  induction passes generalizing stage with
  | nil => rfl
  | cons pass rest ih =>
    rw [List.cons_append, reportsIn, ih, reportsIn, List.append_assoc]
    rfl

/-- A pass that fixes reports nothing. -/
theorem reports_of_fixes {pass : CatalogEntry × RemediationSettings}
    (fixes : pass.1.remediation ≠ .privilegedCode) (stage : Stage) : a.reports pass stage = [] := by
  unfold reports
  split
  next output used ran =>
    cases made : pass.1.remediation.pass pass.1.id pass.2 a.passEnv with
    | ok fixing =>
      rw [CatalogEntry.run, made] at ran
      exact Remediation.pass_silent fixes made ran
    | error e =>
      rw [CatalogEntry.run, made] at ran
      cases ran
  next => rfl

theorem reportsIn_of_fixes {passes : List (CatalogEntry × RemediationSettings)}
    (fix : ∀ pass ∈ passes, pass.1.remediation ≠ .privilegedCode) (stage : Stage) :
    a.reportsIn passes stage = [] := by
  induction passes generalizing stage with
  | nil => rfl
  | cons pass rest ih =>
    rw [reportsIn, reports_of_fixes (fix pass List.mem_cons_self),
      ih fun p hp => fix p (List.mem_cons_of_mem _ hp)]
    rfl

/-- The search changes nothing. -/
theorem change?_of_search {pass : CatalogEntry × RemediationSettings}
    (search : pass.1.remediation = .privilegedCode) (stage : Stage) :
    a.change? pass stage = none := by
  unfold change?
  split
  next output used ran =>
    have made : pass.1.remediation.pass pass.1.id pass.2 a.passEnv =
        .ok (Privileged.pass a.passEnv pass.1.id) := by rw [search]; rfl
    rw [CatalogEntry.run, made] at ran
    have nothing : (Node.unit stage.unit).Lacks fun _ => false := fun _ _ => rfl
    have same : output.unit = stage.unit :=
      Visitor.pass_keeps (Privileged.remedy_calms _ _ _).visitor nothing ran
    have still : isChange stage.unit output.unit = false := by
      rw [same, isChange, bne_self_eq_false, Bool.false_and]
    rw [still]
    rfl
  next => rfl

/-- What one cycle of the built-in catalog reports is found in the unit it ends
with: the search is the last pass, and the only one that reports. -/
theorem exists_search {config : ValidConfig} (made : make config .builtin = .ok a) :
    ∃ search, ∀ stage, a.reportsIn a.enabled stage = a.reportsIn search (a.cycle stage) := by
  have nonempty : Catalog.builtin.entries ≠ [] := by decide
  let fixing := Catalog.builtin.entries.dropLast.filterMap a.setUp?
  let search := [Catalog.builtin.entries.getLast nonempty].filterMap a.setUp?
  have split : a.enabled = fixing ++ search := by
    rw [← List.filterMap_append, List.dropLast_concat_getLast, enabled_eq, eq_of_make made]
  have fix : ∀ pass ∈ fixing, pass.1.remediation ≠ .privilegedCode := by
    intro pass mem
    obtain ⟨entry, stands, runs⟩ := List.mem_filterMap.mp mem
    have fixes : ∀ entry ∈ Catalog.builtin.entries.dropLast,
        entry.remediation ≠ .privilegedCode := by decide
    rw [fst_of_setUp? runs]
    exact fixes entry stands
  have searches : ∀ pass ∈ search, pass.1.remediation = .privilegedCode := by
    intro pass mem
    obtain ⟨entry, stands, runs⟩ := List.mem_filterMap.mp mem
    rw [fst_of_setUp? runs, List.mem_singleton.mp stands]
    rfl
  refine ⟨search, fun stage => ?_⟩
  have ends : a.cycle stage = a.stageAfter fixing stage := by
    rw [cycle, split, stageAfter_append]
    exact stageAfter_of_rest fun pass mem => change?_of_search (searches pass mem) _
  rw [ends, split, reportsIn_append, reportsIn_of_fixes fix]
  rfl

/-- A run that stops by itself has found all that a further run on its result finds.
The two find the same exactly if what the first one had found before its last cycle
is how the findings of the other begin; so they do if it took no more than two
cycles. -/
theorem findings_eq_again_iff {config : ValidConfig} (made : make config .builtin = .ok a)
    {unit : CompilationUnit} {next : NodeId} (ran : a.run unit next = (.ok o, used))
    (below : o.cycles < a.config.driver.maxCycles) :
    ∃ again, a.run o.unit used = (.ok again, used) ∧ again.findings ⊆ o.findings ∧
      (o.findings = again.findings ↔
        Finding.once (a.reported (o.cycles - 1) ⟨unit, next⟩) <+: again.findings) ∧
      (o.cycles ≤ 2 → o.findings = again.findings) := by
  have reliable := reliable_of_make made
  have started : (Outcome.start unit).At ⟨unit, next⟩ := ⟨rfl, rfl⟩
  obtain ⟨n, reported, ends⟩ := runCycles_reported reliable _ started ran
  obtain rfl : o.cycles = n := reported.cycles.trans (Nat.zero_add n)
  obtain ⟨m, cycles, rest⟩ := reported.rest below
  -- The last cycle ends at the stage it starts at.
  have last : a.cycle^[m] ⟨unit, next⟩ = ⟨o.unit, used⟩ := by
    rw [ends, cycles, Function.iterate_succ_apply']
    exact (stageAfter_of_rest rest).symm
  have final : a.reported o.cycles ⟨unit, next⟩ =
      a.reported m ⟨unit, next⟩ ++ a.reportsIn a.enabled ⟨o.unit, used⟩ := by
    rw [cycles, reported_succ, last]
  rw [last] at rest
  obtain ⟨again, ranAgain, foundAgain⟩ := run_of_atRest reliable rest
  have found : o.findings = Finding.once
      (a.reported m ⟨unit, next⟩ ++ a.reportsIn a.enabled ⟨o.unit, used⟩) := by
    rw [run_findings reliable ran, final]
  have same : o.findings = again.findings ↔
      Finding.once (a.reported m ⟨unit, next⟩) <+: again.findings := by
    rw [found, foundAgain]
    exact Finding.once_append_eq_iff
  refine ⟨again, ranAgain, ?_, ?_, ?_⟩
  · intro f mem
    rw [foundAgain, Finding.mem_once] at mem
    rw [found, Finding.mem_once]
    exact List.mem_append_right _ mem
  · rw [cycles, Nat.add_sub_cancel]
    exact same
  · intro few
    refine same.mpr ?_
    obtain rfl | rfl : m = 0 ∨ m = 1 := by omega
    · exact List.nil_prefix
    · obtain ⟨search, reports⟩ := exists_search made
      have settled : a.cycle ⟨o.unit, used⟩ = ⟨o.unit, used⟩ := stageAfter_of_rest rest
      have first : a.reported 1 ⟨unit, next⟩ = a.reportsIn a.enabled ⟨o.unit, used⟩ := by
        rw [Engine.reported, Engine.reported, List.append_nil, reports, reports ⟨o.unit, used⟩,
          settled]
        exact congrArg _ last
      rw [first, foundAgain]

end

namespace RewrittenTwice

/-- `File.createTempFile(…)`, with the nodes from `id` on. -/
def temporary (id : NodeId) (base extension : Expr) : Expr :=
  ⟨id, .file, .call (some ⟨id + 1, .file, .ident "File" none⟩) "createTempFile" [base, extension]
    (some Jdk.fileCreateTempFile)⟩

def text (id : NodeId) (value : String) : Expr := ⟨id, .string, .literal (.string value)⟩

/-- `AccessController.doPrivileged(…)` around a temporary file that is named after
another one. -/
def flagged : Expr :=
  let name : Expr :=
    ⟨9, .string, .call (some (temporary 10 (text 12 "abc") (text 13 "d"))) "getName" [] none⟩
  let controller : Expr := ⟨6, .known Fqn.accessController, .ident "AccessController" none⟩
  ⟨5, .object, .call (some controller) "doPrivileged" [temporary 7 name (text 14 "e")]
    (some Jdk.accessControllerDoPrivileged)⟩

def unit : CompilationUnit :=
  let body : Block := ⟨3, false, [⟨4, .expr flagged⟩]⟩
  let method : Stmt := ⟨2, .method ⟨[], some "void", "m", [], []⟩ (some body)⟩
  ⟨0, none, [], [⟨1, ⟨[], "A", .known "A"⟩, ⟨15, false, [method]⟩⟩]⟩

/-- The flagged call after the first cycle. -/
def early : String :=
  "AccessController.doPrivileged(Files.createTempFile(" ++
    "File.createTempFile(\"abc\", \"d\").getName(), \"e\").toFile())"

/-- The flagged call at the end. -/
def final : String :=
  "AccessController.doPrivileged(Files.createTempFile(" ++
    "Files.createTempFile(\"abc\", \"d\").toFile().getName(), \"e\").toFile())"

/-- How many cycles a run takes, what it finds, and what a further run finds. -/
def summary [GlobCompiler] (a : Engine) (unit : CompilationUnit) (next : NodeId) :
    Option (Nat × List String × List String) :=
  match a.run unit next with
  | (.ok o, used) =>
    match a.run o.unit used with
    | (.ok again, _) => some (o.cycles, o.findings.map (·.snippet), again.findings.map (·.snippet))
    | (.error _, _) => none
  | (.error _, _) => none

theorem runs_of_summary [GlobCompiler] {a : Engine} {unit : CompilationUnit} {next : NodeId}
    {cycles : Nat} {found foundAgain : List String}
    (computed : summary a unit next = some (cycles, found, foundAgain)) :
    ∃ o used again used', a.run unit next = (.ok o, used) ∧ a.run o.unit used = (.ok again, used') ∧
      o.cycles = cycles ∧ o.findings.map (·.snippet) = found ∧
      again.findings.map (·.snippet) = foundAgain := by
  unfold summary at computed
  split at computed
  next o used ran =>
    split at computed
    next again used' ranAgain =>
      simp only [Option.some.injEq, Prod.mk.injEq] at computed
      exact ⟨o, used, again, used', ran, ranAgain, computed⟩
    next => cases computed
  next => cases computed

section

attribute [local instance] GlobCompiler.standard

/-- The outer file is replaced in the first cycle and the inner one in the second, so
the one call is reported with two texts, of which the unit has the second. -/
theorem findings_of_rewritten :
    make .standard .builtin = .ok standard ∧
      ∃ o used again, standard.run unit 16 = (.ok o, used) ∧ o.cycles = 3 ∧
        o.cycles < standard.config.driver.maxCycles ∧
        standard.run o.unit used = (.ok again, used) ∧
        o.findings.map (·.snippet) = [early, final] ∧
        again.findings.map (·.snippet) = [final] ∧ again.findings ⊆ o.findings ∧
        ¬ Finding.once (standard.reported 2 ⟨unit, 16⟩) <+: again.findings := by
  have computed : summary standard unit 16 = some (3, [early, final], [final]) := by decide +kernel
  obtain ⟨o, used, again, _, ran, ranAgain, cycles, found, foundAgain⟩ := runs_of_summary computed
  have made : make .standard .builtin = .ok standard := rfl
  have below : o.cycles < standard.config.driver.maxCycles := by
    rw [cycles]
    decide
  obtain ⟨_, ranAgain', subset, same, -⟩ := findings_eq_again_iff made ran below
  cases ranAgain.symm.trans ranAgain'
  refine ⟨made, o, _, again, ran, cycles, below, ranAgain, found, foundAgain, subset, ?_⟩
  intro begins
  rw [cycles] at same
  have one : o.findings = again.findings := same.mpr begins
  rw [one, foundAgain] at found
  exact absurd (congrArg List.length found) (by decide)

end

end RewrittenTwice

end Engine

end JavaMend
