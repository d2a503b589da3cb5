import JavaMend.Remedy.Catalog
import JavaMend.Settings.Config

/-!
# The engine

One cycle runs every remediation that is switched on over the unit, one after
the other. Cycles are repeated until one of them changes nothing, or until
there have been as many as allowed. A result that is alike to what it was made
from is no change. A remediation that fails is recorded and not run again, and
the unit stays as it was before; if failing fast is asked for, the run ends.
-/

namespace JavaMend

/-- A remediation that failed. -/
structure RunFailure where
  remediation : String
  /-- The cycle it failed in, counted from one. -/
  cycle : Nat
  message : String
deriving DecidableEq

def RunFailure.text (f : RunFailure) : String :=
  s!"{f.remediation} (cycle {f.cycle}): {f.message}"

/-- What became of a unit. -/
structure Outcome where
  unit : CompilationUnit
  /-- The cycles that were run, the last one included. -/
  cycles : Nat
  /-- How many passes changed the unit. -/
  appliedPasses : Nat
  failures : List RunFailure
  /-- What searches found, each finding once. -/
  findings : List Finding

namespace Outcome

/-- Before anything was run. -/
def start (unit : CompilationUnit) : Outcome :=
  { unit, cycles := 0, appliedPasses := 0, failures := [], findings := [] }

def changed (o : Outcome) : Bool := o.appliedPasses > 0

def failed (o : Outcome) : Bool := !o.failures.isEmpty

/-- Adds the findings that are new. -/
def addFindings (o : Outcome) (found : List Finding) : Outcome :=
  let add (all : List Finding) (f : Finding) := if all.contains f then all else all ++ [f]
  { o with findings := found.foldl add o.findings }

/-- The outcome in one line. -/
def summary (o : Outcome) : String :=
  s!"changed={o.changed}, cycles={o.cycles}, passes={o.appliedPasses}, " ++
    s!"failures={o.failures.length}, findings={o.findings.length}"

end Outcome

/-- An engine: a configuration, a catalog that has everything it mentions, and
what passes work with. -/
structure Engine [GlobCompiler] where
  config : ValidConfig
  catalog : Catalog
  matcher : CallMatcher
  splicer : Splicer

namespace Engine

/-- The engine of a configuration and a catalog. -/
def make [GlobCompiler] (config : ValidConfig) (catalog : Catalog) : Except EngineError Engine :=
  match config.checkKnown catalog.ids with
  | .ok () => .ok { config, catalog, matcher := .standard, splicer := .standard }
  | .error e => .error (.config e)

/-- The engine that runs everything the library can remedy. -/
def standard [GlobCompiler] : Engine :=
  { config := .standard, catalog := .builtin, matcher := .standard, splicer := .standard }

def passEnv [GlobCompiler] (a : Engine) : PassEnv :=
  { matcher := a.matcher, limits := a.config.flow, splicer := a.splicer }

/-- The entries that run, with their settings. -/
def enabled [GlobCompiler] (a : Engine) : List (CatalogEntry × RemediationSettings) :=
  a.catalog.entries.filterMap fun entry =>
    (a.config.remediation? entry.id).map fun settings => (entry, settings)

/-- Is a pass's result a change? -/
def isChange (old new : CompilationUnit) : Bool := new.id != old.id && !new.alike old

/-- Runs one entry in a cycle, unless it has failed before. What a pass makes is
kept only if it is a change; the ids of what is not kept are given back. -/
def runOne [GlobCompiler] (a : Engine) (o : Outcome) (pass : CatalogEntry × RemediationSettings) :
    ExceptT EngineError Fresh Outcome := fun next =>
  let (entry, settings) := pass
  if o.failures.any (·.remediation == entry.id) then (.ok o, next)
  else
    match entry.run settings a.passEnv o.unit next with
    | (.ok output, used) =>
      let o := o.addFindings output.findings
      if isChange o.unit output.unit then
        (.ok { o with unit := output.unit, appliedPasses := o.appliedPasses + 1 }, used)
      else (.ok o, next)
    | (.error e, used) =>
      if a.config.driver.failFast then (.error e, used)
      else
        let failure : RunFailure :=
          { remediation := entry.id, cycle := o.cycles, message := e.message }
        (.ok { o with failures := o.failures ++ [failure] }, next)

/-- Runs at most so many cycles. -/
def runCycles [GlobCompiler] (a : Engine) : Nat → Outcome → ExceptT EngineError Fresh Outcome
  | 0, o => return o
  | left + 1, o => do
    let after ← a.enabled.foldlM a.runOne { o with cycles := o.cycles + 1 }
    if after.appliedPasses = o.appliedPasses then return after else a.runCycles left after

/-- Remedies a unit; new nodes take their ids from the supply. -/
def run [GlobCompiler] (a : Engine) (unit : CompilationUnit) : ExceptT EngineError Fresh Outcome :=
  a.runCycles a.config.driver.maxCycles (.start unit)

/-- Remedies a unit, with ids that it does not use. -/
def runAlone [GlobCompiler] (a : Engine) (unit : CompilationUnit) : Except EngineError Outcome :=
  (a.run unit (Node.unit unit).supply).1

/-- Remedies units one by one; the failure of one is no failure of another. -/
def runEach [GlobCompiler] (a : Engine) (units : List CompilationUnit) :
    List (Except EngineError Outcome) := units.map a.runAlone

end Engine

/-- Remedies a unit by a catalog under the standard configuration; a unit that
cannot be remedied stays as it is. -/
def fix [GlobCompiler] (unit : CompilationUnit) (catalog : Catalog) : Fresh CompilationUnit := do
  match Engine.make .standard catalog with
  | .error _ => return unit
  | .ok a =>
    match ← (a.run unit).run with
    | .ok o => return o.unit
    | .error _ => return unit

end JavaMend
