import MacroSweep.Cache.Store
import MacroSweep.Configuration.Enumeration
import MacroSweep.SourceUnit.Load
import MacroSweep.Suppression.Registry

/-! Runs: all units of the given files, each under all its configurations. -/
namespace MacroSweep.Run

open Suppression

/-- What a run does with the files it is given. The results of its passes are written to temporary
files first, each under a number. -/
structure Plan where
  checker : Checker
  enumeration : Enumeration := {}
  settings : Checker.Settings := {}
  suppressions : Registry := {}
  includePaths : List Path := []
  cache : Option Cache.Store := none
  ticket : Path → String → Cache.Ticket := fun _ _ => {}

/-- Why a run gives no report. -/
inductive Error where
  | noUnits (inputs : Nat)
  | noChecker
  | barrier (cause : Program.BarrierError)
  deriving DecidableEq, Repr

def Error.message : Error → String
  | noUnits inputs => s!"no readable source units among {inputs} input(s)"
  | noChecker => "no checker configured"
  | barrier cause => cause.message

/-- What the passes over a unit have given so far, and the files as stored results left them. -/
structure Outcome where
  tree : FileTree
  findings : List Finding := []
  facts : Program.Facts := {}
  configurations : Nat := 0
  hits : Nat := 0
  misses : Nat := 0

namespace Outcome

/-- Adds the result of a pass. -/
def add (o : Outcome) (findings : List Finding) (facts : Program.Facts) : Outcome :=
  { o with findings := o.findings ++ findings, facts := o.facts.merge facts }

/-- Stores the result of a pass; one that cannot be stored is dropped. -/
def save (o : Outcome) (cache : Option Cache.Store) (unit : SourceUnit) (signature : String)
    (analysis : Checker.Analysis) (ticket : Cache.Ticket) : Outcome :=
  match cache with
  | none => o
  | some store => { o with tree := store.keep o.tree unit signature analysis ticket }

end Outcome

namespace Plan

/-- The stored result of a pass. -/
def stored? (plan : Plan) (tree : FileTree) (unit : SourceUnit) (signature : String) :
    Option Cache.Record :=
  plan.cache.bind fun store => store.lookup tree unit signature

/-- Makes a pass over a unit. -/
def analyze (plan : Plan) (tree : FileTree) (unit : SourceUnit) (configuration : Configuration) :
    Except Checker.Failure Checker.Analysis :=
  plan.checker.run { tree, unit, configuration, settings := plan.settings }

/-- Takes the result of a pass from the store, or else makes the pass and stores its result. A
pass that fails is reported. -/
def checkConfiguration (plan : Plan) (unit : SourceUnit) (o : Outcome)
    (configuration : Configuration) : Outcome :=
  let signature := configuration.signature
  match plan.stored? o.tree unit signature with
  | some r => { o.add r.findings r.facts with hits := o.hits + 1 }
  | none =>
    let o := { o with misses := o.misses + 1 }
    match plan.analyze o.tree unit configuration with
    | .ok analysis =>
      (o.add analysis.findings analysis.facts).save plan.cache unit signature analysis
        (plan.ticket unit.path signature)
    | .error failure => o.add [failure.toFinding unit.path signature] {}

/-- Checks a unit under each of its configurations. -/
def checkUnit (plan : Plan) (tree : FileTree) (unit : SourceUnit) : Outcome :=
  let configurations := plan.enumeration.configurations unit.conditionals
  let o := configurations.foldl (plan.checkConfiguration unit)
    { tree, configurations := configurations.length }
  { o with findings := Finding.dedup o.findings }

end Plan

/-- What the units checked so far have given. -/
structure Progress where
  tree : FileTree
  tally : Program.Tally
  findings : List Finding := []
  configurations : Nat := 0
  hits : Nat := 0
  misses : Nat := 0

namespace Plan

/-- Checks a further unit. -/
def advance (plan : Plan) (p : Progress) (unit : SourceUnit) : Progress :=
  let o := plan.checkUnit p.tree unit
  { tree := o.tree
    tally := p.tally.submit o.facts
    findings := p.findings ++ o.findings
    configurations := p.configurations + o.configurations
    hits := p.hits + o.hits
    misses := p.misses + o.misses }

/-- The inline markers in all files of the units, each file once. -/
def inlineIndex (tree : FileTree) (units : List SourceUnit) : InlineIndex :=
  (SortedSet.ofList (units.flatMap SourceUnit.files)).toList.foldl (fun index file =>
    match tree.read file with
    | .ok bytes => index.insert file (scanInline file (Text.decodeLossy bytes))
    | .error _ => index) {}

/-- The findings of a run before suppression, each once. -/
def rawFindings (plan : Plan) (p : Progress) (facts : Program.Facts) (index : InlineIndex) :
    List Finding :=
  Finding.dedup (p.findings ++ plan.checker.conclude facts ++
    plan.enumeration.forced.errors.map Configuration.Error.toFinding ++
    plan.suppressions.diagnostics index)

/-- The report of a run whose units have all been checked. -/
def report (plan : Plan) (units : List SourceUnit) (p : Progress) (facts : Program.Facts) :
    Report :=
  let index := inlineIndex p.tree units
  let filtered := plan.suppressions.filter index (plan.rawFindings p facts index)
  { findings := (filtered.kept.map index.attachRemark).mergeSort fun f g =>
      (Finding.reportOrder f g).isLE
    unitsChecked := units.length
    configurationsChecked := p.configurations
    cacheHits := p.hits
    cacheMisses := p.misses
    suppressed := filtered.suppressed }

/-- Checks all files that can be read. The files come back with the results that were stored. -/
def run (plan : Plan) (tree : FileTree) (files : List Path) : Except Error (Report × FileTree) :=
  let units := SourceUnit.loadAll tree plan.includePaths files
  if units.isEmpty then .error (.noUnits files.length)
  else
    let p := units.foldl plan.advance { tree, tally := { expected := units.length } }
    match p.tally.close with
    | .ok facts => .ok (plan.report units p facts, p.tree)
    | .error cause => .error (.barrier cause)

end Plan

end MacroSweep.Run
