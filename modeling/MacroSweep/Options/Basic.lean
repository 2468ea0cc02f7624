import MacroSweep.Checker.Settings
import MacroSweep.Discovery
import MacroSweep.Run.Plan

/-! Options of a run, from a file and from the command line. -/
namespace MacroSweep

open Suppression

/-- Where suppressions come from, and how they are used. -/
structure SuppressionOptions where
  rules : List String := []
  lists : List Path := []
  documents : List Path := []
  inline : Bool := false
  reportUnused : Bool := false
  deriving DecidableEq, Repr

structure Options where
  failOn : Option Severity := none
  filter : Discovery.Filter := {}
  includePaths : List Path := []
  defines : List String := []
  undefines : List String := []
  force : Bool := false
  maxConfigs : Option Nat := none
  jobs : Option Nat := none
  buildDir : Option Path := none
  checker : Checker.Settings := {}
  suppressions : SuppressionOptions := {}
  deriving DecidableEq, Repr

namespace SuppressionOptions

/-- What a file of suppressions declares; one that cannot be read declares nothing. -/
def declaredIn (tree : FileTree) (read : Path → List Char → Declared) (path : Path) : Declared :=
  match tree.readText path with
  | .ok content => read path content
  | .error cause => { faults := [⟨.listed path 0, .unreadable cause.message⟩] }

/-- All suppressions: rules, lists and documents, in this order. -/
def registry (o : SuppressionOptions) (tree : FileTree) : Registry :=
  let sources :=
    o.rules.map (fun rule => Declared.ofRuleText rule.toList .commandLine) ++
    o.lists.map (declaredIn tree Declared.ofList) ++
    o.documents.map (declaredIn tree Declared.ofDocument)
  sources.foldl Registry.add { inline := o.inline, reportUnused := o.reportUnused }

end SuppressionOptions

namespace Options

/-- The least severity of a finding that makes a run fail. -/
def threshold (o : Options) : Severity := o.failOn.getD .error

def enumeration (o : Options) : Enumeration where
  forced := .parse o.defines o.undefines
  exhaustive := o.force
  limit? := o.maxConfigs

/-- The run that options ask for. -/
def plan (o : Options) (tree : FileTree) (checker : Checker) : Run.Plan where
  checker
  enumeration := o.enumeration
  settings := o.checker
  suppressions := o.suppressions.registry tree
  includePaths := o.includePaths
  cache := o.buildDir.map fun directory => ⟨directory, checker.versionTag o.checker⟩

end Options

end MacroSweep
