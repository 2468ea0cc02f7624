import MacroSweep.Checker.Settings
import MacroSweep.Configuration.Basic
import MacroSweep.Program.Facts
import MacroSweep.SourceUnit.Basic
import MacroSweep.Template.Guard

/-! Checkers: what looks at one unit under one configuration. -/
namespace MacroSweep

namespace Checker

/-- What a checker is given for one pass. -/
structure Pass where
  tree : FileTree
  unit : SourceUnit
  configuration : Configuration
  settings : Settings

/-- Why a pass could not be finished. -/
inductive Failure where
  | unreadable (path : Path) (cause : FileError)
  | internal (text : String)
  deriving DecidableEq, Repr

def Failure.message : Failure → String
  | unreadable path cause => s!"failed to read {path.text}: {cause.message}"
  | internal text => text

/-- The finding that reports a failed pass. -/
def Failure.toFinding (failure : Failure) (unit : Path) (signature : String) : Finding where
  id := "internalError"
  severity := .error
  location := ⟨unit, 0, 0⟩
  message := s!"Analysis failed under configuration [{signature}]: {failure.message}"

/-- What a pass found. -/
structure Analysis where
  findings : List Finding := []
  facts : Program.Facts := {}
  deriving DecidableEq

/-- The text of a file, for a pass. -/
def Pass.read (pass : Pass) (path : Path) : Except Failure (List Char) :=
  match pass.tree.read path with
  | .ok bytes => .ok (Text.decodeLossy bytes)
  | .error cause => .error (.unreadable path cause)

end Checker

/-- A checker: it analyzes each unit under each configuration, and at the end looks at the facts
of all units. -/
structure Checker where
  name : String
  version : String
  analyze : Checker.Pass → Template.Guard →
    Except Checker.Failure (Checker.Analysis × Template.Guard)
  conclude : Program.Facts → List Finding := fun _ => []

namespace Checker

/-- The text that tells results apart which were found by another checker or with other
settings. -/
def versionTag (checker : Checker) (settings : Settings) : String :=
  s!"{checker.name}@{checker.version};level={settings.level.name};max-if={settings.maxIfCount};" ++
    s!"templates={settings.templateRecursion}"

/-- One pass with a fresh guard, whose findings come last. -/
def run (checker : Checker) (pass : Pass) : Except Failure Analysis := do
  let (analysis, guard) ← checker.analyze pass { bound := pass.settings.templateRecursion }
  .ok { analysis with findings := analysis.findings ++ guard.takeFindings.1 }

end Checker

end MacroSweep
