import MacroSweep.Digest.Blake3
import MacroSweep.FileTree.Basic
import MacroSweep.Source.Directive

/-! Source units: a file with all that it includes, as found when a run starts. -/
namespace MacroSweep

open Source

/-- An included file and the fingerprint of its content. -/
structure Dependency where
  path : Path
  fingerprint : String
  deriving DecidableEq, Repr

/-- A file, its fingerprint, the files it includes directly or not, and the macros that its
conditions and theirs leave open. -/
structure SourceUnit where
  path : Path
  fingerprint : String
  dependencies : List Dependency
  conditionals : SortedSet String
  deriving DecidableEq

namespace SourceUnit

/-- The files of a unit, itself first. -/
def files (u : SourceUnit) : List Path := u.path :: u.dependencies.map (·.path)

/-- A unit that cannot be read. -/
structure LoadError where
  path : Path
  cause : FileError
  deriving DecidableEq, Repr

def LoadError.message (e : LoadError) : String :=
  s!"failed to read {e.path.text}: {e.cause.message}"

end SourceUnit

end MacroSweep
