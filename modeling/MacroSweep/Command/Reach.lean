import MacroSweep.Command.Run

/-! Which files a command may read or write. -/
namespace MacroSweep

/-- The paths that options name. -/
def Options.paths (o : Options) : List Path :=
  o.includePaths ++ o.buildDir.toList ++ o.suppressions.lists ++ o.suppressions.documents

namespace Command

/-- The paths that a request names, on the command line and in the options file. -/
def Request.paths (env : Environment) (tree : FileTree) : Request → List Path
  | .check inputs _ settings config =>
    inputs ++ config.toList ++
      match effectiveOptions env tree inputs settings config with
      | .ok o => o.paths
      | .error _ => []
  | .init _ => []

/-- The paths of the user's settings and ignore file. -/
def Environment.userPaths (env : Environment) (tree : FileTree) : List Path :=
  env.home.toList.flatMap fun home =>
    env.ignoreFile tree home ::
      Ignore.settingsFiles home (env.settingsDir.getD (home.join ⟨".config"⟩))

/-- The paths at or below which a command reads and writes, as far as the files known so far
tell. -/
def reach (env : Environment) (tree : FileTree) (args : List String) : List Path :=
  ⟨"."⟩ :: env.sharedDirectory.toList ++ env.userPaths tree ++
    match parse args with
    | .error _ => []
    | .ok request => request.paths env tree

end Command

end MacroSweep
