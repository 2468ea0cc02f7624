import MacroSweep.Command.Reach

/-! The command line program: files are read into a tree, the command runs on the tree, and what it
wrote goes back to the files. -/
namespace MacroSweep.Disk

/-- The place of a path, without a look at the files. -/
def placeOf (base : Place) (p : Path) : Place :=
  ((Path.mk ("/" ++ "/".intercalate base)).join p).normalize.components.filterMap fun
    | .normal name => some name
    | _ => none

def placeText (place : Place) : String := "/" ++ "/".intercalate place

/-- Adds what stands at a place and below it. Links to directories are not followed. -/
partial def readBelow (place : Place) (nodes : List (Place × Node)) : IO (List (Place × Node)) := do
  try
    let path := (← IO.currentDir) / placeText place
    match (← path.metadata).type with
    | .dir =>
      let mut nodes := (place, Node.directory) :: nodes
      for entry in ← path.readDir do
        let linked := (← entry.path.symlinkMetadata).type == .symlink
        unless linked && (← entry.path.isDir) do
          nodes ← readBelow (place ++ [entry.fileName]) nodes
      return nodes
    | .file => return (place, .file (← IO.FS.readBinFile path).toList) :: nodes
    | _ => return nodes
  catch _ => return nodes

/-- Adds what an ancestor of a place holds that matters below it: that it is a directory, and its
rules on what is ignored. -/
def readAncestor (place : Place) (nodes : List (Place × Node)) : IO (List (Place × Node)) := do
  let mut nodes := (place, Node.directory) :: nodes
  for name in [".git", ".jj"] do
    if ← ((← IO.currentDir) / placeText (place ++ [name])).isDir then
      nodes := (place ++ [name], .directory) :: (place ++ [name, "info"], .directory) :: nodes
    else
      nodes ← readBelow (place ++ [name]) nodes
  for rules in [[".ignore"], [".gitignore"], [".git", "info", "exclude"]] do
    nodes ← readBelow (place ++ rules) nodes
  return nodes

/-- The tree of the files at and below places. -/
def readTree (base : Place) (places : List Place) : IO FileTree := do
  let mut nodes : List (Place × Node) := []
  for place in places do
    for depth in List.range place.length do
      unless depth = 0 do
        nodes ← readAncestor (place.take depth) nodes
    nodes ← readBelow place nodes
  return { nodes := .ofList (nodes.mergeSort fun a b => (compare b.1 a.1).isLE), base }

/-- Writes what differs from the tree before. -/
def writeBack (before after : FileTree) : IO Unit := do
  for (place, node) in after.nodes.toList do
    unless before.nodes.find? place == some node do
      match node with
      | .directory => IO.FS.createDirAll (placeText place)
      | .file bytes => IO.FS.writeBinFile (placeText place) ⟨bytes.toArray⟩

/-- Runs the command line on the files it may reach. -/
def runCommand (args : List String) : IO UInt32 := do
  let base := placeOf [] ⟨(← IO.currentDir).toString⟩
  let env : Command.Environment := {
    configDir := (← IO.getEnv "CFGCHECK_CONFIG_DIR").map Path.mk
    home := (← IO.getEnv "HOME").map Path.mk
    settingsDir := ((← IO.getEnv "XDG_CONFIG_HOME").filter (· ≠ "")).map Path.mk }
  let named ← readTree base ((Command.reach env { base } args).map (placeOf base))
  let tree ← readTree base ((Command.reach env named args).map (placeOf base))
  let outcome := Command.run env tree args
  writeBack tree outcome.tree
  IO.print outcome.stdout
  IO.eprint outcome.stderr
  return outcome.exit.toUInt32

end MacroSweep.Disk

def main (args : List String) : IO UInt32 := MacroSweep.Disk.runCommand args
