import MacroSweep.Ignore.Scope
import MacroSweep.Ordered.Set

/-! Finding the files to check. -/
namespace MacroSweep.Discovery

/-- Which files of a directory are taken. -/
structure Filter where
  extensions : List String := ["c", "cc", "cpp", "cxx", "c++", "h", "hh", "hpp", "hxx"]
  exclude : List String := []
  respectGitignore : Bool := true
  deriving DecidableEq, Repr

/-- An input that is neither a file nor a directory. -/
structure Error where
  path : Path
  cause : FileError
  deriving DecidableEq, Repr

namespace Error

/-- What went wrong at the path. -/
def detail (e : Error) : String :=
  s!"{e.path.text}: IO error for operation on {e.path.text}: {e.cause.message}"

def message (e : Error) : String := s!"failed to walk input: {e.detail}"

end Error

namespace Filter

/-- Whether a pattern excludes a path in its normal spelling. -/
def isExcluded (filter : Filter) (path : Path) : Bool :=
  filter.exclude.any fun pattern => Glob.isMatch pattern path.normalize.text

/-- A text with its ASCII letters in lower case. -/
def folded (text : String) : List Char := text.toList.map Char.toLower

def hasExtension (filter : Filter) (path : Path) : Bool :=
  match path.extension? with
  | some extension => filter.extensions.any fun e => folded e == folded extension
  | none => false

end Filter

/-- The places of the files below the root of a walk that no directory on the way ignores. -/
def filesBelow (tree : FileTree) (scope : Ignore.Scope) : List Place :=
  tree.nodes.toList.filterMap fun (place, node) =>
    let names := place.drop scope.root.length
    let isReached := (List.range' 1 names.length).all fun n =>
      !scope.isIgnored tree (scope.root ++ names.take n) (n < names.length)
    match node with
    | .file _ => if scope.root.isPrefixOf place && isReached then some place else none
    | .directory => none

/-- The files that an input which is no file leads to. A dash stands for no file. -/
def walk (tree : FileTree) (filter : Filter) (userRules : List Ignore.Rule) (input : Path) :
    Except Error (List Path) :=
  if input.same ⟨"-"⟩ then .ok []
  else
    match tree.lookup input, tree.locate input with
    | .error cause, _ => .error ⟨input, cause⟩
    | _, .error cause => .error ⟨input, cause⟩
    | .ok _, .ok root =>
      let scope : Ignore.Scope := ⟨root, input, filter.respectGitignore, userRules⟩
      let found := (filesBelow tree scope).map scope.writtenPath
      .ok (found.filter fun path => filter.hasExtension path && !filter.isExcluded path)

/-- The files that an input leads to. A file given by name is taken whatever its extension. -/
def filesOf (tree : FileTree) (filter : Filter) (userRules : List Ignore.Rule) (input : Path) :
    Except Error (List Path) :=
  if tree.isFile input then .ok (if filter.isExcluded input then [] else [input])
  else walk tree filter userRules input

/-- The files that inputs lead to, in order and each once. The rules of the user count in
repositories only. -/
def discover (tree : FileTree) (filter : Filter) (userRules : List Ignore.Rule)
    (inputs : List Path) : Except Error (List Path) := do
  let found ← inputs.mapM (filesOf tree filter userRules)
  return (SortedSet.ofList found.flatten).toList

end MacroSweep.Discovery
