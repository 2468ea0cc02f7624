import MacroSweep.FileTree.Basic
import MacroSweep.Ignore.Rules

/-! What a walk leaves out: the ignore files of its directories, those of the repositories it lies
in, and the rules of the user. -/
namespace MacroSweep.Ignore

/-- The rules in the file at a path, none if there is none. -/
def rulesAt (tree : FileTree) (path : Path) : List Rule := rules ((tree.read path).toOption.getD [])

/-- The rules in the file at a place, none if there is none. -/
def rulesOf (tree : FileTree) (place : Place) : List Rule :=
  match tree.node? place with
  | some (.file bytes) => rules bytes
  | _ => []

/-- The directory that a `.git` file leads to: its first line names one whose `commondir` file in
turn names, from there if it starts with a dot, what several work trees share. -/
def sharedDirectory? (tree : FileTree) (link : List UInt8) : Option Path := do
  let own : Path := ⟨String.ofList (← "gitdir: ".toList.isPrefixOf? (← (textLines link).head?))⟩
  let line ← (textLines (← (tree.read (own.join ⟨"commondir"⟩)).toOption)).head?
  let shared : Path := ⟨String.ofList line⟩
  return if line.head? = some '.' then own.join shared else shared

/-- The rules that a repository keeps to itself. -/
def excludeRules (tree : FileTree) (directory : Place) : List Rule :=
  match tree.node? (directory ++ [".git"]) with
  | some (.file link) =>
    match sharedDirectory? tree link with
    | some shared => rulesAt tree (shared.join ⟨"info/exclude"⟩)
    | none => []
  | _ => rulesOf tree (directory ++ [".git", "info", "exclude"])

/-- A text without the dot and slash that it may start with. -/
def dropDot (text : List Char) : List Char := (['.', '/'].isPrefixOf? text).getD text

/-- A text without a given start and the slash after it, unchanged if it starts otherwise. -/
def cutStart (start text : List Char) : List Char :=
  match start.isPrefixOf? text with
  | some rest => (['/'].isPrefixOf? rest).getD rest
  | none => text

/-- What the rules of a directory see of a path below it. Both count as they are written, less one
dot and slash in front; a path that then does not start with the directory is seen whole. -/
def seenFrom (directory path : Path) : List Char :=
  let start := dropDot directory.text.toList
  let text := dropDot path.text.toList
  if '/' ∉ text ∨ (Path.mk (String.ofList start)).same ⟨"."⟩ then text else cutStart start text

/-- Where a walk starts, as a place and as written, whether version control decides what is ignored,
and the rules of the user for all repositories. -/
structure Scope where
  root : Place
  written : Path
  useGit : Bool
  userRules : List Rule := []

namespace Scope

/-- The directories from that of a place up to the top. -/
def directories (place : Place) : List Place :=
  (List.range place.length).reverse.map place.take

/-- Whether a directory holds a repository. Above the root of a walk this matters only if version
control decides. -/
def hasRepository (scope : Scope) (tree : FileTree) (directory : Place) : Bool :=
  (scope.useGit || scope.root.isPrefixOf directory) &&
    [".git", ".jj"].any fun name => (tree.node? (directory ++ [name])).isSome

/-- How a place below the root of a walk is written, from the input on. -/
def writtenPath (scope : Scope) (place : Place) : Path :=
  (place.drop scope.root.length).foldl (fun path name => path.join ⟨name⟩) scope.written

/-- How a place is written where rules are asked about it. -/
def askedPath (scope : Scope) (place : Place) : Path :=
  ⟨String.ofList (dropDot (scope.writtenPath place).text.toList)⟩

/-- The path of a place from the top. -/
def pathFromTop (place : Place) : Path := ⟨"/" ++ "/".intercalate place⟩

/-- The path of a place from the top, as the input of a walk continues to it. -/
def continuedPath (scope : Scope) (place : Place) : Path :=
  let path := scope.askedPath place
  let rest :=
    if scope.written.same ⟨"."⟩ then path
    else ⟨String.ofList (cutStart (dropDot scope.written.text.toList) path.text.toList)⟩
  (pathFromTop scope.root).join rest

/-- What the rules of a directory see of a place. In the walk a path is written from the input on,
and above it from the top. -/
def seenText (scope : Scope) (directory place : Place) : List Char :=
  if scope.root.isPrefixOf directory then
    seenFrom (scope.writtenPath directory) (scope.askedPath place)
  else seenFrom (pathFromTop directory) (scope.continuedPath place)

/-- What the rules of directories that lead to a place say, the nearest first. -/
def verdictIn (scope : Scope) (rulesOf : Place → List Rule) (directories : List Place)
    (place : Place) (isDirectory : Bool) : Option Bool :=
  directories.findSome? fun directory =>
    verdict? (rulesOf directory) (scope.seenText directory place) isDirectory

/-- The directories up to the first that holds a repository; none if no directory does. -/
def withinRepository (scope : Scope) (tree : FileTree) (directories : List Place) : List Place :=
  let (below, above) := directories.span fun d => !scope.hasRepository tree d
  if above.isEmpty then [] else below ++ above.take 1

/-- What the rules of the user say of a place, by how it is written. -/
def userVerdict (scope : Scope) (place : Place) (isDirectory : Bool) : Option Bool :=
  verdict? scope.userRules (dropDot (scope.askedPath place).text.toList) isDirectory

/-- Whether a place is ignored. Plain ignore files come before those of version control, and the
rules of the user come last. -/
def isIgnored (scope : Scope) (tree : FileTree) (place : Place) (isDirectory : Bool) : Bool :=
  let all := directories place
  let inside := scope.withinRepository tree all
  let inEach (name : String) (directory : Place) := rulesOf tree (directory ++ [name])
  let plain := scope.verdictIn (inEach ".ignore") all place isDirectory
  let git :=
    if scope.useGit then scope.verdictIn (inEach ".gitignore") inside place isDirectory else none
  let exclude := scope.verdictIn (excludeRules tree) inside place isDirectory
  let user := if inside.isEmpty then none else scope.userVerdict place isDirectory
  (plain <|> git <|> exclude <|> user).getD false

end Scope

end MacroSweep.Ignore
