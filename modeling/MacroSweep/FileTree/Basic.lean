import MacroSweep.Ordered.Map
import MacroSweep.Path.Normal
import MacroSweep.Text.Utf8

/-! A tree of files as a value: what is read and written is looked up in it, from a working
directory. -/
namespace MacroSweep

open Text

/-- What stands at a place of the tree. -/
inductive Node where
  | file (bytes : List UInt8)
  | directory
  deriving DecidableEq, Repr

/-- A place of the tree: the names on the way to it from the top. -/
abbrev Place := List String

/-- The files and directories below the top, and the directory that relative paths start from. -/
structure FileTree where
  nodes : SortedMap Place Node := ∅
  base : Place := []

/-- Why a path cannot be read or written. -/
inductive FileError where
  | notFound
  | notDirectory
  | isDirectory
  | alreadyExists
  | nameTooLong
  | invalidText
  deriving DecidableEq, Repr

def FileError.message : FileError → String
  | notFound => "No such file or directory (os error 2)"
  | notDirectory => "Not a directory (os error 20)"
  | isDirectory => "Is a directory (os error 21)"
  | alreadyExists => "File exists (os error 17)"
  | nameTooLong => "File name too long (os error 36)"
  | invalidText => "stream did not contain valid UTF-8"

/-- A failure, and the files as it left them. -/
structure FileFailure where
  cause : FileError
  tree : FileTree

/-- One step along a path. -/
inductive Step where
  | stay
  | up
  | into (name : String)
  deriving DecidableEq, Repr

/-- The step that a piece between slashes asks for. -/
def Step.ofPiece (piece : List Char) : Step :=
  if piece = [] ∨ piece = ['.'] then .stay
  else if piece = ['.', '.'] then .up
  else .into (String.ofList piece)

namespace Path

/-- The steps of a path, after the slash of an absolute one. -/
def steps (p : Path) : List Step :=
  let text := p.text.toList
  (splitOn '/' (if p.isAbsolute then text.tail else text)).map Step.ofPiece

/-- The number of bytes from which on a path is too long. -/
def limit : Nat := 4096

/-- Whether a path is too long to be followed. -/
def isTooLong (p : Path) : Bool := limit ≤ byteLength p.text.toList

end Path

namespace FileTree

/-- What stands at a place; the top is a directory. -/
def node? (tree : FileTree) (place : Place) : Option Node :=
  if place = [] then some .directory else tree.nodes.find? place

/-- The place a step leads to from a directory; the way up from the top leads to the top. -/
def step (place : Place) : Step → Place
  | .stay => place
  | .up => place.dropLast
  | .into name => place ++ [name]

/-- The place that steps lead to. Each step starts at a directory; the last may lead to a place
where nothing stands. -/
def walk (tree : FileTree) (place : Place) : List Step → Except FileError Place
  | [] => .ok place
  | s :: steps =>
    match tree.node? place with
    | none => .error .notFound
    | some (.file _) => .error .notDirectory
    | some .directory => tree.walk (step place s) steps

/-- Where the steps of a path start. -/
def origin (tree : FileTree) (p : Path) : Place := if p.isAbsolute then [] else tree.base

/-- The place of a path. -/
def locate (tree : FileTree) (p : Path) : Except FileError Place :=
  if p.text = "" then .error .notFound
  else if p.isTooLong then .error .nameTooLong
  else tree.walk (tree.origin p) p.steps

/-- The node of a path. -/
def lookup (tree : FileTree) (p : Path) : Except FileError Node := do
  match tree.node? (← tree.locate p) with
  | some node => .ok node
  | none => .error .notFound

def isFile (tree : FileTree) (p : Path) : Bool :=
  match tree.lookup p with
  | .ok (.file _) => true
  | _ => false

def isDirectory (tree : FileTree) (p : Path) : Bool :=
  match tree.lookup p with
  | .ok .directory => true
  | _ => false

/-- The bytes of a file. -/
def read (tree : FileTree) (p : Path) : Except FileError (List UInt8) := do
  match ← tree.lookup p with
  | .file bytes => .ok bytes
  | .directory => .error .isDirectory

theorem byteLength_lt_of_read {tree : FileTree} {p : Path} {bytes : List UInt8}
    (h : tree.read p = .ok bytes) : byteLength p.text.toList < Path.limit := by
  have hshort : p.isTooLong = false := by
    rw [Bool.eq_false_iff]
    intro hlong
    by_cases hp : p.text = "" <;>
      simp [read, lookup, locate, hp, hlong, bind, Except.bind] at h
  simpa [Path.isTooLong] using hshort

/-- The text of a file that is text throughout. -/
def readText (tree : FileTree) (p : Path) : Except FileError (List Char) := do
  match decode? (← tree.read p) with
  | some text => .ok text
  | none => .error .invalidText

/-- Puts a node at a place. -/
def put (tree : FileTree) (place : Place) (node : Node) : FileTree :=
  { tree with nodes := tree.nodes.insert place node }

/-- Writes a file into a directory that exists. -/
def write (tree : FileTree) (p : Path) (bytes : List UInt8) : Except FileError FileTree := do
  let place ← tree.locate p
  match tree.node? place with
  | some .directory => .error .isDirectory
  | _ => .ok (tree.put place (.file bytes))

/-- Takes away what stands at a place. -/
def erase (tree : FileTree) (place : Place) : FileTree :=
  { tree with nodes := tree.nodes.erase place }

/-- Takes away a file. -/
def removeFile (tree : FileTree) (p : Path) : Except FileError FileTree := do
  let place ← tree.locate p
  match tree.node? place with
  | some (.file _) => .ok (tree.erase place)
  | some .directory => .error .isDirectory
  | none => .error .notFound

/-- Moves a file to where a file may stand already. -/
def moveFile (tree : FileTree) (source target : Path) : Except FileError FileTree := do
  let start ← tree.locate source
  let place ← tree.locate target
  match tree.node? start, tree.node? place with
  | some (.file _), some .directory => .error .isDirectory
  | some (.file bytes), _ => .ok ((tree.erase start).put place (.file bytes))
  | some .directory, _ => .error .isDirectory
  | none, _ => .error .notFound

/-- Writes a file under another name first and moves it into place when it is complete. If that
fails, the other name is taken away again. -/
def replaceFile (tree : FileTree) (temporary p : Path) (bytes : List UInt8) :
    Except FileFailure FileTree :=
  match tree.write temporary bytes with
  | .error cause => .error ⟨cause, (tree.removeFile temporary).toOption.getD tree⟩
  | .ok written =>
    match written.moveFile temporary p with
    | .error cause => .error ⟨cause, (written.removeFile temporary).toOption.getD written⟩
    | .ok moved => .ok moved

/-- Makes the directories that steps go through. Those that were made stay when a later one cannot
be. -/
def makeDirectories (tree : FileTree) (place : Place) : List Step → Except FileFailure FileTree
  | [] => .ok tree
  | s :: steps =>
    let next := step place s
    match tree.node? next with
    | some .directory => tree.makeDirectories next steps
    | some (.file _) => .error ⟨if steps = [] then .alreadyExists else .notDirectory, tree⟩
    | none => (tree.put next .directory).makeDirectories next steps

/-- Makes a directory and those above it, where they are missing. -/
def createDirectories (tree : FileTree) (p : Path) : Except FileFailure FileTree :=
  if p.text = "" then .ok tree
  else if p.isTooLong then .error ⟨.nameTooLong, tree⟩
  else tree.makeDirectories (tree.origin p) p.steps

/-- Takes away what stands at a path and below it. -/
def remove (tree : FileTree) (p : Path) : Except FileError FileTree := do
  let place ← tree.locate p
  let _ ← tree.lookup p
  let gone := tree.nodes.keys.filter place.isPrefixOf
  .ok { tree with nodes := gone.foldl SortedMap.erase tree.nodes }

/-- The names in a directory. -/
def children (tree : FileTree) (place : Place) : List String :=
  tree.nodes.keys.filterMap fun key =>
    if key.dropLast = place then key.getLast? else none

/-- The names in the directory of a path. -/
def list (tree : FileTree) (p : Path) : Except FileError (List String) := do
  match ← tree.lookup p with
  | .directory => .ok (tree.children (← tree.locate p))
  | .file _ => .error .notDirectory

end FileTree

end MacroSweep
