import MacroSweep.Text.Lines

/-! File paths. A path keeps the text it was written as, and is compared by its components. -/
namespace MacroSweep

open Text

/-- A file path as written. -/
structure Path where
  text : String
  deriving DecidableEq, Repr, Inhabited

/-- A part of a path. -/
inductive Component where
  | root
  | current
  | parent
  | normal (name : String)
  deriving DecidableEq, Repr

namespace Component

/-- The kinds of components in ascending order. -/
def rank : Component → Nat
  | root => 0
  | current => 1
  | parent => 2
  | normal _ => 3

def name : Component → String
  | normal n => n
  | _ => ""

instance : Ord Component := ⟨compareLex (compareOn rank) (compareOn name)⟩

instance : Std.TransOrd Component :=
  inferInstanceAs (Std.TransCmp (compareLex (compareOn rank) (compareOn name)))

/-- The component a piece between slashes stands for; empty pieces and single dots stand for
none. -/
def ofPiece? (piece : List Char) : Option Component :=
  if piece = [] ∨ piece = ['.'] then none
  else if piece = ['.', '.'] then some .parent
  else some (.normal (String.ofList piece))

end Component

namespace Path

/-- The parts of a path; a dot counts only where it opens a relative path. -/
def componentsOf (text : List Char) : List Component :=
  match text with
  | '/' :: rest => .root :: (splitOn '/' rest).filterMap Component.ofPiece?
  | text =>
    match splitOn '/' text with
    | ['.'] :: pieces => .current :: pieces.filterMap Component.ofPiece?
    | pieces => pieces.filterMap Component.ofPiece?

def components (p : Path) : List Component := componentsOf p.text.toList

instance : Ord Path := ⟨compareOn components⟩

instance : Std.TransOrd Path := inferInstanceAs (Std.TransCmp (compareOn components))

/-- Whether two paths have the same components. -/
def same (p q : Path) : Bool := compare p q == .eq

def isAbsolute (p : Path) : Bool := p.text.toList.head? == some '/'

/-- The path read from a directory: an absolute path stays as it is. -/
def join (dir p : Path) : Path :=
  if p.isAbsolute ∨ dir.text = "" then p
  else if dir.text.toList.getLast? = some '/' then ⟨dir.text ++ p.text⟩
  else ⟨dir.text ++ "/" ++ p.text⟩

/-- Whether a piece at the given place stands for no component. -/
def isVoidPiece (leading : Bool) (piece : List Char) : Bool :=
  piece == [] || (piece == ['.'] && !leading)

/-- Drops the final pieces that stand for no component. -/
def dropVoidEnd (relative : Bool) (pieces : List (List Char)) : List (List Char) :=
  match pieces with
  | [] => []
  | first :: rest =>
    match (rest.reverse.dropWhile (isVoidPiece false)).reverse with
    | [] => if isVoidPiece relative first then [] else [first]
    | kept => first :: kept

/-- The path without its last component, if that is a name or a run of dots. -/
def parent? (p : Path) : Option Path :=
  let cut (relative : Bool) (pieces : List (List Char)) : Option (List Char) :=
    match dropVoidEnd relative pieces with
    | [] => none
    | kept => some (joinWith '/' (dropVoidEnd relative kept.dropLast))
  match p.text.toList with
  | '/' :: rest => (cut false (splitOn '/' rest)).map fun cs => ⟨String.ofList ('/' :: cs)⟩
  | text => (cut true (splitOn '/' text)).map fun cs => ⟨String.ofList cs⟩

/-- The directory of a path, which is the current one for a bare name. -/
def directory (p : Path) : Path :=
  match p.parent? with
  | none => ⟨"."⟩
  | some dir => if dir.text = "" then ⟨"."⟩ else dir

/-- The name a path ends in. -/
def fileName? (p : Path) : Option String :=
  match p.components.getLast? with
  | some (.normal name) => some name
  | _ => none

/-- What follows the last dot of the file name, unless the name starts with it. -/
def extension? (p : Path) : Option String := do
  let name ← p.fileName?
  let (stem, ext) ← cutAtLast? (· == '.') name.toList
  if stem.isEmpty then none else some (String.ofList ext)

/-- Whether the components of `p` end in those of `q`. -/
def endsWith (p q : Path) : Bool := q.components.isSuffixOf p.components

end Path

end MacroSweep
