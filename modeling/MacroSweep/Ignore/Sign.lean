import MacroSweep.Text.Left

/-! The signs of an ignore pattern: its characters by their role. Brackets hold sets of characters,
and a backslash takes the next character as it is. -/
namespace MacroSweep.Ignore

open Text

/-- A character of a pattern with its role, or a whole set. -/
inductive Sign where
  | literal (c : Char)
  | slash
  | anyChar
  | star
  | oneOf (negated : Bool) (ranges : List (Char × Char))
  | opening
  | comma
  | closing
  deriving DecidableEq, Repr

/-- A set that is being read: its ranges, the last first, and whether a dash has left the last one
open. -/
structure OpenSet where
  ranges : List (Char × Char) := []
  inRange : Bool := false

namespace OpenSet

/-- Adds a character. The first stands for itself; later a dash opens the last range again, and the
character after it is that range's new end. `none` is a range that runs backwards. -/
def add? (s : OpenSet) (c : Char) : Option OpenSet :=
  match s.ranges with
  | [] => some { ranges := [(c, c)] }
  | (low, high) :: more =>
    if s.inRange then if c < low then none else some { ranges := (low, c) :: more }
    else if c = '-' then some { s with inRange := true }
    else some { ranges := (c, c) :: (low, high) :: more }

/-- The ranges of a finished set. A dash in last place stands for itself. -/
def finish (s : OpenSet) : List (Char × Char) :=
  if s.inRange then ('-', '-') :: s.ranges else s.ranges

/-- Reads on to the bracket that closes a set, which cannot be its first character. No result is a
set that never closes, and an error a range that runs backwards. -/
def read (s : OpenSet) : (cs : List Char) → Except Unit (Option (List (Char × Char) × Left cs))
  | [] => .ok none
  | c :: cs =>
    if c = ']' ∧ !s.ranges.isEmpty then .ok (some (s.finish, .tail c cs))
    else
      match s.add? c with
      | none => .error ()
      | some s => (s.read cs).map (·.map fun (ranges, l) => (ranges, l.cons c))

end OpenSet

/-- Reads a set after its opening bracket. A mark in first place turns it around. -/
def readSet : (cs : List Char) → Except Unit (Option (Sign × Left cs))
  | [] => .ok none
  | c :: cs =>
    if c = '!' ∨ c = '^' then
      (OpenSet.read {} cs).map (·.map fun (ranges, l) => (.oneOf true ranges, l.cons c))
    else (OpenSet.read {} (c :: cs)).map (·.map fun (ranges, l) => (.oneOf false ranges, l))

/-- Reads the sign that a character opens. A bracket whose set never closes stands for itself, as
do all brackets after it, which `plainBrackets` says. A pattern cannot end in a lone backslash. -/
def readSign (plainBrackets : Bool) (c : Char) (cs : List Char) :
    Option (Sign × Bool × Left (c :: cs)) :=
  let alone (s : Sign) := some (s, plainBrackets, Left.tail c cs)
  match c with
  | '/' => alone .slash
  | '?' => alone .anyChar
  | '*' => alone .star
  | '\x7b' => alone .opening
  | ',' => alone .comma
  | '\x7d' => alone .closing
  | '\\' =>
    match cs with
    | [] => none
    | d :: ds => some (.literal d, plainBrackets, (Left.tail d ds).cons c)
  | '[' =>
    if plainBrackets then alone (.literal c)
    else
      match readSet cs with
      | .error _ => none
      | .ok none => some (.literal c, true, .tail c cs)
      | .ok (some (s, l)) => some (s, false, l.cons c)
  | _ => alone (.literal c)

/-- The signs of a text. -/
def readSigns (plainBrackets : Bool) : List Char → Option (List Sign)
  | [] => some []
  | c :: cs =>
    match readSign plainBrackets c cs with
    | none => none
    | some (s, plainBrackets, l) => (readSigns plainBrackets l.1).map (s :: ·)
termination_by cs => cs.length
decreasing_by exact l.2

/-- The signs of a pattern. -/
def signs? (cs : List Char) : Option (List Sign) := readSigns false cs

end MacroSweep.Ignore
