/-! Groups of conditional directives: which branch is selected, and how groups nest. -/
namespace MacroSweep.Walk

/-- An open group. A group selects at most one branch: once one is taken, no other is. -/
structure Group where
  keyword : String
  line : Nat
  parentActive : Bool
  taken : Bool
  active : Bool
  seenElse : Bool := false
  deriving DecidableEq, Repr

/-- How conditional directives fail to nest. -/
inductive NestingError where
  | elifWithoutIf
  | elifAfterElse
  | elseWithoutIf
  | elseAfterElse
  | endifWithoutIf
  | unterminated (keyword : String)
  deriving DecidableEq, Repr

def NestingError.message : NestingError → String
  | elifWithoutIf => "#elif without #if"
  | elifAfterElse => "#elif after #else"
  | elseWithoutIf => "#else without #if"
  | elseAfterElse => "#else after #else"
  | endifWithoutIf => "#endif without #if"
  | unterminated keyword => s!"unterminated #{keyword}"

namespace Group

/-- A group whose first branch is taken or not. -/
def start (keyword : String) (line : Nat) (parentActive taken : Bool) : Group :=
  { keyword, line, parentActive, taken, active := taken }

/-- Whether the condition of a further branch counts. -/
def awaits (g : Group) : Bool := g.parentActive && !g.taken

/-- The group in a further branch. -/
def branch (g : Group) (taken : Bool) : Group :=
  { g with active := taken, taken := g.taken || taken }

/-- The group in the branch that is left if no other was taken. -/
def otherwise (g : Group) : Group :=
  { g with active := g.awaits, taken := true, seenElse := true }

/-- Whether code counts within open groups, the innermost first. -/
def allActive (groups : List Group) : Bool :=
  match groups with
  | [] => true
  | g :: _ => g.active

end Group

end MacroSweep.Walk
