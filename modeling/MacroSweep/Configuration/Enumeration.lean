import MacroSweep.Configuration.Combinations
import MacroSweep.Configuration.Forced

/-! The configurations of a unit in the order they are checked: first the one that defines no free
macro, then those that define more before those that define fewer. -/
namespace MacroSweep

/-- What fixes the configurations of each unit. -/
structure Enumeration where
  forced : ForcedMacros := {}
  exhaustive : Bool := false
  limit? : Option Nat := none

namespace Enumeration

/-- How many configurations a unit has at most. -/
def bound (e : Enumeration) : Nat :=
  match e.limit? with
  | some n => max n 1
  | none => if e.exhaustive then 4096 else if e.forced.hasDefines then 1 else 12

/-- Collects what is made of choices, as long as there is room. If none is left for a further choice
it breaks off with what it has. -/
def collect {α : Type} (make : List Nat → α) (room : Nat) (c : Combinations) (found : Array α) :
    Except (Array α) (Array α) :=
  match room, c.next? with
  | _, none => .ok found
  | 0, some _ => .error found
  | room + 1, some (chosen, c) => collect make room c (found.push (make chosen))

/-- Collects what is made of choices of the given sizes, one size after another, until it breaks off
at the bound. -/
def collectSizes {α : Type} (make : List Nat → α) (bound n : Nat) (sizes : List Nat)
    (found : Array α) : Except (Array α) (Array α) :=
  sizes.foldlM (fun found size => collect make (bound - found.size) (.start n size) found) found

/-- What was collected, whether or not it broke off. -/
def collected {α : Type} : Except (Array α) (Array α) → Array α
  | .ok found => found
  | .error found => found

/-- None, then all of `n`, and down to one. -/
def sizes (n : Nat) : List Nat := 0 :: (List.range' 1 n).reverse

/-- The conditional macros whose state is open. -/
def free (e : Enumeration) (conditionals : SortedSet String) : List String :=
  conditionals.toList.filter fun name => !e.forced.isForced name

/-- The configuration that defines the chosen free macros. -/
def configuration (e : Enumeration) (free chosen : List String) : Configuration where
  defines := chosen.foldl (fun defines name => defines.insert name "1") e.forced.defines
  undefined := e.forced.undefines.insertAll (free.filter fun name => !chosen.contains name)

/-- The free macros at the chosen indices. -/
def pick (free : List String) (chosen : List Nat) : List String :=
  chosen.filterMap fun index => free[index]?

/-- The configurations of a unit that mentions the given macros in its conditions. -/
def configurations (e : Enumeration) (conditionals : SortedSet String) : List Configuration :=
  let free := e.free conditionals
  let make chosen := e.configuration free (pick free chosen)
  (collected (collectSizes make e.bound free.length (sizes free.length) #[])).toList

end Enumeration

end MacroSweep
