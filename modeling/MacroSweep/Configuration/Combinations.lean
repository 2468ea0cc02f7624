/-! Choices of indices, one after the other in lexicographic order. From a choice to the next, the
last index that has room moves up and those after it follow close behind. -/
namespace MacroSweep

/-- Choices among the indices below `size`, and the one that is given next. -/
structure Combinations where
  size : Nat
  current : Option (List Nat)

namespace Combinations

/-- Choices of so many indices, the lowest first. -/
def start (size count : Nat) : Combinations where
  size
  current := if count ≤ size then some (List.range count) else none

/-- Puts the indices after a position close behind it. -/
def closeUp (indices : List Nat) (position : Nat) : List Nat :=
  (List.range' (position + 1) (indices.length - (position + 1))).foldl
    (fun indices j => indices.set j (indices.getD (j - 1) 0 + 1)) indices

/-- Moves up the last index before a position that has room. -/
def advanceBefore (size : Nat) (indices : List Nat) : Nat → Option (List Nat)
  | 0 => none
  | i + 1 =>
    let index := indices.getD i 0
    if index < size - indices.length + i then some (closeUp (indices.set i (index + 1)) i)
    else advanceBefore size indices i

/-- The choice after a choice. -/
def advance (size : Nat) (indices : List Nat) : Option (List Nat) :=
  advanceBefore size indices indices.length

/-- Gives a choice and moves on. -/
def next? (c : Combinations) : Option (List Nat × Combinations) :=
  c.current.map fun indices => (indices, { c with current := advance c.size indices })

end Combinations

end MacroSweep
