import MacroSweep.Ordered.Map

/-! Finite sets kept as strictly increasing lists. -/
namespace MacroSweep

/-- A finite set of ordered elements, kept as a strictly increasing list. -/
structure SortedSet (α : Type) [Ord α] where
  map : SortedMap α Unit
  deriving DecidableEq

namespace SortedSet

variable {α : Type} [Ord α]

/-- The set with no element. -/
def empty : SortedSet α := ⟨.empty⟩

instance : Inhabited (SortedSet α) := ⟨empty⟩

instance : EmptyCollection (SortedSet α) := ⟨empty⟩

def toList (s : SortedSet α) : List α := s.map.keys

def contains (s : SortedSet α) (a : α) : Bool := s.map.contains a

def insert [Std.TransOrd α] (s : SortedSet α) (a : α) : SortedSet α := ⟨s.map.insert a ()⟩

def erase (s : SortedSet α) (a : α) : SortedSet α := ⟨s.map.erase a⟩

def isEmpty (s : SortedSet α) : Bool := s.map.isEmpty

def insertAll [Std.TransOrd α] (s : SortedSet α) (as : List α) : SortedSet α :=
  as.foldl insert s

def ofList [Std.TransOrd α] (as : List α) : SortedSet α := empty.insertAll as

/-- The elements of the first set that are not in the second. -/
def diff (s t : SortedSet α) : SortedSet α := t.toList.foldl erase s

end SortedSet

end MacroSweep
