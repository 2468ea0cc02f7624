import MacroSweep.Ordered.Set
import MacroSweep.Finding.Basic

/-! Configurations: the macro states a unit is checked under. -/
namespace MacroSweep

/-- A macro state: the macros that are defined, and those known not to be. -/
structure Configuration where
  defines : SortedMap String String := ∅
  undefined : SortedSet String := ∅
  deriving DecidableEq

namespace Configuration

/-- The text of a definition in a signature. -/
def entryText (e : String × String) : String := e.1 ++ "=" ++ e.2

/-- The text that stands for a configuration: its definitions in order of name. -/
def signature (c : Configuration) : String := ";".intercalate (c.defines.toList.map entryText)

def isDefined (c : Configuration) (name : String) : Bool := c.defines.contains name

def value? (c : Configuration) (name : String) : Option String := c.defines.find? name

end Configuration

end MacroSweep
