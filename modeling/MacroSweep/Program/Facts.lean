import MacroSweep.Ordered.Set
import MacroSweep.Finding.Basic

/-! What units tell about the symbols of the whole program. Facts are joined as sets, so the order
in which units tell them does not show. -/
namespace MacroSweep.Program

/-- The symbols that are defined, with their places, and those that are used. -/
structure Facts where
  definitions : SortedMap String (SortedSet Location) := ∅
  uses : SortedSet String := ∅
  deriving DecidableEq

namespace Facts

/-- The places where a symbol is defined. -/
def sites (facts : Facts) (symbol : String) : SortedSet Location :=
  (facts.definitions.find? symbol).getD ∅

/-- Adds places of a symbol. -/
def defineAll (facts : Facts) (symbol : String) (sites : List Location) : Facts :=
  { facts with
    definitions := facts.definitions.insert symbol ((facts.sites symbol).insertAll sites) }

def define (facts : Facts) (symbol : String) (site : Location) : Facts :=
  facts.defineAll symbol [site]

def reference (facts : Facts) (symbol : String) : Facts :=
  { facts with uses := facts.uses.insert symbol }

/-- Adds all that other facts tell. -/
def merge (facts other : Facts) : Facts :=
  let defined :=
    other.definitions.toList.foldl (fun facts e => facts.defineAll e.1 e.2.toList) facts
  { defined with uses := defined.uses.insertAll other.uses.toList }

def isEmpty (facts : Facts) : Bool := facts.definitions.isEmpty && facts.uses.isEmpty

/-- The finding for a macro that is defined at a place and used nowhere. -/
def unusedMacro (name : String) (site : Location) : Finding where
  id := "unusedMacro"
  severity := .style
  location := site
  message := s!"Macro '{name}' is defined but never used."
  symbol := some name

/-- One finding for each place that defines a macro used nowhere. -/
def unusedMacros (facts : Facts) : List Finding :=
  (facts.definitions.toList.filter fun e => !facts.uses.contains e.1).flatMap fun e =>
    e.2.toList.map (unusedMacro e.1)

end Facts

/-- The facts of the units that have told them so far, out of those expected. -/
structure Tally where
  expected : Nat
  submitted : Nat := 0
  facts : Facts := {}

/-- Some units have not told their facts, or too many have. -/
structure BarrierError where
  expected : Nat
  submitted : Nat
  deriving DecidableEq, Repr

def BarrierError.message (e : BarrierError) : String :=
  s!"whole-program barrier not reached: {e.submitted} of {e.expected} unit(s) submitted"

namespace Tally

def submit (tally : Tally) (facts : Facts) : Tally :=
  { tally with submitted := tally.submitted + 1, facts := tally.facts.merge facts }

/-- The facts of the program, once each unit has told its own. -/
def close (tally : Tally) : Except BarrierError Facts :=
  if tally.submitted = tally.expected then .ok tally.facts
  else .error ⟨tally.expected, tally.submitted⟩

end Tally

end MacroSweep.Program
