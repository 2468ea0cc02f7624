import MacroSweep.Finding.Basic

/-! Bounded instantiation of templates. Each name is instantiated once; a chain of requests that
grows deeper than the bound is cut, and the first cut is reported. -/
namespace MacroSweep.Template

/-- A template instance, and how long the chain of requests that led to it is. -/
structure Instantiation where
  name : String
  depth : Nat
  deriving DecidableEq, Repr

/-- The instances of one pass. -/
structure Guard where
  bound : Nat := 100
  arena : List Instantiation := []
  finding : Option Finding := none
  deriving DecidableEq, Repr

/-- What became of a request; instances are told by their number. -/
inductive Outcome where
  | proceed (id : Nat)
  | known (id : Nat)
  | stopped
  deriving DecidableEq, Repr

namespace Guard

/-- The finding for a chain that was cut after an instance. -/
def recursionFinding (bound : Nat) (deepest : String) (location : Location) : Finding where
  id := "templateRecursion"
  severity := .information
  location
  message := s!"max template recursion ({bound}) reached for template '{deepest}'. " ++
    "You might want to limit template recursion."
  symbol := some deepest

/-- Notes that a chain was cut, unless one was before. -/
def cut (g : Guard) (deepest : String) (location : Location) : Guard :=
  match g.finding with
  | some _ => g
  | none => { g with finding := some (recursionFinding g.bound deepest location) }

/-- Requests an instance, from another or from outside. -/
def instantiate (g : Guard) (name : String) (parent : Option Nat) (location : Location) :
    Outcome × Guard :=
  match g.arena.findIdx? (·.name == name) with
  | some id => (.known id, g)
  | none =>
    let requester := parent.bind (g.arena[·]?)
    let depth := (requester.map (·.depth)).getD 0 + 1
    if g.bound < depth then
      (.stopped, g.cut ((requester.map (·.name)).getD name) location)
    else (.proceed g.arena.length, { g with arena := g.arena ++ [⟨name, depth⟩] })

/-- Requests an instance and, if it is new, all that it requests in turn. Below a request there is
room for `room` more. -/
def visit (children : String → List (String × Location)) (room : Nat) (parent : Option Nat)
    (g : Guard) (request : String × Location) : Guard :=
  match room, g.instantiate request.1 parent request.2 with
  | room + 1, (.proceed id, g) => (children request.1).foldl (visit children room (some id)) g
  | _, (_, g) => g

/-- Instantiates a template and all that it requests, depth first. -/
def expand (g : Guard) (root : String) (location : Location)
    (children : String → List (String × Location)) : Guard :=
  g.visit children g.bound none (root, location)

/-- The length of the longest chain so far. -/
def maxDepth (g : Guard) : Nat := (g.arena.map (·.depth)).foldl max 0

def isTripped (g : Guard) : Bool := g.finding.isSome

/-- The pending finding, and the instances without it. -/
def takeFindings (g : Guard) : List Finding × Guard :=
  (g.finding.toList, { g with finding := none })

end Guard

end MacroSweep.Template
