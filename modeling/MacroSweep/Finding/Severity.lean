/-! How grave a finding is. -/
namespace MacroSweep

/-- Severities from the least to the most severe. -/
inductive Severity where
  | information
  | portability
  | performance
  | style
  | warning
  | error
  deriving DecidableEq, Repr

namespace Severity

/-- All severities in ascending order. -/
def all : List Severity := [information, portability, performance, style, warning, error]

def rank : Severity → Nat
  | information => 0
  | portability => 1
  | performance => 2
  | style => 3
  | warning => 4
  | error => 5

instance : LE Severity := ⟨fun a b => a.rank ≤ b.rank⟩

instance (a b : Severity) : Decidable (a ≤ b) := inferInstanceAs (Decidable (a.rank ≤ b.rank))

def name : Severity → String
  | information => "information"
  | portability => "portability"
  | performance => "performance"
  | style => "style"
  | warning => "warning"
  | error => "error"

/-- The severity of a full name. -/
def ofName? (s : String) : Option Severity := all.find? (·.name == s)

/-- Reads a severity as users write it: by its name, or `info` for short. -/
def parse (s : String) : Except String Severity :=
  match if s = "info" then some information else ofName? s with
  | some severity => .ok severity
  | none =>
    .error (s!"unknown severity `{s}`, expected one of: " ++
      ", ".intercalate (all.reverse.map name))

end Severity

end MacroSweep
