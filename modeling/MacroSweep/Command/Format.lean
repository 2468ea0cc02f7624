import MacroSweep.Finding.Json

/-! The forms a report is printed in. -/
namespace MacroSweep.Command

inductive Format where
  | text
  | json
  | compact
  deriving DecidableEq, Repr

def Format.ofName? : String → Option Format
  | "text" => some text
  | "json" => some json
  | "compact" => some compact
  | _ => none

/-- The code that colours what follows it in a terminal. -/
def colour (code : Nat) : String := s!"\x1b[{code}m"

/-- Red if there are errors, green if there is nothing, else yellow. -/
def summaryColour (r : Report) : Nat :=
  if r.hasErrors then 31 else if r.findings.isEmpty then 32 else 33

/-- The text of a report. -/
def Format.render (r : Report) : Format → String
  | text =>
    String.join (r.findings.map fun f => f.report ++ "\n") ++
      s!"{colour (summaryColour r)}{r.summary}{colour 0}\n"
  | json => r.toJson.pretty 0 ++ "\n"
  | compact => String.join (r.findings.map fun f => f.summaryLine ++ "\n")

end MacroSweep.Command
