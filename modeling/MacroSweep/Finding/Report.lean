import MacroSweep.Finding.Basic

/-! The result of a run. -/
namespace MacroSweep

/-- The findings of a run, and counts of what it did. -/
structure Report where
  findings : List Finding := []
  unitsChecked : Nat := 0
  configurationsChecked : Nat := 0
  cacheHits : Nat := 0
  cacheMisses : Nat := 0
  suppressed : Nat := 0
  deriving DecidableEq, Repr

namespace Report

def hasErrors (r : Report) : Bool := r.findings.any (·.severity == .error)

/-- Whether some finding is at least as severe as `threshold`. -/
def reaches (r : Report) (threshold : Severity) : Bool :=
  r.findings.any fun f => threshold ≤ f.severity

/-- How many findings there are of each severity that occurs, least severe first. -/
def counts (r : Report) : List (Severity × Nat) :=
  (Severity.all.map fun s => (s, r.findings.countP (·.severity == s))).filter (·.2 != 0)

/-- The run on one line. -/
def summary (r : Report) : String :=
  let bySeverity := r.counts.reverse.map fun (s, n) => s!"{n} {s.name}"
  (if bySeverity.isEmpty then "no findings" else ", ".intercalate bySeverity) ++
    s!" in {r.unitsChecked} unit(s), {r.configurationsChecked} configuration(s) " ++
    s!"({r.cacheHits} cached), {r.suppressed} suppressed"

end Report

end MacroSweep
