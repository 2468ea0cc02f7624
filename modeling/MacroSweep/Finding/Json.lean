import MacroSweep.Finding.Report
import MacroSweep.Json.Record
import MacroSweep.Text.Numeral

/-! Findings and reports as JSON. Absent details are left out of a finding. -/
namespace MacroSweep

open Json

namespace Severity

def toJson (s : Severity) : Json := .string s.name

/-- Reads a severity by its name, bare or as the key of a null. -/
def ofJson? (j : Json) : Option Severity := do ofName? (← variant? j)

end Severity

namespace Location

def toJson (l : Location) : Json :=
  .object [("file", .string l.file.text), ("line", .nat l.line), ("column", .nat l.column)]

def ofJson? (j : Json) : Option Location := do
  match ← record? ["file", "line", "column"] j with
  | [file, line, column] => return ⟨⟨← string? (← file)⟩, ← word? (← line), ← word? (← column)⟩
  | _ => none

end Location

namespace Note

def toJson (n : Note) : Json :=
  .object [("location", n.location.toJson), ("text", .string n.text)]

def ofJson? (j : Json) : Option Note := do
  match ← record? ["location", "text"] j with
  | [location, text] => return ⟨← Location.ofJson? (← location), ← string? (← text)⟩
  | _ => none

end Note

namespace Finding

/-- The names of a finding's fields in order. -/
def fieldNames : List String :=
  ["id", "severity", "location", "call_stack", "message", "verbose", "inconclusive", "symbol",
    "standard_violation", "remark", "macro_expansion"]

def toJson (f : Finding) : Json :=
  let optional (key : String) (value : Option String) : List (String × Json) :=
    value.toList.map fun s => (key, .string s)
  .object (
    [("id", .string f.id), ("severity", f.severity.toJson), ("location", f.location.toJson)] ++
    (if f.callStack.isEmpty then [] else [("call_stack", .array (f.callStack.map Note.toJson))]) ++
    [("message", .string f.message)] ++
    optional "verbose" f.verbose ++
    (if f.inconclusive then [("inconclusive", .bool true)] else []) ++
    optional "symbol" f.symbol ++
    optional "standard_violation" f.standardViolation ++
    optional "remark" f.remark ++
    optional "macro_expansion" f.macroExpansion)

def ofJson? (j : Json) : Option Finding := do
  match ← record? fieldNames j with
  | [id, severity, location, callStack, message, verbose, inconclusive, symbol, violation, remark,
      expansion] =>
    return {
      id := ← string? (← id)
      severity := ← Severity.ofJson? (← severity)
      location := ← Location.ofJson? (← location)
      callStack := ← orDefault [] (list? Note.ofJson?) callStack
      message := ← string? (← message)
      verbose := ← orDefault none (nullable? string?) verbose
      inconclusive := ← orDefault false bool? inconclusive
      symbol := ← orDefault none (nullable? string?) symbol
      standardViolation := ← orDefault none (nullable? string?) violation
      remark := ← orDefault none (nullable? string?) remark
      macroExpansion := ← orDefault none (nullable? string?) expansion }
  | _ => none

end Finding

namespace Report

def toJson (r : Report) : Json :=
  .object [
    ("findings", .array (r.findings.map Finding.toJson)),
    ("units_checked", .nat r.unitsChecked),
    ("configurations_checked", .nat r.configurationsChecked),
    ("cache_hits", .nat r.cacheHits),
    ("cache_misses", .nat r.cacheMisses),
    ("suppressed", .nat r.suppressed)]

end Report

end MacroSweep
