import MacroSweep.Checker.Basic
import MacroSweep.Finding.Json
import MacroSweep.Json.Reader

/-! Stored results of passes, as JSON. -/
namespace MacroSweep

open Json

namespace Program.Facts

def toJson (facts : Facts) : Json :=
  .object [
    ("definitions", .object (facts.definitions.toList.map fun e =>
      (e.1, .array (e.2.toList.map Location.toJson)))),
    ("uses", .array (facts.uses.toList.map .string))]

/-- The places of each symbol; of two entries for one symbol the later holds. -/
def definitionsOfJson? : Json → Option (SortedMap String (SortedSet Location))
  | .object fields => do
    let entries ← fields.mapM fun (symbol, sites) => do
      return (symbol, SortedSet.ofList (← list? Location.ofJson? sites))
    return .ofList entries
  | _ => none

def ofJson? (j : Json) : Option Facts := do
  match ← record? ["definitions", "uses"] j with
  | [definitions, uses] =>
    return {
      definitions := ← orDefault ∅ definitionsOfJson? definitions
      uses := ← orDefault ∅ (fun j => (list? string? j).map .ofList) uses }
  | _ => none

end Program.Facts

namespace Dependency

def toJson (d : Dependency) : Json :=
  .object [("path", .string d.path.text), ("fingerprint", .string d.fingerprint)]

def ofJson? (j : Json) : Option Dependency := do
  match ← record? ["path", "fingerprint"] j with
  | [path, fingerprint] => return ⟨⟨← string? (← path)⟩, ← string? (← fingerprint)⟩
  | _ => none

end Dependency

namespace Cache

/-- The layout of records that this library writes. -/
def layout : Nat := 1

/-- The result of a pass, with all that it depends on. -/
structure Record where
  format : Nat := layout
  unit : Path
  signature : String
  fingerprint : String
  dependencies : List Dependency
  checkerVersion : String
  findings : List Finding
  facts : Program.Facts
  deriving DecidableEq

namespace Record

/-- The names of a record's fields in order. -/
def fieldNames : List String :=
  ["format", "unit", "signature", "fingerprint", "dependencies", "checker_version", "findings",
    "partial"]

def toJson (r : Record) : Json :=
  .object [
    ("format", .nat r.format),
    ("unit", .string r.unit.text),
    ("signature", .string r.signature),
    ("fingerprint", .string r.fingerprint),
    ("dependencies", .array (r.dependencies.map Dependency.toJson)),
    ("checker_version", .string r.checkerVersion),
    ("findings", .array (r.findings.map Finding.toJson)),
    ("partial", r.facts.toJson)]

def ofJson? (j : Json) : Option Record := do
  match ← record? fieldNames j with
  | [format, unit, signature, fingerprint, dependencies, version, findings, facts] =>
    return {
      format := ← word? (← format)
      unit := ⟨← string? (← unit)⟩
      signature := ← string? (← signature)
      fingerprint := ← string? (← fingerprint)
      dependencies := ← list? Dependency.ofJson? (← dependencies)
      checkerVersion := ← string? (← version)
      findings := ← list? Finding.ofJson? (← findings)
      facts := ← orDefault {} Program.Facts.ofJson? facts }
  | _ => none

def encode (r : Record) : List UInt8 := Text.encode r.toJson.compact.toList

def decode? (bytes : List UInt8) : Option Record := do
  ofJson? (← Json.parse? bytes)

end Record

end Cache

end MacroSweep
