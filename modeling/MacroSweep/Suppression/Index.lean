import MacroSweep.Suppression.Inline

/-! The inline suppressions of all files of a run, found by file. -/
namespace MacroSweep.Suppression

/-- All inline rules in the order of their scans. Rules about a macro are found from everywhere and
the others from their file. -/
structure InlineIndex where
  rules : List Rule := []
  byFile : SortedMap Path (List Nat) := ∅
  expansions : List Nat := []
  remarks : SortedMap Path (SortedMap Nat String) := ∅
  faults : List Fault := []

namespace InlineIndex

/-- Whether a file was scanned. -/
def contains (index : InlineIndex) (file : Path) : Bool := index.byFile.contains file

def isExpansion (r : Rule) : Bool :=
  match r.scope with
  | .expansion _ => true
  | _ => false

/-- Adds the scan of a file; of several scans of a file the first counts. -/
def insert (index : InlineIndex) (file : Path) (scan : InlineScan) : InlineIndex :=
  if index.contains file then index
  else
    let numbered := scan.rules.zipIdx index.rules.length
    let numbers (p : Rule → Bool) := (numbered.filter fun (r, _) => p r).map (·.2)
    { rules := index.rules ++ scan.rules
      byFile := index.byFile.insert file (numbers fun r => !isExpansion r)
      expansions := index.expansions ++ numbers isExpansion
      remarks :=
        if scan.remarks.isEmpty then index.remarks else index.remarks.insert file scan.remarks
      faults := index.faults ++ scan.faults }

/-- The rules that may cover a finding: those of its file, then those about macros. -/
def candidates (index : InlineIndex) (f : Finding) : List Nat :=
  (index.byFile.find? f.location.file).getD [] ++ index.expansions

/-- Whether the rule with a number covers a finding. -/
def covers (index : InlineIndex) (f : Finding) (i : Nat) : Bool :=
  (index.rules[i]?).any (·.covers f)

/-- Gives a finding the remark on its line, unless it has one. -/
def attachRemark (index : InlineIndex) (f : Finding) : Finding :=
  match f.remark with
  | some _ => f
  | none =>
    { f with remark := (index.remarks.find? f.location.file).bind (·.find? f.location.line) }

end InlineIndex

end MacroSweep.Suppression
