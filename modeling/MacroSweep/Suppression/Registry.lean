import MacroSweep.Suppression.Index
import MacroSweep.Suppression.PlainText
import MacroSweep.Suppression.Structured

/-! The suppressions of a run, and the findings they leave. -/
namespace MacroSweep.Suppression

/-- All declared rules, and whether inline markers count and unused rules are reported. -/
structure Registry where
  declared : Declared := {}
  inline : Bool := false
  reportUnused : Bool := false

/-- A rule of a run by its number. -/
inductive RuleRef where
  | declared (i : Nat)
  | inline (i : Nat)
  deriving DecidableEq, Repr

/-- What is left of a stream of findings. -/
structure Filtered where
  kept : List Finding := []
  suppressed : Nat := 0
  deriving DecidableEq, Repr

/-- Keeps a finding, or counts it if it is suppressed. -/
def Filtered.add (result : Filtered) (f : Finding) (suppressed : Bool) : Filtered :=
  if suppressed then { result with suppressed := result.suppressed + 1 }
  else { result with kept := result.kept ++ [f] }

namespace Registry

def rules (r : Registry) : List Rule := r.declared.rules

/-- Adds what a source declares. -/
def add (r : Registry) (d : Declared) : Registry := { r with declared := r.declared.append d }

/-- Findings about all suppressions that were dropped. -/
def diagnostics (r : Registry) (index : InlineIndex) : List Finding :=
  (r.declared.faults ++ index.faults).map Fault.toFinding

/-- The rules that cover a finding. -/
def covering (r : Registry) (index : InlineIndex) (f : Finding) : List RuleRef :=
  ((r.rules.zipIdx.filter fun (rule, _) => rule.covers f).map fun (_, i) => .declared i) ++
    if r.inline then ((index.candidates f).filter (index.covers f)).map .inline else []

/-- Whether some rule covers a finding. -/
def isSuppressed (r : Registry) (index : InlineIndex) (f : Finding) : Bool :=
  !(r.covering index f).isEmpty

/-- The finding that reports an unused rule. -/
def unusedFinding (rule : Rule) : Finding where
  id := "unmatchedSuppression"
  severity := .information
  location := rule.origin.location
  message := s!"Unmatched suppression: {rule.describe}"

/-- Whether an unused declared rule is reported: it has to name one file. -/
def namesFile (rule : Rule) : Bool :=
  match rule.file with
  | some file => !Glob.hasWildcard file
  | none => false

/-- The rules that cover no finding of a run and are to be reported. -/
def unused (r : Registry) (index : InlineIndex) (used : List RuleRef) : List Rule :=
  ((r.rules.zipIdx.filter fun (rule, i) => namesFile rule && !used.contains (.declared i)) ++
    if r.inline then index.rules.zipIdx.filter fun (_, i) => !used.contains (.inline i)
    else []).map (·.1)

/-- Marks rules as used, and tells whether there are any. -/
def mark (used rules : List RuleRef) : Bool × List RuleRef :=
  rules.foldl (fun (_, used) rule => (true, used.insert rule)) (false, used)

/-- Goes on to a further finding, with what is left so far and the rules that were used. -/
def sift (r : Registry) (index : InlineIndex) : Filtered × List RuleRef → Finding →
    Filtered × List RuleRef
  | (result, used), f =>
    let (hit, used) := mark used (r.covering index f)
    (result.add f hit, used)

/-- Removes the findings that rules cover. Unused rules, if reported, add findings, which rules may
cover in turn. -/
def filter (r : Registry) (index : InlineIndex) (findings : List Finding) : Filtered :=
  let (result, used) := findings.foldl (r.sift index) ({}, [])
  if r.reportUnused then
    ((r.unused index used).map unusedFinding).foldl
      (fun result f => result.add f (r.isSuppressed index f)) result
  else result

end Registry

end MacroSweep.Suppression
