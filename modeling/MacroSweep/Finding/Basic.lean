import MacroSweep.Finding.Severity
import MacroSweep.Path.Basic

/-! Findings and where they are. -/
namespace MacroSweep

/-- A place in a file. Line and column count from one; zero stands for none. -/
structure Location where
  file : Path
  line : Nat
  column : Nat
  deriving DecidableEq, Repr

namespace Location

/-- The location of what belongs to no file. -/
def nowhere : Location := ⟨⟨""⟩, 0, 0⟩

instance : Ord Location :=
  ⟨compareLex (compareOn file) (compareLex (compareOn line) (compareOn column))⟩

instance : Std.TransOrd Location :=
  inferInstanceAs (Std.TransCmp
    (compareLex (compareOn file) (compareLex (compareOn line) (compareOn column))))

/-- The text `file:line`. -/
def lineText (l : Location) : String := s!"{l.file.text}:{l.line}"

/-- The text `file:line:column`. -/
def text (l : Location) : String := s!"{l.lineText}:{l.column}"

end Location

/-- A further place that explains a finding. -/
structure Note where
  location : Location
  text : String
  deriving DecidableEq, Repr

/-- One reported problem. -/
structure Finding where
  id : String
  severity : Severity
  location : Location
  callStack : List Note := []
  message : String
  verbose : Option String := none
  inconclusive : Bool := false
  symbol : Option String := none
  standardViolation : Option String := none
  remark : Option String := none
  macroExpansion : Option String := none
  deriving DecidableEq, Repr

namespace Finding

/-- The long message, or the short one if there is none. -/
def verboseMessage (f : Finding) : String := f.verbose.getD f.message

/-- What tells findings apart. -/
def key (f : Finding) : String × Location × String := (f.id, f.location, f.message)

/-- Whether two findings report the same: equal id and message at one location. -/
def sameAs (f g : Finding) : Bool :=
  f.id == g.id && f.message == g.message && compare f.location g.location == .eq

/-- The finding on one line. -/
def summaryLine (f : Finding) : String :=
  s!"{f.location.text}: {f.severity.name} [{f.id}] {f.message}"

/-- The finding with a line for each detail. -/
def report (f : Finding) : String :=
  let detail (label : String) (text : Option String) : String :=
    match text with
    | some t => s!"  = {label}: {t}\n"
    | none => ""
  s!"{f.location.text}: {f.severity.name}: {f.message} [{f.id}]\n" ++
    (if f.inconclusive then "  = note: inconclusive\n" else "") ++
    String.join (f.callStack.map fun n => s!"  = {n.location.lineText}: {n.text}\n") ++
    detail "violates" f.standardViolation ++
    detail "remark" f.remark

/-- Leaves out findings that report the same as an earlier one. -/
def dedup : List Finding → List Finding
  | [] => []
  | f :: fs => f :: (dedup fs).filter fun g => !f.sameAs g

/-- The order of a report: by file, line, column, identifier and message. -/
def reportOrder : Finding → Finding → Ordering :=
  compareLex (compareOn location) (compareLex (compareOn id) (compareOn message))

end Finding

end MacroSweep
