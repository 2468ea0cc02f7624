import MacroSweep.Suppression.Rule

/-! What can be wrong with a suppression. -/
namespace MacroSweep.Suppression

/-- Why a comment that looks like a marker is none. -/
inductive MarkerFault where
  | unterminatedList
  | missingIdentifier
  | invalidIdentifier (id : String)
  | unexpectedWord (word : String)
  deriving DecidableEq, Repr

def MarkerFault.message : MarkerFault → String
  | unterminatedList => "unterminated identifier list"
  | missingIdentifier => "missing identifier"
  | invalidIdentifier id => s!"invalid identifier `{id}`"
  | unexpectedWord word => s!"unexpected `{word}` after identifiers"

/-- The word that opens every marker. -/
def markerWord : String := "cppcheck-suppress"

/-- Why a suppression is dropped. -/
inductive Cause where
  | invalidListedId (id rule : String)
  | invalidLine (line rule : String)
  | emptyFile (rule : String)
  | malformedMarker (fault : MarkerFault)
  | markerWithoutCode
  | endWithoutBegin (id : String)
  | beginWithoutEnd (id : String)
  | expansionWithoutDefine
  | unknownElement (name : String)
  | entryWithoutId
  | invalidEntryId (id : String)
  | invalidEntryLine (line : String)
  | entryLineWithoutFile
  | malformedDocument (problem : String)
  | unreadable (problem : String)
  deriving DecidableEq, Repr

def Cause.message : Cause → String
  | invalidListedId id rule => s!"invalid suppression id `{id}` in `{rule}`"
  | invalidLine line rule => s!"invalid line `{line}` in `{rule}`"
  | emptyFile rule => s!"empty file name in `{rule}`"
  | malformedMarker fault => s!"malformed suppression marker: {fault.message}"
  | markerWithoutCode => "suppression marker is not followed by code"
  | endWithoutBegin id => s!"`{markerWord}-end {id}` has no matching begin marker"
  | beginWithoutEnd id => s!"`{markerWord}-begin {id}` has no matching end marker"
  | expansionWithoutDefine => s!"`{markerWord}-macro` must precede a #define"
  | unknownElement name => s!"unknown element <{name}> in <suppress>"
  | entryWithoutId => "<suppress> without <id>"
  | invalidEntryId id => s!"invalid suppression id `{id}`"
  | invalidEntryLine line => s!"invalid lineNumber `{line}`"
  | entryLineWithoutFile => "<lineNumber> requires <fileName>"
  | malformedDocument problem => s!"malformed suppression file: {problem}"
  | unreadable problem => s!"failed to read suppression file: {problem}"

/-- A suppression that was dropped, and where it was declared. -/
structure Fault where
  origin : Origin
  cause : Cause
  deriving DecidableEq, Repr

/-- The finding that reports a dropped suppression. -/
def Fault.toFinding (f : Fault) : Finding where
  id := "invalidSuppression"
  severity := .error
  location := f.origin.location
  message := f.cause.message

/-- What a source of suppressions gives: rules, and faults for what is dropped. -/
structure Declared where
  rules : List Rule := []
  faults : List Fault := []
  deriving DecidableEq, Repr

/-- What two sources give one after the other. -/
def Declared.append (a b : Declared) : Declared := ⟨a.rules ++ b.rules, a.faults ++ b.faults⟩

end MacroSweep.Suppression
