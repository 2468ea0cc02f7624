import MacroSweep.Markup.Event
import MacroSweep.Path.Normal
import MacroSweep.Suppression.Fault

/-! Suppressions in markup documents: each `suppress` element directly below the root is an entry,
whose child elements give its fields. A document that is not well-formed declares nothing. -/
namespace MacroSweep.Suppression

open Markup Text

/-- The fields of an entry. -/
inductive Field where
  | id
  | file
  | lines
  | symbol
  deriving DecidableEq, Repr

/-- The field an element gives. -/
def Field.ofName? : String → Option Field
  | "id" => some id
  | "fileName" => some file
  | "lineNumber" => some lines
  | "symbolName" => some symbol
  | _ => none

/-- An entry as read: the texts of its fields, and the first element in it that is no field. -/
structure Entry where
  line : Nat
  id : Option (List Char) := none
  file : Option (List Char) := none
  lines : Option (List Char) := none
  symbol : Option (List Char) := none
  unknown : Option String := none
  deriving DecidableEq, Repr

def Entry.set (e : Entry) (field : Field) (value : List Char) : Entry :=
  match field with
  | .id => { e with id := some value }
  | .file => { e with file := some value }
  | .lines => { e with lines := some value }
  | .symbol => { e with symbol := some value }

/-- Why a document declares nothing. -/
inductive DocumentError where
  | markup (error : MarkupError)
  | reference (error : ReferenceError)
  | mismatchedEnd
  | unfinished
  deriving DecidableEq, Repr

def DocumentError.message : DocumentError → String
  | markup error => error.message
  | reference error => error.message
  | mismatchedEnd => "mismatched closing tag"
  | unfinished => "unexpected end of document"

/-- The state between events: the open elements, innermost first, the entry and field being read,
and the entries read. -/
structure EntryState where
  opened : List String := []
  current : Option Entry := none
  field : Option Field := none
  entries : List Entry := []
  deriving DecidableEq, Repr

namespace EntryState

/-- Enters an element: an entry at depth one, a field inside an entry, or something else. -/
def enter (s : EntryState) (name : String) (line : Nat) : EntryState :=
  let s := match s.opened.length, s.current with
    | 1, none => if name = "suppress" then { s with current := some { line } } else s
    | 2, some entry =>
      let field := Field.ofName? name
      let unknown := if field = none ∧ entry.unknown = none then some name else entry.unknown
      { s with field, current := some { entry with unknown } }
    | _, _ => s
  { s with opened := name :: s.opened }

/-- Leaves an element, which must be the innermost one. -/
def leave (s : EntryState) (name : String) : Option EntryState :=
  match s.opened with
  | [] => none
  | inner :: opened =>
    if inner ≠ name then none
    else
      let s := { s with opened }
      match opened.length with
      | 1 => some { s with current := none, entries := s.entries ++ s.current.toList }
      | 2 => some { s with field := none }
      | _ => some s

/-- Takes an element without content, which is an entry at depth one. -/
def pass (s : EntryState) (name : String) (line : Nat) : EntryState :=
  if s.opened.length = 1 ∧ name = "suppress" then { s with entries := s.entries ++ [{ line }] }
  else s

/-- Gives the field being read its text; a later text of a field replaces an earlier one. -/
def setText (s : EntryState) (value : List Char) : EntryState :=
  match s.current, s.field with
  | some entry, some field => { s with current := some (entry.set field value) }
  | _, _ => s

/-- Takes an event on a line. -/
def step (s : EntryState) (event : Event) (line : Nat) : Except DocumentError EntryState :=
  match event with
  | .opening name => .ok (s.enter name line)
  | .empty name => .ok (s.pass name line)
  | .closing name =>
    match s.leave name with
    | some s => .ok s
    | none => .error .mismatchedEnd
  | .text raw =>
    match unescape raw with
    | .ok value => .ok (s.setText (trim value))
    | .error error => .error (.reference error)

/-- Takes events in order; an error comes with its line. -/
def run (s : EntryState) : List (Event × Nat) → Except (Nat × DocumentError) EntryState
  | [] => .ok s
  | (event, line) :: events =>
    match s.step event line with
    | .ok s => s.run events
    | .error error => .error (line, error)

end EntryState

/-- The entries of events on lines. After the events the document ends, or reading it fails, on line
`line`. -/
def readEntries (events : List (Event × Nat)) (ending : Ending) (line : Nat) :
    Except (Nat × DocumentError) (List Entry) := do
  let s ← EntryState.run {} events
  match ending with
  | .failed error => throw (line, .markup error)
  | .done => if s.opened.isEmpty then return s.entries else throw (line, .unfinished)

/-- The rule of an entry. -/
def Entry.toRule (e : Entry) (origin : Origin) : Except Cause Rule := do
  if let some name := e.unknown then throw (.unknownElement name)
  let some id := e.id | throw .entryWithoutId
  if !isValidId id then throw (.invalidEntryId (String.ofList id))
  let nonEmpty (value : Option (List Char)) : Option String :=
    (value.filter (!·.isEmpty)).map String.ofList
  let file := (nonEmpty e.file).map Path.normalText
  let lines ← match e.lines with
    | none => pure LineSelector.any
    | some text =>
      match LineSelector.parse? text with
      | none => throw (.invalidEntryLine (String.ofList text))
      | some lines =>
        if file = none ∧ lines ≠ .any then throw .entryLineWithoutFile else pure lines
  return { id := String.ofList id, file, lines, symbol := nonEmpty e.symbol, origin }

/-- What one entry declares: a rule or a fault. -/
def Declared.ofEntry (path : Path) (e : Entry) : Declared :=
  let origin := Origin.listed path e.line
  match e.toRule origin with
  | .ok rule => { rules := [rule] }
  | .error cause => { faults := [⟨origin, cause⟩] }

/-- What the events of a document declare. -/
def Declared.ofEvents (path : Path) (events : List (Event × Nat)) (ending : Ending) (line : Nat) :
    Declared :=
  match readEntries events ending line with
  | .ok entries => (entries.map (Declared.ofEntry path)).foldl Declared.append {}
  | .error (line, error) =>
    { faults := [⟨.listed path line, .malformedDocument error.message⟩] }

/-- What a document declares. -/
def Declared.ofDocument (path : Path) (content : List Char) : Declared :=
  let stream := Markup.read content
  let events := stream.events.map fun (event, position) => (event, lineAt content position)
  .ofEvents path events stream.ending (lineAt content stream.position)

end MacroSweep.Suppression
