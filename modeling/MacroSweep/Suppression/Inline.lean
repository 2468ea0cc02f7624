import MacroSweep.Ordered.Map
import MacroSweep.Source.Directive
import MacroSweep.Suppression.Marker

/-! Suppressions and remarks that the comments of a source file declare. -/
namespace MacroSweep.Suppression

open Source Text

/-- What the comments of a file declare. -/
structure InlineScan where
  rules : List Rule := []
  remarks : SortedMap Nat String := ∅
  faults : List Fault := []

/-- A begin marker that waits for its end: its line and symbol filter. -/
abbrev OpenBlock := Nat × Option String

/-- What is declared so far, and what still waits for code or for an end marker. -/
structure InlineState where
  scan : InlineScan := {}
  /-- Markers that wait for a line of code, with their lines. -/
  waiting : List (Nat × Marker) := []
  /-- The remark that waits for a line of code. -/
  remark : Option String := none
  /-- Open blocks by identifier, the innermost first. -/
  blocks : SortedMap String (List OpenBlock) := ∅

/-- The word that opens a remark. -/
def remarkWord : List Char := "REMARK:".toList

/-- The rules of a marker on line `line`. A rule about a macro holds in every file. -/
def Marker.rules (path : Path) (line : Nat) (scope : Scope) (lines : LineSelector) (m : Marker) :
    List Rule :=
  let file := match scope with
    | .expansion _ => none
    | _ => some path.text
  m.ids.map fun id => { id, file, lines, symbol := m.symbol, scope, origin := .inline path line }

/-- The macro that the next line of code defines, which may be the line itself. -/
def definedNext? (line : Line) (after : List Line) : Option String := do
  let next ← if line.hasCode then some line else after.find? Line.hasCode
  let d ← (directives [next]).getLast?
  if d.keyword = "define" then leadingIdentifier? d.rest else none

namespace InlineState

def addRules (s : InlineState) (rules : List Rule) : InlineState :=
  { s with scan := { s.scan with rules := s.scan.rules ++ rules } }

def addFault (path : Path) (line : Nat) (cause : Cause) (s : InlineState) : InlineState :=
  { s with scan := { s.scan with faults := s.scan.faults ++ [⟨.inline path line, cause⟩] } }

/-- Opens a block for an identifier. -/
def openBlock (line : Nat) (symbol : Option String) (s : InlineState) (id : String) :
    InlineState :=
  { s with blocks := s.blocks.insert id ((line, symbol) :: (s.blocks.find? id).getD []) }

/-- Closes the innermost block of an identifier. -/
def closeBlock (path : Path) (line : Nat) (s : InlineState) (id : String) : InlineState :=
  match (s.blocks.find? id).getD [] with
  | [] => s.addFault path line (.endWithoutBegin id)
  | (first, symbol) :: outer =>
    let marker : Marker := ⟨.opening, [id], symbol⟩
    { s with blocks := s.blocks.insert id outer }.addRules
      (marker.rules path first (.block first line) .any)

/-- Takes up a marker on a line. A line marker that trails a lone opening brace covers the next
line too. -/
def addMarker (path : Path) (line : Line) (trailing : Bool) (after : List Line) (s : InlineState)
    (m : Marker) : InlineState :=
  let n := line.number
  match m.kind with
  | .line =>
    if trailing then
      let lines := if trim line.code = ['\x7b'] then LineSelector.range n (n + 1) else .single n
      s.addRules (m.rules path n .line lines)
    else { s with waiting := s.waiting ++ [(n, m)] }
  | .file => s.addRules (m.rules path n .file .any)
  | .opening => m.ids.foldl (openBlock n m.symbol) s
  | .closing => m.ids.foldl (closeBlock path n) s
  | .expansion =>
    match definedNext? line after with
    | some name => s.addRules (m.rules path n (.expansion name) .any)
    | none => s.addFault path n .expansionWithoutDefine

/-- Takes up a comment: a remark, a marker, or neither. -/
def addComment (path : Path) (line : Line) (after : List Line) (s : InlineState) (c : Comment) :
    InlineState :=
  match dropStart? remarkWord c.text with
  | some text =>
    let text := String.ofList (trim text)
    if c.trailing then
      { s with scan := { s.scan with remarks := s.scan.remarks.insert line.number text } }
    else { s with remark := some text }
  | none =>
    match parseMarker c.text with
    | none => s
    | some (.error fault) => s.addFault path line.number (.malformedMarker fault)
    | some (.ok m) => s.addMarker path line c.trailing after m

/-- Lets what waits for code take line `n`, which holds some. A remark stays behind one that
trails the line. -/
def meetCode (path : Path) (n : Nat) (s : InlineState) : InlineState :=
  let rules := s.waiting.flatMap fun (line, m) => m.rules path line .line (.single n)
  let remarks := match s.remark with
    | some text =>
      if s.scan.remarks.contains n then s.scan.remarks else s.scan.remarks.insert n text
    | none => s.scan.remarks
  { s with
    scan := { s.scan with rules := s.scan.rules ++ rules, remarks }
    waiting := []
    remark := none }

/-- Takes up a line and the lines after it. -/
def addLines (path : Path) (s : InlineState) : List Line → InlineState
  | [] => s
  | line :: after =>
    let s := line.comments.foldl (addComment path line after) s
    addLines path (if line.hasCode then s.meetCode path line.number else s) after

/-- Reports what still waits at the end of the file: markers first, then blocks by identifier,
each identifier's outermost first. -/
def finish (path : Path) (s : InlineState) : InlineScan :=
  let s := s.waiting.foldl (fun s (n, _) => s.addFault path n .markerWithoutCode) s
  let blocks := s.blocks.toList.flatMap fun (id, blocks) => blocks.reverse.map fun (n, _) => (n, id)
  (blocks.foldl (fun s (n, id) => s.addFault path n (.beginWithoutEnd id)) s).scan

end InlineState

/-- What the comments of a file declare. -/
def scanInline (path : Path) (content : List Char) : InlineScan :=
  (InlineState.addLines path {} (sourceLines content)).finish path

end MacroSweep.Suppression
