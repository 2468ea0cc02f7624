import MacroSweep.Suppression.Fault

/-! Suppression markers in comments: the marker word, a kind, identifiers and a symbol filter. -/
namespace MacroSweep.Suppression

open Text

/-- What a marker covers. -/
inductive MarkerKind where
  /-- The next line of code, or the line it trails. -/
  | line
  /-- All lines up to a closing marker. -/
  | opening
  | closing
  /-- The whole file. -/
  | file
  /-- All expansions of the macro defined next. -/
  | expansion
  deriving DecidableEq, Repr

/-- A well-formed marker. -/
structure Marker where
  kind : MarkerKind
  ids : List String
  symbol : Option String
  deriving DecidableEq, Repr

/-- The endings of the marker word, and the kind each gives. -/
def markerEndings : List (String × MarkerKind) :=
  [("-begin", .opening), ("-end", .closing), ("-file", .file), ("-macro", .expansion)]

/-- The kind of a marker, read from what follows the marker word. -/
def markerKind (cs : List Char) : MarkerKind × List Char :=
  match markerEndings.findSome? fun (ending, kind) =>
    (dropStart? ending.toList cs).map fun rest => (kind, rest) with
  | some found => found
  | none => (.line, cs)

/-- Whether a character ends a word of a marker. -/
def endsWord (c : Char) : Bool := isBlank c || c == ';'

/-- Splits after a word of a marker. -/
def splitMarkerWord (cs : List Char) : List Char × List Char :=
  (cs.takeWhile (fun c => !endsWord c), cs.dropWhile (fun c => !endsWord c))

/-- Reads one identifier, or several in brackets with commas between them. -/
def readIds : List Char → Except MarkerFault (List (List Char) × List Char)
  | '[' :: cs =>
    match cutAt? (· == ']') cs with
    | none => .error .unterminatedList
    | some (list, rest) => .ok ((splitOn ',' list).map trim, rest)
  | cs => .ok ([(splitMarkerWord cs).1], (splitMarkerWord cs).2)

/-- Checks identifiers; the first bad one is reported. -/
def checkIds (ids : List (List Char)) : Except MarkerFault (List String) :=
  if ids.all List.isEmpty then .error .missingIdentifier
  else
    match ids.find? (fun id => !isValidId id) with
    | some bad => .error (.invalidIdentifier (String.ofList bad))
    | none => .ok (ids.map String.ofList)

/-- The word that opens a symbol filter. -/
def symbolWord : List Char := "symbolName=".toList

theorem ne_nil_of_dropStart? {a : Char} {start cs rest : List Char}
    (h : dropStart? (a :: start) cs = some rest) : cs ≠ [] := by
  rintro rfl
  simp [dropStart?] at h

theorem length_splitMarkerWord_lt {cs : List Char} (h : (splitMarkerWord cs).1 ≠ []) :
    (splitMarkerWord cs).2.length < cs.length := by
  have happ := congrArg List.length
    (List.takeWhile_append_dropWhile (p := fun c => !endsWord c) (l := cs))
  have := List.length_pos_iff.mpr h
  simp only [splitMarkerWord, List.length_append] at *
  omega

/-- Reads symbol filters up to the end or to a commentary; the last filter stays. -/
def readSymbol (symbol : Option String) (cs : List Char) : Except MarkerFault (Option String) :=
  match trimStart cs with
  | [] => .ok symbol
  | ';' :: _ => .ok symbol
  | '/' :: '/' :: _ => .ok symbol
  | _ =>
    match _h : dropStart? symbolWord (splitMarkerWord (trimStart cs)).1 with
    | some (c :: name) =>
      readSymbol (some (String.ofList (c :: name))) (splitMarkerWord (trimStart cs)).2
    | _ => .error (.unexpectedWord (String.ofList (splitMarkerWord (trimStart cs)).1))
termination_by cs.length
decreasing_by
  exact Nat.lt_of_lt_of_le (length_splitMarkerWord_lt (ne_nil_of_dropStart? _h))
    (length_dropWhile_le isBlank cs)

/-- Reads what follows the marker word and its ending. -/
def readMarker (kind : MarkerKind) (body : List Char) : Except MarkerFault Marker := do
  let (ids, rest) ← readIds body
  let ids ← checkIds ids
  let symbol ← readSymbol none rest
  return ⟨kind, ids, symbol⟩

/-- Reads a comment as a marker, which only its first line can hold; none if it is no marker. -/
def parseMarker (comment : List Char) : Option (Except MarkerFault Marker) := do
  let rest ← dropStart? markerWord.toList (trim ((lines comment).headD []))
  let (kind, rest) := markerKind rest
  match rest with
  | [] => some (readMarker kind [])
  | c :: _ => if isBlank c || c == '[' then some (readMarker kind (trimStart rest)) else none

end MacroSweep.Suppression
