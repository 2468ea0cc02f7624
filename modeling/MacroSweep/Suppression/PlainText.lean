import MacroSweep.Path.Normal
import MacroSweep.Suppression.Fault

/-! Rules written as `id[:file[:line]]`, on the command line or in a list with one rule a line. A
number sign or two slashes start a comment. -/
namespace MacroSweep.Suppression

open Text

/-- What stands before a comment. -/
def stripComment : List Char → List Char
  | [] => []
  | '#' :: _ => []
  | '/' :: '/' :: _ => []
  | c :: cs => c :: stripComment cs

/-- Whether the text after a file's last colon is meant as lines. -/
def looksLikeLines (tail : List Char) : Bool :=
  !tail.isEmpty && tail.all fun c => c.isDigit || c == '-' || c == '*'

/-- Splits `file[:line]`. A colon whose tail is not meant as lines belongs to the file; an error
gives the tail. -/
def splitLines (rest : List Char) : Except (List Char) (List Char × LineSelector) :=
  match cutAtLast? (· == ':') rest with
  | none => .ok (rest, .any)
  | some (file, tail) =>
    let tail := trim tail
    if looksLikeLines tail then
      match LineSelector.parse? tail with
      | some lines => .ok (trim file, lines)
      | none => .error tail
    else .ok (rest, .any)

/-- Reads one rule; a text that is blank without its comment holds none. -/
def parseRule (text : List Char) (origin : Origin) : Except Cause (Option Rule) :=
  let text := trim (stripComment text)
  let shown := String.ofList text
  if text.isEmpty then .ok none
  else
    let (id, rest?) := match cutAt? (· == ':') text with
      | some (id, rest) => (trim id, some (trim rest))
      | none => (text, none)
    if !isValidId id then .error (.invalidListedId (String.ofList id) shown)
    else
      match rest? with
      | none => .ok (some { id := String.ofList id, origin })
      | some rest =>
        match splitLines rest with
        | .error tail => .error (.invalidLine (String.ofList tail) shown)
        | .ok (file, lines) =>
          if file.isEmpty then .error (.emptyFile shown)
          else
            let file := Path.normalText (String.ofList file)
            .ok (some { id := String.ofList id, file := some file, lines, origin })

/-- What one rule text declares. -/
def Declared.ofRuleText (text : List Char) (origin : Origin) : Declared :=
  match parseRule text origin with
  | .ok rule? => { rules := rule?.toList }
  | .error cause => { faults := [⟨origin, cause⟩] }

/-- What a list of rules declares. -/
def Declared.ofList (path : Path) (content : List Char) : Declared :=
  ((lines content).zipIdx.map fun (line, i) =>
    Declared.ofRuleText line (.listed path (i + 1))).foldl Declared.append {}

end MacroSweep.Suppression
