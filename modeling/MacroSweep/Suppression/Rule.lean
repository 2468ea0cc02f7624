import MacroSweep.Finding.Basic
import MacroSweep.Glob
import MacroSweep.Text.Numeral

/-! Suppression rules and the findings they cover. -/
namespace MacroSweep.Suppression

open Text

/-- The lines a rule covers. -/
inductive LineSelector where
  | any
  | single (line : Nat)
  | range (first last : Nat)
  deriving DecidableEq, Repr

namespace LineSelector

/-- Reads `N`, `N-M` with `N ≤ M`, or `*`. -/
def parse? (text : List Char) : Option LineSelector :=
  let text := trim text
  if text = ['*'] then some any
  else
    match cutAt? (· == '-') text with
    | some (first, last) => do
      let first ← word? (trim first)
      let last ← word? (trim last)
      if first ≤ last then some (range first last) else none
    | none => (word? text).map single

def contains (s : LineSelector) (line : Nat) : Bool :=
  match s with
  | any => true
  | single n => n == line
  | range first last => first ≤ line && line ≤ last

end LineSelector

/-- Where a rule applies. -/
inductive Scope where
  /-- Wherever its file and lines say. -/
  | global
  /-- In the whole of its file. -/
  | file
  /-- On its lines. -/
  | line
  /-- From one marker to another, both lines included. -/
  | block (first last : Nat)
  /-- Where a macro was expanded. -/
  | expansion (name : String)
  deriving DecidableEq, Repr

/-- Where a rule was declared. -/
inductive Origin where
  | commandLine
  | listed (file : Path) (line : Nat)
  | inline (file : Path) (line : Nat)
  deriving DecidableEq, Repr

/-- Where to report on a declaration. -/
def Origin.location : Origin → Location
  | commandLine => .nowhere
  | listed file line => ⟨file, line, 0⟩
  | inline file line => ⟨file, line, 0⟩

/-- A suppression: patterns that a finding has to match, and a scope it has to lie in. -/
structure Rule where
  id : String
  file : Option String := none
  lines : LineSelector := .any
  symbol : Option String := none
  scope : Scope := .global
  origin : Origin
  deriving DecidableEq, Repr

/-- Whether an identifier pattern is made of the characters allowed in one. -/
def isValidId (id : List Char) : Bool :=
  !id.isEmpty && id.all fun c =>
    c.isAlphanum || c == '_' || c == '-' || c == '.' || c == '*' || c == '?'

namespace Rule

def isInline (r : Rule) : Bool :=
  match r.origin with
  | .inline _ _ => true
  | _ => false

/-- Whether a finding's symbol passes the rule's symbol pattern. -/
def coversSymbol (r : Rule) (symbol : Option String) : Bool :=
  match r.symbol, symbol with
  | none, _ => true
  | some pattern, some name => Glob.isMatch pattern name
  | some _, none => false

/-- Whether a path text passes the rule's file pattern. -/
def coversFile (r : Rule) (file : Path) : Bool :=
  match r.file with
  | none => true
  | some pattern => Glob.isMatch pattern file.text

/-- Whether a finding lies in the rule's scope. -/
def coversPlace (r : Rule) (f : Finding) : Bool :=
  match r.scope with
  | .global => r.lines.contains f.location.line
  | .line => r.lines.contains f.location.line
  | .file => true
  | .block first last => first ≤ f.location.line && f.location.line ≤ last
  | .expansion name => f.macroExpansion == some name

/-- Whether the rule suppresses a finding. -/
def covers (r : Rule) (f : Finding) : Bool :=
  Glob.isMatch r.id f.id && r.coversSymbol f.symbol && r.coversFile f.location.file &&
    r.coversPlace f

/-- The rule as `id[:file[:line]]`. -/
def describe (r : Rule) : String :=
  match r.file with
  | none => r.id
  | some file =>
    let lines := match r.lines with
      | .any => ""
      | .single n => s!":{n}"
      | .range first last => s!":{first}-{last}"
    s!"{r.id}:{file}{lines}"

end Rule

end MacroSweep.Suppression
