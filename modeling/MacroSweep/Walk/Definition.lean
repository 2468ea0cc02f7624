import MacroSweep.Condition.Expansion
import MacroSweep.Program.Facts
import MacroSweep.Text.Lines
import MacroSweep.Walk.CodeNames

/-! Macro definitions as directives write them. -/
namespace MacroSweep.Walk

open Condition Text

/-- A macro with its name. -/
structure Definition where
  name : String
  value : MacroDef
  deriving DecidableEq

/-- Why a directive defines no macro. -/
inductive DefinitionError where
  | noName
  | openParameters (name : String)
  deriving DecidableEq, Repr

def DefinitionError.message : DefinitionError → String
  | noName => "#define without a macro name"
  | openParameters name => s!"unterminated parameter list of {name}"

/-- The names in a parameter list. -/
def readParameters (list : List Char) : List String :=
  (((splitOn ',' list).map trim).filter (!·.isEmpty)).map String.ofList

/-- Reads a definition. A parameter list stands directly after the name. -/
def Definition.parse (text : List Char) : Except DefinitionError Definition :=
  match leadingIdentifier? text with
  | none => .error .noName
  | some name =>
    match text.dropWhile isWordChar with
    | '(' :: list =>
      match cutAt? (· == ')') list with
      | some (params, body) =>
        .ok ⟨name, some (readParameters params), String.ofList (trim body)⟩
      | none => .error (.openParameters name)
    | body => .ok ⟨name, .object (String.ofList (trim body))⟩

/-- The names a definition uses: those in its body other than its own name and its parameters. -/
def Definition.uses (d : Definition) : List String :=
  (codeNames d.value.body.toList).filter fun name =>
    name != d.name && !(d.value.params.getD []).contains name && name != restName

end MacroSweep.Walk
