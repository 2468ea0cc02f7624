import MacroSweep.Configuration.Basic
import MacroSweep.Text.Lines
import MacroSweep.Text.Word

/-! Macros whose state is given from outside and holds in every configuration. -/
namespace MacroSweep

open Text

namespace Configuration

/-- A definition or undefinition from outside that names no macro. -/
inductive Error where
  | invalidDefine (entry : String)
  | invalidUndefine (name : String)
  deriving DecidableEq, Repr

def Error.message : Error → String
  | invalidDefine entry => s!"invalid define `{entry}`: expected NAME or NAME=VALUE"
  | invalidUndefine name => s!"invalid undefine `{name}`: expected a macro name"

/-- The finding that reports the error of a whole run. -/
def Error.toFinding (e : Error) : Finding where
  id := "configurationError"
  severity := .error
  location := .nowhere
  message := e.message

end Configuration

/-- The macros that are defined or undefined from outside, and the entries that were dropped. -/
structure ForcedMacros where
  defines : SortedMap String String := ∅
  undefines : SortedSet String := ∅
  errors : List Configuration.Error := []

namespace ForcedMacros

/-- The entries of one text of definitions. -/
def entries (text : String) : List (List Char) :=
  ((splitOn ';' text.toList).map trim).filter (!·.isEmpty)

/-- The name and value of an entry; a name alone has the value one. -/
def readEntry (entry : List Char) : List Char × List Char :=
  match cutAt? (· == '=') entry with
  | some (name, value) => (trim name, trim value)
  | none => (entry, ['1'])

/-- Adds an entry; of two for one name the later holds. -/
def define (forced : ForcedMacros) (entry : List Char) : ForcedMacros :=
  let (name, value) := readEntry entry
  if isIdentifier name then
    { forced with defines := forced.defines.insert (String.ofList name) (String.ofList value) }
  else { forced with errors := forced.errors ++ [.invalidDefine (String.ofList entry)] }

/-- Undefines a macro, also one that is defined. -/
def undefine (forced : ForcedMacros) (text : String) : ForcedMacros :=
  let name := trim text.toList
  if isIdentifier name then
    { forced with
      defines := forced.defines.erase (String.ofList name)
      undefines := forced.undefines.insert (String.ofList name) }
  else { forced with errors := forced.errors ++ [.invalidUndefine (String.ofList name)] }

/-- Reads texts of definitions and then of undefinitions, which win. -/
def parse (defines undefines : List String) : ForcedMacros :=
  undefines.foldl undefine ((defines.flatMap entries).foldl define {})

def hasDefines (forced : ForcedMacros) : Bool := !forced.defines.isEmpty

/-- Whether the state of a macro is given. -/
def isForced (forced : ForcedMacros) (name : String) : Bool :=
  forced.defines.contains name || forced.undefines.contains name

end ForcedMacros

end MacroSweep
