import MacroSweep.Ordered.Set
import MacroSweep.Source.Line
import MacroSweep.Source.Names

/-! Preprocessor directives of a file, and what they say about macros and included files. -/
namespace MacroSweep.Source

open Text

/-- A directive: the line it starts on, its keyword, and the text after the keyword with
continuation lines joined. -/
structure Directive where
  line : Nat
  keyword : String
  rest : List Char
  deriving DecidableEq, Repr

/-- Joins the lines that a final backslash continues to, and returns the lines after them. -/
def joinContinued : List Char → List Line → List Char × List Line
  | text, [] => (if text.getLast? = some '\\' then text.dropLast else text, [])
  | text, l :: ls =>
    if text.getLast? = some '\\' then joinContinued (text.dropLast ++ ' ' :: trim l.code) ls
    else (text, l :: ls)

theorem length_joinContinued_le (text : List Char) (ls : List Line) :
    (joinContinued text ls).2.length ≤ ls.length := by
  induction ls generalizing text with
  | nil => simp [joinContinued]
  | cons l ls ih =>
    unfold joinContinued
    split
    · exact Nat.le_succ_of_le (ih _)
    · exact Nat.le_refl _

/-- The directive on line `line` with the given text after its number sign. -/
def Directive.ofText (line : Nat) (text : List Char) : Directive :=
  let (word, rest) := splitWord (trimStart text)
  ⟨line, String.ofList word, trim rest⟩

/-- The directives among lines of code. -/
def directives (ls : List Line) : List Directive :=
  match ls with
  | [] => []
  | l :: ls =>
    match trimStart l.code with
    | '#' :: body =>
      .ofText l.number (joinContinued (trim body) ls).1 ::
        directives (joinContinued (trim body) ls).2
    | _ => directives ls
termination_by ls.length
decreasing_by
  · exact Nat.lt_succ_of_le (length_joinContinued_le _ _)
  · simp

/-- An include directive: its line, the file it names, and whether in angle brackets. -/
structure Include where
  line : Nat
  target : String
  system : Bool
  deriving DecidableEq, Repr

/-- Reads the file that an include directive names. -/
def includeTarget? : List Char → Option (String × Bool)
  | '"' :: cs => (cutAt? (· == '"') cs).map fun (name, _) => (String.ofList name, false)
  | '<' :: cs => (cutAt? (· == '>') cs).map fun (name, _) => (String.ofList name, true)
  | _ => none

/-- What the directives of a file mention: the names its conditions ask about, the names it
defines, and the files it includes. -/
structure Mentions where
  conditionals : SortedSet String
  defines : SortedSet String
  includes : List Include
  deriving DecidableEq

/-- Adds one directive to what a file mentions. -/
def Mentions.add (m : Mentions) (d : Directive) : Mentions :=
  match d.keyword with
  | "if" | "elif" => { m with conditionals := m.conditionals.insertAll (conditionNames d.rest) }
  | "ifdef" | "ifndef" =>
    match leadingIdentifier? d.rest with
    | some name => { m with conditionals := m.conditionals.insert name }
    | none => m
  | "define" =>
    match leadingIdentifier? d.rest with
    | some name => { m with defines := m.defines.insert name }
    | none => m
  | "include" =>
    match includeTarget? d.rest with
    | some (target, system) => { m with includes := m.includes ++ [⟨d.line, target, system⟩] }
    | none => m
  | _ => m

/-- What the directives of a text mention. -/
def mentions (content : List Char) : Mentions :=
  (directives (sourceLines content)).foldl Mentions.add ⟨∅, ∅, []⟩

end MacroSweep.Source
