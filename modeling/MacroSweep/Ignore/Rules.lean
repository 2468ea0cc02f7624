import MacroSweep.Ignore.Pattern
import MacroSweep.Text.Lines

/-! Ignore files: which paths below their directory are left out. -/
namespace MacroSweep.Ignore

open Text

/-- A line of an ignore file: what it matches, whether directories only, and whether it takes files
back in. -/
structure Rule where
  pattern : Pattern
  isDirectoryOnly : Bool
  isWhitelist : Bool

/-- Drops the blanks that end a line, unless a backslash keeps the last. -/
def trimLine (line : List Char) : List Char :=
  if line.reverse.take 2 = [' ', '\\'] then line else trimEnd line

/-- Cuts off the slash that ends a pattern, with a backslash before it. -/
def cutSlash (line : List Char) : List Char × Bool :=
  if line.getLast? = some '/' then
    let line := line.dropLast
    (if line.getLast? = some '\\' then line.dropLast else line, true)
  else (line, false)

/-- A pattern without a slash matches in every directory, and one that ends in two stars matches
what is below a directory. -/
def widen (anchored : Bool) (pattern : List Char) : List Char :=
  let pattern :=
    if anchored ∨ '/' ∈ pattern ∨ pattern = ['*', '*'] then pattern
    else '*' :: '*' :: '/' :: pattern
  if pattern.reverse.take 3 = ['*', '*', '/'] then pattern ++ ['/', '*'] else pattern

/-- Reads the pattern of a line. A line that is no pattern is left out. -/
def ruleOfPattern? (isWhitelist anchored : Bool) (line : List Char) : Option Rule := do
  let (line, isDirectoryOnly) := cutSlash line
  let pattern ← Pattern.ofChars? (widen anchored line)
  return { pattern, isDirectoryOnly, isWhitelist }

/-- Reads a line. A number sign opens a comment, an exclamation mark takes files back in, and a
slash ties a pattern to its directory. -/
def rule? (line : List Char) : Option Rule :=
  match trimLine line with
  | [] => none
  | '#' :: _ => none
  | '\\' :: '!' :: rest => ruleOfPattern? false false ('!' :: rest)
  | '\\' :: '#' :: rest => ruleOfPattern? false false ('#' :: rest)
  | '!' :: '/' :: rest => ruleOfPattern? true true rest
  | '!' :: rest => ruleOfPattern? true false rest
  | '/' :: rest => ruleOfPattern? false true rest
  | rest => ruleOfPattern? false false rest

/-- The lines of an ignore file up to the first that is no text. -/
def textLines (bytes : List UInt8) : List (List Char) :=
  let all := Text.pieces bytes
  let valid := (all.takeWhile Option.isSome).filterMap id
  if valid.length = all.length then lines valid
  else lines (dropEndWhile (· != '\n') valid)

/-- The rules of an ignore file. -/
def rules (bytes : List UInt8) : List Rule :=
  let all := match textLines bytes with
    | first :: rest => first.dropWhile (· == '\uFEFF') :: rest
    | [] => []
  all.filterMap rule?

/-- What rules say of a path below their directory: the last that matches decides whether it is
ignored. -/
def verdict? (rules : List Rule) (path : List Char) (isDirectory : Bool) : Option Bool :=
  let text := byteChars path
  (rules.reverse.find? fun r =>
    (isDirectory || !r.isDirectoryOnly) && r.pattern.isMatch text).map (!·.isWhitelist)

end MacroSweep.Ignore
