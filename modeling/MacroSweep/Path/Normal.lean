import MacroSweep.Path.Basic

/-! The one spelling of a path that patterns, keys and reports use: slashes between segments, no
empty or single-dot segment, and double dots only in front. -/
namespace MacroSweep.Path

open Text

/-- Adds a segment to those kept so far, last first. -/
def pushSegment (absolute : Bool) (kept : List (List Char)) (segment : List Char) :
    List (List Char) :=
  if segment = [] ∨ segment = ['.'] then kept
  else if segment = ['.', '.'] then
    match kept with
    | last :: more =>
      if last ≠ ['.', '.'] then more else if absolute then kept else segment :: kept
    | [] => if absolute then [] else [segment]
  else segment :: kept

/-- The segments of a simplified path. -/
def simplifySegments (absolute : Bool) (segments : List (List Char)) : List (List Char) :=
  (segments.foldl (pushSegment absolute) []).reverse

/-- Drops dots and repeated slashes, and resolves double dots against what stands before them. -/
def simplifyChars (text : List Char) : List Char :=
  let absolute := text.head? == some '/'
  let joined := joinWith '/' (simplifySegments absolute (splitOn '/' text))
  if absolute then '/' :: joined else if joined = [] then ['.'] else joined

def simplifyText (text : String) : String := String.ofList (simplifyChars text.toList)

/-- The normal spelling of a path text. -/
def normalText (text : String) : String := String.ofList (simplifyChars (slashed text.toList))

/-- The path in its normal spelling. -/
def normalize (p : Path) : Path := ⟨normalText p.text⟩

end MacroSweep.Path
