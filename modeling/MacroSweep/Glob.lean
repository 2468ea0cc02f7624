import MacroSweep.Text.Lines

/-! Glob patterns over paths and identifiers. A pattern matches a whole text; a backslash counts as
a slash on both sides. -/
namespace MacroSweep.Glob

open Text

/-- A pattern token. -/
inductive Token where
  /-- Stands for itself. -/
  | literal (c : Char)
  /-- One character other than a slash. -/
  | anyChar
  /-- Any text without a slash. -/
  | star
  /-- Any text. -/
  | globStar
  /-- Nothing, or any text that ends in a slash. -/
  | segments
  deriving DecidableEq, Repr

/-- The tokens of a pattern; `stars` counts the stars directly before. A run of two or more stars
is one token, which takes a slash after it too. -/
def tokensAfter (stars : Nat) : List Char → List Token
  | [] =>
    match stars with
    | 0 => []
    | 1 => [.star]
    | _ => [.globStar]
  | c :: cs =>
    if c = '*' then tokensAfter (stars + 1) cs
    else
      let token := if c = '?' then Token.anyChar else .literal c
      match stars with
      | 0 => token :: tokensAfter 0 cs
      | 1 => .star :: token :: tokensAfter 0 cs
      | _ => if c = '/' then .segments :: tokensAfter 0 cs
        else .globStar :: token :: tokensAfter 0 cs

/-- The tokens of a pattern. -/
def tokens (pattern : List Char) : List Token := tokensAfter 0 (slashed pattern)

/-- Positions one character of a class past a position reached. `here` says whether the first
position is one. -/
def overOne (p : Char → Bool) (here : Bool) : List Bool → List Char → List Bool
  | r :: rs, c :: cs => here :: overOne p (r && p c) rs cs
  | _, _ => [here]

/-- Positions any number of characters of a class past a position reached. -/
def overRun (p : Char → Bool) (here : Bool) : List Bool → List Char → List Bool
  | r :: rs, c :: cs => (r || here) :: overRun p ((r || here) && p c) rs cs
  | r :: _, [] => [r || here]
  | [], _ => []

/-- Positions reached, and those after a slash that have one before them. `seen` says whether some
earlier position is reached, and `slash` whether a slash stands directly before. -/
def overSegments (seen slash : Bool) : List Bool → List Char → List Bool
  | r :: rs, c :: cs => (r || seen && slash) :: overSegments (seen || r) (c == '/') rs cs
  | r :: _, [] => [r || seen && slash]
  | [], _ => []

/-- The positions of a text that a token can end at, given those it can start at. Position `i`
stands before character `i`. -/
def Token.advance (text : List Char) (reached : List Bool) : Token → List Bool
  | .literal c => overOne (· == c) false reached text
  | .anyChar => overOne (· != '/') false reached text
  | .star => overRun (· != '/') false reached text
  | .globStar => overRun (fun _ => true) false reached text
  | .segments => overSegments false false reached text

/-- Whether a pattern matches the whole of a text. -/
def matchesChars (pattern text : List Char) : Bool :=
  let text := slashed text
  let start := true :: text.map fun _ => false
  ((tokens pattern).foldl (Token.advance text) start).getLastD false

/-- Whether a pattern matches the whole of a text. -/
def isMatch (pattern text : String) : Bool := matchesChars pattern.toList text.toList

/-- Whether a pattern has a wildcard. -/
def hasWildcard (pattern : String) : Bool := pattern.toList.any fun c => c == '*' || c == '?'

end MacroSweep.Glob
