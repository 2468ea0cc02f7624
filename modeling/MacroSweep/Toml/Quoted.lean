import MacroSweep.Text.Left
import MacroSweep.Text.Numeral

/-! Quoted text: on one line or many, with or without escapes. -/
namespace MacroSweep.Toml

open Text

def isSpace (c : Char) : Bool := c == ' ' || c == '\t'

/-- The characters that may stand for themselves within a line. -/
def isPrintable (c : Char) : Bool := c == '\t' || (' ' ≤ c && c ≤ '~') || 0x80 ≤ c.toNat

/-- The character of a code, if it has one. -/
def charOfCode? (n : Nat) : Option Char :=
  if n.isValidChar then some (Char.ofNat n) else none

/-- Reads the code of a character in so many hexadecimal digits. -/
def readCode (digits : Nat) (cs : List Char) : Option (Char × List Char) := do
  if cs.length < digits then none
  else
    let n ← (readDigits 16 (Nat.pow 16 digits) (cs.take digits)).toOption
    return (← charOfCode? n, cs.drop digits)

theorem length_of_readCode {digits : Nat} {cs rest : List Char} {c : Char}
    (h : readCode digits cs = some (c, rest)) : rest.length ≤ cs.length := by
  unfold readCode at h
  split at h
  · cases h
  · simp only [Option.bind_eq_bind, Option.bind_eq_some_iff] at h
    obtain ⟨_, _, _, _, h⟩ := h
    cases h
    rw [List.length_drop]; omega

/-- The character of a one-letter escape. -/
def escaped? : Char → Option Char
  | 'b' => some '\x08'
  | 't' => some '\t'
  | 'n' => some '\n'
  | 'f' => some '\x0c'
  | 'r' => some '\r'
  | '"' => some '"'
  | '\\' => some '\\'
  | _ => none

/-- Reads what follows the backslash of an escape. -/
def readEscape : Reader Char
  | [] => none
  | e :: rest =>
    let digits := if e = 'u' then 4 else if e = 'U' then 8 else 0
    if digits = 0 then (escaped? e).map fun c => (c, .tail e rest)
    else
      match _h : readCode digits rest with
      | some (c, rest') => some (c, ⟨rest', Nat.lt_succ_of_le (length_of_readCode _h)⟩)
      | none => none

/-- Puts a character in front of what was read. -/
def consRead {cs : List Char} (c : Char) (l : Left cs) :
    Option (List Char × Left l.1) → Option (List Char × Left cs)
  | some (s, rest) => some (c :: s, l.next rest)
  | none => none

/-- Reads text with escapes up to its closing quote. -/
def readBasic (cs : List Char) : Option (List Char × Left cs) :=
  match cs with
  | [] => none
  | c :: rest =>
    if c = '"' then some ([], .tail c rest)
    else if c = '\\' then
      match readEscape rest with
      | some (e, ⟨after, h⟩) => consRead e ⟨after, Nat.lt_succ_of_lt h⟩ (readBasic after)
      | none => none
    else if isPrintable c then consRead c (.tail c rest) (readBasic rest)
    else none
termination_by cs.length
decreasing_by
  · exact Nat.lt_succ_of_lt h
  · exact Nat.lt_succ_self _

/-- Reads text without escapes up to its closing quote. -/
def readLiteral (cs : List Char) : Option (List Char × Left cs) :=
  match cs with
  | [] => none
  | c :: rest =>
    if c = '\'' then some ([], .tail c rest)
    else if isPrintable c then consRead c (.tail c rest) (readLiteral rest)
    else none

/-- Reads the quotes that close text of many lines. Up to two quotes before them belong to it. -/
def closing? (quote : Char) (cs : List Char) : Option (List Char × Left cs) :=
  let count := (cs.takeWhile (· == quote)).length
  if h : 3 ≤ count then
    some (List.replicate (min count 5 - 3) quote, ⟨cs.drop (min count 5), by
      have : count ≤ cs.length := (List.takeWhile_sublist (· == quote)).length_le
      rw [List.length_drop]; omega⟩)
  else none

/-- Reads the rest of a line that a backslash ends, with all blanks and line endings after it. -/
def skipLineEnd? (cs : List Char) : Option (Left cs) :=
  match _h : cs.dropWhile isSpace with
  | '\n' :: rest => some ⟨rest.dropWhile fun c => isSpace c || c == '\n', by
      have := length_dropWhile_le isSpace cs
      have := length_dropWhile_le (fun c => isSpace c || c == '\n') rest
      rw [_h, List.length_cons] at *; omega⟩
  | _ => none

/-- Reads text of many lines with escapes. -/
def readBasicLines (cs : List Char) : Option (List Char × Left cs) :=
  match closing? '"' cs with
  | some found => some found
  | none =>
    match cs with
    | [] => none
    | c :: rest =>
      if c = '\\' then
        match skipLineEnd? rest with
        | some ⟨after, h⟩ =>
          match readBasicLines after with
          | some (s, last) =>
            some (s, ⟨last.1, by have := last.2; simp only [List.length_cons]; omega⟩)
          | none => none
        | none =>
          match readEscape rest with
          | some (e, ⟨after, h⟩) => consRead e ⟨after, Nat.lt_succ_of_lt h⟩ (readBasicLines after)
          | none => none
      else if isPrintable c || c == '\n' then consRead c (.tail c rest) (readBasicLines rest)
      else none
termination_by cs.length
decreasing_by
  · exact Nat.lt_succ_of_lt h
  · exact Nat.lt_succ_of_lt h
  · exact Nat.lt_succ_self _

/-- Reads text of many lines without escapes. -/
def readLiteralLines (cs : List Char) : Option (List Char × Left cs) :=
  match closing? '\'' cs with
  | some found => some found
  | none =>
    match cs with
    | [] => none
    | c :: rest =>
      if isPrintable c || c == '\n' then consRead c (.tail c rest) (readLiteralLines rest)
      else none

/-- Drops the line ending that opens text of many lines. -/
def dropFirstNewline : List Char → List Char
  | '\n' :: rest => rest
  | cs => cs

theorem length_dropFirstNewline_le (cs : List Char) :
    (dropFirstNewline cs).length ≤ cs.length := by
  unfold dropFirstNewline
  split <;> simp

/-- Reads quoted text of many lines after its three opening quotes. -/
def readLines (body : Reader (List Char)) (cs : List Char) : Option (String × Left cs) :=
  match body (dropFirstNewline cs) with
  | some (s, rest) =>
    some (String.ofList s, ⟨rest.1, Nat.lt_of_lt_of_le rest.2 (length_dropFirstNewline_le cs)⟩)
  | none => none

/-- Reads quoted text of one line after its opening quote. -/
def readLine (body : Reader (List Char)) (cs : List Char) : Option (String × Left cs) :=
  (body cs).map fun (s, rest) => (String.ofList s, rest)

end MacroSweep.Toml
