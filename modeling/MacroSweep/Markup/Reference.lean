import MacroSweep.Text.Numeral
import MacroSweep.Text.Utf8

/-! Entity and character references in the text of a markup document. -/
namespace MacroSweep.Markup

open Text

/-- Why a reference stands for nothing. Ranges count bytes from the start of the text. -/
inductive ReferenceError where
  | unrecognized (first last : Nat) (name : String)
  | unterminated (first last : Nat)
  | sign
  | numeral (fault : NumeralError)
  | codepoint (n : Nat)
  | nul
  deriving DecidableEq, Repr

def ReferenceError.message : ReferenceError → String
  | unrecognized first last name => s!"at {first}..{last}: unrecognized entity `{name}`"
  | unterminated first last =>
    s!"Error while escaping character at range {first}..{last}: Cannot find ';' after '&'"
  | sign => "invalid character reference: unexpected number sign"
  | numeral .empty => "invalid character reference: cannot parse integer from empty string"
  | numeral .invalidDigit => "invalid character reference: invalid digit found in string"
  | numeral .overflow =>
    "invalid character reference: number too large to fit in target type"
  | codepoint n => s!"invalid character reference: `{n}` is not a valid codepoint"
  | nul => "invalid character reference: 0x0 character is not permitted in XML"

/-- Reads a code of at most 32 bits. -/
def readCode (radix : Nat) : List Char → Except ReferenceError Nat
  | '+' :: _ => .error .sign
  | '-' :: _ => .error .sign
  | cs =>
    match readDigits radix (Nat.pow 2 32) cs with
    | .ok n => .ok n
    | .error fault => .error (.numeral fault)

/-- The character of a numeric reference, whose code may be hexadecimal. -/
def numericReference (cs : List Char) : Except ReferenceError Char := do
  let n ← match cs with
    | 'x' :: digits => readCode 16 digits
    | digits => readCode 10 digits
  if n = 0 then throw .nul
  else if n.isValidChar then return Char.ofNat n
  else throw (.codepoint n)

/-- The entities every document has. -/
def entity? (name : List Char) : Option Char :=
  [("lt", '<'), ("gt", '>'), ("amp", '&'), ("apos", '\''), ("quot", '"')].lookup
    (String.ofList name)

/-- The character a reference stands for; `first` is where its name starts. -/
def resolve (first : Nat) (name : List Char) : Except ReferenceError Char :=
  match name with
  | '#' :: code => numericReference code
  | name =>
    match entity? name with
    | some c => .ok c
    | none => .error (.unrecognized first (first + byteLength name) (String.ofList name))

/-- Whether a character can end the name of a reference. -/
def endsName (c : Char) : Bool := c == '&' || c == ';'

/-- Replaces references in the rest of a text of `size` bytes. -/
def unescapeRest (size : Nat) (cs : List Char) : Except ReferenceError (List Char) :=
  match cs with
  | [] => .ok []
  | '&' :: cs =>
    let first := size - byteLength cs
    match _h : cs.dropWhile (fun c => !endsName c) with
    | ';' :: rest => do
      let c ← resolve first (cs.takeWhile (fun c => !endsName c))
      return c :: (← unescapeRest size rest)
    | _ => .error (.unterminated (first - 1) size)
  | c :: cs => (unescapeRest size cs).map (c :: ·)
termination_by cs.length
decreasing_by
  · have := (List.dropWhile_sublist (l := cs) (fun c => !endsName c)).length_le
    rw [_h] at this
    simp only [List.length_cons] at *; omega
  · simp

/-- Replaces all references in a text. -/
def unescape (text : List Char) : Except ReferenceError (List Char) :=
  unescapeRest (byteLength text) text

end MacroSweep.Markup
