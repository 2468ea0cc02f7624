import MacroSweep.Text.Lines
import MacroSweep.Text.Numeral
import MacroSweep.Toml.Value

/-! Values written without quotes or brackets: booleans, numbers, dates and times. -/
namespace MacroSweep.Toml

open Text

/-- The characters that such values are made of. -/
def isScalarChar (c : Char) : Bool := c.isAlphanum || "_+-.:".toList.contains c

/-- Reads digits that single underscores may group. -/
def ungroup? (isDigit : Char → Bool) : List Char → Option (List Char)
  | [] => none
  | [c] => if isDigit c then some [c] else none
  | c :: '_' :: cs => if isDigit c then (ungroup? isDigit cs).map (c :: ·) else none
  | c :: cs => if isDigit c then (ungroup? isDigit cs).map (c :: ·) else none

/-- Reads a decimal numeral, in which only zero itself starts with zero. -/
def decimal? (cs : List Char) : Option Nat := do
  let digits ← ungroup? Char.isDigit cs
  if digits.length ≠ 1 ∧ digits.head? = some '0' then none
  else (readDigits 10 (Nat.pow 10 digits.length) digits).toOption

/-- The number of integers below zero, and of those from zero on. -/
def halfRange : Nat := Nat.pow 2 63

/-- Reads digits of a radix other than ten. -/
def radixInteger? (radix : Nat) (cs : List Char) : Option Int := do
  let digits ← ungroup? (fun c => (digitValue? radix c).isSome) cs
  let n ← (readDigits radix halfRange digits).toOption
  return n

def integer? : List Char → Option Int
  | '0' :: 'x' :: cs => radixInteger? 16 cs
  | '0' :: 'o' :: cs => radixInteger? 8 cs
  | '0' :: 'b' :: cs => radixInteger? 2 cs
  | '-' :: cs => (decimal? cs).bind fun n => if n ≤ halfRange then some (-(n : Int)) else none
  | '+' :: cs => (decimal? cs).bind fun n => if n < halfRange then some (n : Int) else none
  | cs => (decimal? cs).bind fun n => if n < halfRange then some (n : Int) else none

/-- The sign that opens a number, and what follows it. -/
def splitSign : List Char → Bool × List Char
  | '-' :: cs => (true, cs)
  | '+' :: cs => (false, cs)
  | cs => (false, cs)

/-- Reads an exponent. -/
def exponent? (cs : List Char) : Option Int := do
  let (negative, digits) := splitSign cs
  let digits ← ungroup? Char.isDigit digits
  let n ← (readDigits 10 (Nat.pow 10 digits.length) digits).toOption
  return if negative then -(n : Int) else n

/-- Whether `mantissa * 10 ^ exponent` is beyond the range of 64-bit floats: at least half a step
above the greatest of them. -/
def isBeyondFloats (mantissa : Nat) (exponent : Int) : Bool :=
  let size := (Nat.toDigits 10 mantissa).length
  if mantissa = 0 ∨ exponent + size < 300 then false
  else if 320 < exponent + size then true
  else
    let limit := Nat.pow 2 1024 - Nat.pow 2 970
    if 0 ≤ exponent then limit ≤ mantissa * Nat.pow 10 exponent.toNat
    else limit * Nat.pow 10 (-exponent).toNat ≤ mantissa

/-- The digits and the exponent of a float without sign, which has a fraction or an exponent. -/
def floatParts? (cs : List Char) : Option (Nat × Int) := do
  let isMark (c : Char) : Bool := c == 'e' || c == 'E'
  let (body, exponent, marked) ← match cutAt? isMark cs with
    | some (body, digits) => (exponent? digits).map fun e => (body, e, true)
    | none => some (cs, 0, false)
  match cutAt? (· == '.') body with
  | some (whole, fraction) =>
    let digits ← ungroup? Char.isDigit fraction
    let low ← (readDigits 10 (Nat.pow 10 digits.length) digits).toOption
    return ((← decimal? whole) * Nat.pow 10 digits.length + low, exponent - digits.length)
  | none => if marked then return (← decimal? body, exponent) else none

/-- Whether a word is a float. A positive one beyond the range of floats is none. -/
def isFloat (cs : List Char) : Bool :=
  let (negative, cs) := splitSign cs
  cs == "inf".toList || cs == "nan".toList ||
    match floatParts? cs with
    | some (mantissa, exponent) => negative || !isBeyondFloats mantissa exponent
    | none => false

/-- Reads two digits whose value lies in a range. -/
def twoDigits? (low high : Nat) : List Char → Option (Nat × List Char)
  | a :: b :: rest => do
    let n ← (readDigits 10 100 [a, b]).toOption
    if low ≤ n ∧ n ≤ high then some (n, rest) else none
  | _ => none

/-- The number of days of a month. -/
def daysIn (year month : Nat) : Nat :=
  if month = 2 then
    if year % 4 = 0 ∧ (year % 100 ≠ 0 ∨ year % 400 = 0) then 29 else 28
  else if month = 4 ∨ month = 6 ∨ month = 9 ∨ month = 11 then 30
  else 31

/-- What follows the date that opens a word. -/
def afterDate? : List Char → Option (List Char)
  | a :: b :: c :: d :: '-' :: cs => do
    let year ← (readDigits 10 10000 [a, b, c, d]).toOption
    let (month, cs) ← twoDigits? 1 12 cs
    let cs ← dropStart? ['-'] cs
    let (_, cs) ← twoDigits? 1 (daysIn year month) cs
    return cs
  | _ => none

/-- What follows the fraction of a second, if there is one. -/
def afterFraction? : List Char → Option (List Char)
  | '.' :: cs =>
    if (cs.takeWhile Char.isDigit).isEmpty then none else some (cs.dropWhile Char.isDigit)
  | cs => some cs

/-- What follows the time that opens a word. -/
def afterTime? (cs : List Char) : Option (List Char) := do
  let (_, cs) ← twoDigits? 0 23 cs
  let cs ← dropStart? [':'] cs
  let (_, cs) ← twoDigits? 0 59 cs
  let cs ← dropStart? [':'] cs
  let (_, cs) ← twoDigits? 0 60 cs
  afterFraction? cs

/-- Whether a text is an offset from universal time, or empty. -/
def isOffset : List Char → Bool
  | [] => true
  | ['Z'] => true
  | ['z'] => true
  | c :: cs =>
    (c == '+' || c == '-') &&
      match twoDigits? 0 23 cs with
      | some (_, ':' :: cs) => (twoDigits? 0 59 cs).any (·.2.isEmpty)
      | _ => false

/-- Whether a word is a date, a time, or both. -/
def isDatetime (cs : List Char) : Bool :=
  match afterDate? cs with
  | some [] => true
  | some (c :: rest) => (c == 'T' || c == 't') && (afterTime? rest).any isOffset
  | none => afterTime? cs == some []

/-- The value of a word. -/
def scalar? (cs : List Char) : Option Value :=
  if cs == "true".toList then some (.boolean true)
  else if cs == "false".toList then some (.boolean false)
  else if isDatetime cs then some .datetime
  else if isFloat cs then some .float
  else (integer? cs).map .integer

/-- Reads a word and its value. A date and a time may have a space between them. -/
def splitScalar (cs : List Char) : List Char × List Char :=
  let word := cs.takeWhile isScalarChar
  match afterDate? word, cs.dropWhile isScalarChar with
  | some [], ' ' :: c :: rest =>
    if c.isDigit then
      (word ++ 'T' :: (c :: rest).takeWhile isScalarChar, (c :: rest).dropWhile isScalarChar)
    else (word, ' ' :: c :: rest)
  | _, rest => (word, rest)

end MacroSweep.Toml
