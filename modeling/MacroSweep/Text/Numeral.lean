/-! Numerals of a fixed radix, read from the left into a bounded value. -/
namespace MacroSweep.Text

/-- The number of values of a 64-bit word. -/
def wordSize : Nat := Nat.pow 2 64

/-- Why a text is no numeral. -/
inductive NumeralError where
  | empty
  | invalidDigit
  | overflow
  deriving DecidableEq, Repr

/-- The value of a digit, with letters of either case after nine. -/
def digitValue? (radix : Nat) (c : Char) : Option Nat :=
  let v :=
    if '0' ≤ c ∧ c ≤ '9' then c.toNat - '0'.toNat
    else if 'a' ≤ c ∧ c ≤ 'z' then c.toNat - 'a'.toNat + 10
    else if 'A' ≤ c ∧ c ≤ 'Z' then c.toNat - 'A'.toNat + 10
    else radix
  if v < radix then some v else none

/-- Adds digits to a value below `bound`; of two faults the leftmost is reported. -/
def addDigits (radix bound : Nat) : Nat → List Char → Except NumeralError Nat
  | n, [] => .ok n
  | n, c :: cs =>
    match digitValue? radix c with
    | none => .error .invalidDigit
    | some d => if n * radix + d < bound then addDigits radix bound (n * radix + d) cs
      else .error .overflow

/-- Reads digits with no sign. -/
def readDigits (radix bound : Nat) : List Char → Except NumeralError Nat
  | [] => .error .empty
  | cs => addDigits radix bound 0 cs

/-- Reads a 64-bit numeral, which one plus sign may open. -/
def readWord (radix : Nat) : List Char → Except NumeralError Nat
  | '+' :: [] => .error .invalidDigit
  | '+' :: cs => readDigits radix wordSize cs
  | cs => readDigits radix wordSize cs

/-- Reads a decimal 64-bit numeral. -/
def word? (cs : List Char) : Option Nat := (readWord 10 cs).toOption

end MacroSweep.Text
