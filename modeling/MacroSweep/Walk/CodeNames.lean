import MacroSweep.Text.Word

/-! The identifiers in code, outside of literals. -/
namespace MacroSweep.Walk

open Text

/-- What follows the quote that closes a literal; a backslash takes the next character with it. -/
def afterLiteral (quote : Char) : List Char → List Char
  | [] => []
  | '\\' :: _ :: cs => afterLiteral quote cs
  | c :: cs => if c = quote then cs else afterLiteral quote cs

theorem length_afterLiteral_le (quote : Char) (cs : List Char) :
    (afterLiteral quote cs).length ≤ cs.length := by
  fun_induction afterLiteral quote cs <;> simp only [List.length_cons, List.length_nil] <;> omega

/-- The identifiers of a line of code in order. Both kinds of quotes open a literal, and a number
takes the letters that follow it. -/
def codeNames (code : List Char) : List String :=
  match code with
  | [] => []
  | c :: cs =>
    if c = '"' ∨ c = '\'' then codeNames (afterLiteral c cs)
    else if isWordStart c then
      String.ofList (c :: cs.takeWhile isWordChar) :: codeNames (cs.dropWhile isWordChar)
    else if c.isDigit then codeNames (cs.dropWhile isWordChar)
    else codeNames cs
termination_by code.length
decreasing_by
  · exact Nat.lt_succ_of_le (length_afterLiteral_le _ _)
  · exact Nat.lt_succ_of_le (length_dropWhile_le _ _)
  · exact Nat.lt_succ_of_le (length_dropWhile_le _ _)
  · simp

end MacroSweep.Walk
