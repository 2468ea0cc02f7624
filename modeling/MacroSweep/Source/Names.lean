import MacroSweep.Text.Word

/-! Names that pieces of source text mention. -/
namespace MacroSweep.Source

open Text

/-- Drops the argument of a feature check if it is a header name or a string, which mentions no
macro. -/
def dropHeaderArgument (cs : List Char) : List Char :=
  match splitGroup? (trimStart cs) with
  | none => cs
  | some (group, rest) =>
    match (trimStart group.tail).head? with
    | some '<' => rest
    | some '"' => rest
    | _ => cs

theorem length_dropHeaderArgument_le (cs : List Char) :
    (dropHeaderArgument cs).length ≤ cs.length := by
  unfold dropHeaderArgument
  split
  · exact Nat.le_refl _
  · next group rest h =>
    have happ := congrArg List.length (append_of_splitGroup? h)
    have htrim := length_dropWhile_le isBlank cs
    simp only [List.length_append, trimStart] at happ
    split <;> omega

/-- The identifiers of a condition in order. Numbers hold none, and `defined` and the names of
feature checks are no identifiers. -/
def conditionNames (cs : List Char) : List String :=
  match cs with
  | [] => []
  | c :: cs =>
    if c.isDigit then conditionNames (cs.dropWhile isWordChar)
    else if isWordStart c then
      let name := c :: cs.takeWhile isWordChar
      let rest := cs.dropWhile isWordChar
      if "__has_".toList.isPrefixOf name then conditionNames (dropHeaderArgument rest)
      else if name = "defined".toList then conditionNames rest
      else String.ofList name :: conditionNames rest
    else conditionNames cs
termination_by cs.length
decreasing_by
  all_goals
    have := length_dropWhile_le isWordChar cs
    simp only [List.length_cons]
  · omega
  · have := length_dropHeaderArgument_le (cs.dropWhile isWordChar)
    omega
  · omega
  · omega
  · omega

end MacroSweep.Source
