import MacroSweep.Condition.Lexer
import MacroSweep.Ordered.Map

/-! Macro expansion of conditions. Names being expanded are not expanded again, and at most
`maxDepth` of them are open at once, so expansion always ends. -/
namespace MacroSweep.Condition

/-- A macro: its replacement text, and its parameters if it takes arguments. -/
structure MacroDef where
  params : Option (List String)
  body : String
  deriving DecidableEq

/-- The macro a plain `NAME=VALUE` definition gives. -/
def MacroDef.object (body : String) : MacroDef := ⟨none, body⟩

abbrev MacroTable := SortedMap String MacroDef

/-- How many macros may be open at once. -/
def maxDepth : Nat := 64

/-- A last parameter written so takes all further arguments. -/
def ellipsis : String := "..."

/-- The name under which a body refers to the further arguments. -/
def restName : String := "__VA_ARGS__"

/-- Joins arguments with commas. -/
def joinArguments : List (List Token) → List Token
  | [] => []
  | [a] => a
  | a :: b :: as => a ++ .sign .comma :: joinArguments (b :: as)

/-- Adds a token in front of the first argument. -/
def consToken (t : Token) : List (List Token) → List (List Token)
  | [] => [[t]]
  | a :: as => (t :: a) :: as

/-- Reads arguments up to the parenthesis that closes them, and returns what follows it.
Commas split arguments only outside inner parentheses, of which `depth` are open. -/
def readArguments : Nat → List Token → Option (List (List Token) × List Token)
  | _, [] => none
  | 0, .closing :: ts => some ([[]], ts)
  | depth + 1, .closing :: ts =>
    (readArguments depth ts).map fun (args, rest) => (consToken .closing args, rest)
  | depth, .opening :: ts =>
    (readArguments (depth + 1) ts).map fun (args, rest) => (consToken .opening args, rest)
  | 0, .sign .comma :: ts =>
    (readArguments 0 ts).map fun (args, rest) => ([] :: args, rest)
  | depth, t :: ts =>
    (readArguments depth ts).map fun (args, rest) => (consToken t args, rest)

/-- The arguments of a call by parameter name. -/
abbrev Bindings := SortedMap String (List Token)

/-- Whether a parameter list ends in an ellipsis. -/
def isVariadic (params : List String) : Bool := params.getLast? == some ellipsis

/-- How many parameters have a name of their own. -/
def namedCount (params : List String) : Nat :=
  if isVariadic params then params.length - 1 else params.length

/-- The arguments a call gives: one empty argument counts as none where no parameter is named. -/
def givenArguments (named : Nat) (args : List (List Token)) : List (List Token) :=
  if named = 0 ∧ args = [[]] then [] else args

/-- The parameters with a name each take an argument, and an ellipsis takes the further ones. -/
def pairArguments (params : List String) (args : List (List Token)) :
    List (String × List Token) :=
  let named := namedCount params
  params.zip (args.take named) ++
    if isVariadic params then [(restName, joinArguments (args.drop named))] else []

/-- Pairs parameters with arguments, if their numbers agree. -/
def bindArguments (name : String) (params : List String) (args : List (List Token)) :
    Except Error Bindings :=
  let named := namedCount params
  let given := givenArguments named args
  if named = given.length ∨ (isVariadic params ∧ named ≤ given.length) then
    .ok (SortedMap.ofList (pairArguments params given))
  else .error (.argumentCount name named given.length)

/-- Reads the call of a macro with parameters; none if no argument list follows its name. -/
def readCall (name : String) (params : List String) :
    List Token → Except Error (Option (Bindings × List Token))
  | .opening :: ts =>
    match readArguments 0 ts with
    | none => .error .unexpectedEnd
    | some (args, rest) => (bindArguments name params args).map fun b => some (b, rest)
  | _ => .ok none

/-- Reads the name that `defined` asks for, with or without parentheses. -/
def readDefined : List Token → Except Error (String × List Token)
  | .opening :: .name n :: .closing :: rest => .ok (n, rest)
  | .name n :: rest => .ok (n, rest)
  | _ => .error .missingDefinedName

/-- Replaces parameters in a body by their arguments. -/
def substitute (args : List (String × List Token)) (body : List Token) : List Token :=
  body.flatMap fun
    | .name n => (args.lookup n).getD [.name n]
    | t => [t]

/-- The word for a truth value. -/
def truth (b : Bool) : Int64 := if b then 1 else 0

theorem length_joinArguments_consToken (t : Token) (args : List (List Token)) :
    (joinArguments (consToken t args)).length = (joinArguments args).length + 1 := by
  match args with
  | [] => rfl
  | [_] => rfl
  | _ :: _ :: _ => simp [consToken, joinArguments]

theorem length_joinArguments_cons_le (a : List Token) (as : List (List Token)) :
    (joinArguments as).length ≤ (joinArguments (a :: as)).length ∧
      a.length ≤ (joinArguments (a :: as)).length := by
  cases as with
  | nil => simp [joinArguments]
  | cons b bs => simp [joinArguments]; omega

theorem length_joinArguments_drop_le (n : Nat) (args : List (List Token)) :
    (joinArguments (args.drop n)).length ≤ (joinArguments args).length := by
  induction args generalizing n with
  | nil => simp
  | cons a as ih =>
    cases n with
    | zero => simp
    | succ n => exact Nat.le_trans (ih n) (length_joinArguments_cons_le a as).1

theorem length_le_joinArguments {a : List Token} {args : List (List Token)} (h : a ∈ args) :
    a.length ≤ (joinArguments args).length := by
  induction args with
  | nil => simp at h
  | cons b bs ih =>
    have hb := length_joinArguments_cons_le b bs
    rcases List.mem_cons.mp h with rfl | h
    · exact hb.2
    · exact Nat.le_trans (ih h) hb.1

theorem length_joinArguments_nil_cons_le (as : List (List Token)) :
    (joinArguments ([] :: as)).length ≤ (joinArguments as).length + 1 := by
  cases as <;> simp [joinArguments]

/-- Arguments and what follows them are made of the tokens read. -/
theorem length_readArguments {depth : Nat} {ts rest : List Token} {args : List (List Token)}
    (h : readArguments depth ts = some (args, rest)) :
    (joinArguments args).length + rest.length < ts.length := by
  fun_induction readArguments depth ts generalizing args with
  | case1 => simp at h
  | case2 ts => cases h; simp [joinArguments]
  | case5 ts ih =>
    simp only [Option.map_eq_some_iff, Prod.exists, Prod.mk.injEq] at h
    obtain ⟨as, r, h, rfl, rfl⟩ := h
    have := ih h
    have := length_joinArguments_nil_cons_le as
    simp only [List.length_cons]; omega
  | case3 | case4 | case6 =>
    rename_i ih
    simp only [Option.map_eq_some_iff, Prod.exists, Prod.mk.injEq] at h
    obtain ⟨as, r, h, rfl, rfl⟩ := h
    have := ih h
    rw [length_joinArguments_consToken]
    simp only [List.length_cons]; omega

theorem length_givenArguments_le (named : Nat) (args : List (List Token)) :
    (joinArguments (givenArguments named args)).length ≤ (joinArguments args).length := by
  unfold givenArguments
  split <;> simp [joinArguments]

theorem length_of_mem_pairArguments {params : List String} {args : List (List Token)}
    {e : String × List Token} (h : e ∈ pairArguments params args) :
    e.2.length ≤ (joinArguments args).length := by
  rcases List.mem_append.mp h with h | h
  · exact length_le_joinArguments (List.mem_of_mem_take (List.of_mem_zip h).2)
  · split at h
    · simp only [List.mem_singleton] at h
      rw [h]; exact length_joinArguments_drop_le _ args
    · simp at h

/-- Every argument that a call binds is part of the arguments read. -/
theorem length_bindArguments {name : String} {params : List String} {args : List (List Token)}
    {b : Bindings} (h : bindArguments name params args = .ok b) :
    ∀ e ∈ b.toList, e.2.length ≤ (joinArguments args).length := by
  unfold bindArguments at h
  dsimp only at h
  split at h
  · cases h
    intro e he
    obtain ⟨d, hd, hed⟩ := SortedMap.exists_of_mem_ofList he
    rw [hed]
    exact Nat.le_trans (length_of_mem_pairArguments hd) (length_givenArguments_le _ args)
  · cases h

/-- A call ends before its text does, and so does each of its arguments. -/
theorem length_readCall {name : String} {params : List String} {ts rest : List Token}
    {b : Bindings} (h : readCall name params ts = .ok (some (b, rest))) :
    rest.length < ts.length ∧ ∀ e ∈ b.toList, e.2.length < ts.length := by
  unfold readCall at h
  split at h
  · next ts =>
    split at h
    · cases h
    · next args r hargs =>
      have hlen := length_readArguments hargs
      simp only [Except.map] at h
      split at h
      · cases h
      · next b' hb =>
        cases h
        refine ⟨by simp only [List.length_cons]; omega, fun e he => ?_⟩
        have := length_bindArguments hb e he
        simp only [List.length_cons]; omega
  · cases h

theorem length_readDefined {ts rest : List Token} {n : String}
    (h : readDefined ts = .ok (n, rest)) : rest.length < ts.length := by
  unfold readDefined at h
  split at h
  · cases h; simp only [List.length_cons]; omega
  · cases h; exact Nat.lt_succ_self _
  · cases h

/-- Replaces `defined` forms and macro names by their values. `stack` holds the macros being
expanded. A name with no macro to expand is zero, except `true`, which is one. -/
def expand (macros : MacroTable) (stack : List String) (ts : List Token) :
    Except Error (List Token) :=
  match ts with
  | [] => .ok []
  | .name n :: ts =>
    if n = "defined" then
      match _hd : readDefined ts with
      | .error e => .error e
      | .ok (target, rest) =>
        (expand macros stack rest).map (.num (truth (macros.contains target)) :: ·)
    else
      match if stack.contains n then none else macros.find? n with
      | none => (expand macros stack ts).map (.num (truth (n == "true")) :: ·)
      | some ⟨params?, body⟩ =>
        if _hs : maxDepth ≤ stack.length then .error (.tooDeep n)
        else
          match tokenize body.toList, params? with
          | .error e, _ => .error e
          | .ok body, none => do
            let value ← expand macros (n :: stack) body
            let after ← expand macros stack ts
            return value ++ after
          | .ok body, some params =>
            match _hc : readCall n params ts with
            | .error e => .error e
            | .ok none => (expand macros stack ts).map (.num 0 :: ·)
            | .ok (some (bindings, rest)) => do
              let args ← bindings.toList.attach.mapM fun ⟨(param, arg), _⟩ => do
                return (param, ← expand macros stack arg)
              let value ← expand macros (n :: stack) (substitute args body)
              let after ← expand macros stack rest
              return value ++ after
  | t :: ts => (expand macros stack ts).map (t :: ·)
termination_by (maxDepth - stack.length, ts.length)
decreasing_by
  all_goals simp_wf
  · have := length_readDefined _hd
    apply Prod.Lex.right; omega
  · apply Prod.Lex.right; omega
  · apply Prod.Lex.left; omega
  · apply Prod.Lex.right; omega
  · apply Prod.Lex.right; omega
  · have := (length_readCall _hc).2 _ ‹_›
    apply Prod.Lex.right; simp only at this; omega
  · apply Prod.Lex.left; omega
  · have := (length_readCall _hc).1
    apply Prod.Lex.right; omega
  · apply Prod.Lex.right; omega

end MacroSweep.Condition
