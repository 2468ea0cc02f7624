import MacroSweep.Condition.Expansion

/-! The value of a condition: 64-bit words that wrap, read with one token of lookahead. Operands
that short-circuiting leaves out are read but not `live`, and there a zero divisor is harmless. -/
namespace MacroSweep.Condition

/-- A shift count, brought into the width of a word. -/
def shiftCount (n : Int64) : Int64 := if n < 0 then 0 else if 63 < n then 63 else n

/-- The value of an operation; none for a zero divisor. -/
def BinaryOp.value? (op : BinaryOp) (a b : Int64) : Option Int64 :=
  match op with
  | or => some (truth (a != 0 || b != 0))
  | and => some (truth (a != 0 && b != 0))
  | bitOr => some (a ||| b)
  | bitXor => some (a ^^^ b)
  | bitAnd => some (a &&& b)
  | eq => some (truth (a == b))
  | ne => some (truth (a != b))
  | lt => some (truth (decide (a < b)))
  | gt => some (truth (decide (b < a)))
  | le => some (truth (decide (a ≤ b)))
  | ge => some (truth (decide (b ≤ a)))
  | shl => some (a <<< shiftCount b)
  | shr => some (a >>> shiftCount b)
  | add => some (a + b)
  | sub => some (a - b)
  | mul => some (a * b)
  | div => if b = 0 then none else some (a / b)
  | rem => if b = 0 then none else some (a % b)

/-- Applies an operation, which stands for zero where it has no value and is not live. -/
def BinaryOp.apply (op : BinaryOp) (live : Bool) (a b : Int64) : Except Error Int64 :=
  match op.value? a b with
  | some v => .ok v
  | none => if live then .error .divisionByZero else .ok 0

/-- Whether the right operand is evaluated once the left one has a value. -/
def BinaryOp.rightLive (op : BinaryOp) (live : Bool) (a : Int64) : Bool :=
  match op with
  | or => live && a == 0
  | and => live && a != 0
  | _ => live

/-- What a sign in front of an operand does to it. -/
def Sign.unary? : Sign → Option (Int64 → Int64)
  | not => some fun v => truth (v == 0)
  | complement => some fun v => ~~~v
  | binary .sub => some fun v => -v
  | binary .add => some fun v => v
  | _ => none

/-- A value, and the tokens after it, which are fewer than those read. -/
abbrev Reading (ts : List Token) : Type :=
  Except Error (Int64 × { rest : List Token // rest.length < ts.length })

/-- The same reading, seen from a longer text. -/
def Reading.within {ts us : List Token} (r : Reading ts) (h : ts.length ≤ us.length) : Reading us :=
  r.map fun (v, ⟨rest, hr⟩) => (v, ⟨rest, Nat.lt_of_lt_of_le hr h⟩)

/-- What follows a token that must come next. -/
def expect (t : Token) (ts : List Token) :
    Except Error { rest : List Token // rest.length < ts.length } :=
  match ts with
  | [] => .error .unexpectedEnd
  | u :: us => if u = t then .ok ⟨us, Nat.lt_succ_self _⟩ else .error (.unexpectedToken u)

mutual

/-- Reads a conditional expression, which groups to the right. -/
def readTernary (live : Bool) (ts : List Token) : Reading ts :=
  match readBinary 1 live ts with
  | .error e => .error e
  | .ok (c, ⟨us, hu⟩) =>
    match expect (.sign .question) us with
    | .error _ => .ok (c, ⟨us, hu⟩)
    | .ok ⟨vs, hv⟩ =>
      match readTernary (live && c != 0) vs with
      | .error e => .error e
      | .ok (a, ⟨ws, hw⟩) =>
        match expect (.sign .colon) ws with
        | .error e => .error e
        | .ok ⟨xs, hx⟩ =>
          match readTernary (live && c == 0) xs with
          | .error e => .error e
          | .ok (b, ⟨ys, hy⟩) => .ok (if c = 0 then b else a, ⟨ys, by omega⟩)
termination_by (ts.length, 2)
decreasing_by
  · exact Prod.Lex.right _ (by omega)
  · exact Prod.Lex.left _ _ (by omega)
  · exact Prod.Lex.left _ _ (by omega)

/-- Reads operands joined by operators that bind at least as tightly as `level`. -/
def readBinary (level : Nat) (live : Bool) (ts : List Token) : Reading ts :=
  match readUnary live ts with
  | .error e => .error e
  | .ok (a, ⟨us, hu⟩) =>
    match readOperators level live a us with
    | .error e => .error e
    | .ok (v, ⟨vs, hv⟩) => .ok (v, ⟨vs, Nat.lt_of_le_of_lt hv hu⟩)
termination_by (ts.length, 1)
decreasing_by
  · exact Prod.Lex.right _ (by omega)
  · exact Prod.Lex.left _ _ hu

/-- Goes on from the left operand `a` through operators that bind at least as tightly as
`level`, which group to the left. -/
def readOperators (level : Nat) (live : Bool) (a : Int64) (ts : List Token) :
    Except Error (Int64 × { rest : List Token // rest.length ≤ ts.length }) :=
  match ts with
  | .sign (.binary op) :: us =>
    if op.level < level then .ok (a, ⟨.sign (.binary op) :: us, Nat.le_refl _⟩)
    else
      let rightLive := op.rightLive live a
      match readBinary (op.level + 1) rightLive us with
      | .error e => .error e
      | .ok (b, ⟨vs, hv⟩) =>
        match op.apply rightLive a b with
        | .error e => .error e
        | .ok v =>
          match readOperators level live v vs with
          | .error e => .error e
          | .ok (w, ⟨ws, hw⟩) => .ok (w, ⟨ws, by simp only [List.length_cons]; omega⟩)
  | ts => .ok (a, ⟨ts, Nat.le_refl _⟩)
termination_by (ts.length, 0)
decreasing_by
  · exact Prod.Lex.left _ _ (Nat.lt_succ_self _)
  · apply Prod.Lex.left; simp only [List.length_cons]; omega

/-- Reads an operand: a number, a group in parentheses, or a unary operator and an operand. -/
def readUnary (live : Bool) (ts : List Token) : Reading ts :=
  match ts with
  | [] => .error .unexpectedEnd
  | t :: us =>
    match t with
    | .num n => .ok (n, ⟨us, Nat.lt_succ_self _⟩)
    | .sign s =>
      match s.unary? with
      | some f => Reading.within ((readUnary live us).map fun (v, r) => (f v, r)) (Nat.le_succ _)
      | none => .error (.unexpectedToken (.sign s))
    | .opening =>
      match readTernary live us with
      | .error e => .error e
      | .ok (v, ⟨vs, hv⟩) =>
        match expect .closing vs with
        | .error e => .error e
        | .ok ⟨ws, hw⟩ => .ok (v, ⟨ws, by simp only [List.length_cons]; omega⟩)
    | .closing => .error (.unexpectedToken .closing)
    | .name n => .error (.unexpectedToken (.name n))
termination_by (ts.length, 0)
decreasing_by
  all_goals exact Prod.Lex.left _ _ (Nat.lt_succ_self _)

end

/-- The value of a token list without names, which must be one expression. -/
def valueOf (ts : List Token) : Except Error Int64 :=
  if ts.isEmpty then .error .empty
  else
    match readTernary true ts with
    | .error e => .error e
    | .ok (v, ⟨[], _⟩) => .ok v
    | .ok (_, ⟨t :: _, _⟩) => .error (.unexpectedToken t)

/-- The value of a condition under the macros defined. -/
def evaluate (macros : MacroTable) (condition : List Char) : Except Error Int64 := do
  let ts ← tokenize condition
  if ts.isEmpty then throw .empty
  valueOf (← expand macros [] ts)

end MacroSweep.Condition
