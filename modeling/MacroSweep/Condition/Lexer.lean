import MacroSweep.Condition.Token
import MacroSweep.Text.Numeral
import MacroSweep.Text.Word

/-! Reading the tokens of a condition. -/
namespace MacroSweep.Condition

open Text

/-- The letters that may end a number, in any order and count. -/
def isNumberSuffix (c : Char) : Bool := c == 'u' || c == 'U' || c == 'l' || c == 'L'

/-- The radix of a number, and its digits. -/
def radixAndDigits : List Char → Nat × List Char
  | '0' :: 'x' :: ds => (16, ds)
  | '0' :: 'X' :: ds => (16, ds)
  | '0' :: 'b' :: ds => (2, ds)
  | '0' :: 'B' :: ds => (2, ds)
  | '0' :: d :: ds => (8, d :: ds)
  | ds => (10, ds)

/-- The value of a number: below 2 ^ 64, reinterpreted as a signed word. -/
def number (literal : List Char) : Except Error Int64 :=
  let (radix, digits) := radixAndDigits (dropEndWhile isNumberSuffix literal)
  match readDigits radix wordSize digits with
  | .ok n => .ok (Int64.ofNat n)
  | .error _ => .error (.invalidLiteral (String.ofList literal))

/-- The character that a backslash and a character stand for. -/
def escapedChar? : Char → Option Char
  | 'n' => some '\n'
  | 't' => some '\t'
  | 'r' => some '\r'
  | '0' => some '\x00'
  | '\\' => some '\\'
  | '\'' => some '\''
  | _ => none

/-- The character that the inside of a character literal stands for. -/
def literalChar? : List Char → Option Char
  | [c] => if c = '\\' then none else some c
  | [b, c] => if b = '\\' then escapedChar? c else none
  | _ => none

/-- Reads a character literal after its opening apostrophe; it ends at the next one. -/
def characterLiteral (cs : List Char) : Except Error (Token × List Char) :=
  let inside := cs.takeWhile (· != '\'')
  match cs.dropWhile (· != '\'') with
  | [] => .error (.invalidLiteral (String.ofList ('\'' :: cs)))
  | _ :: rest =>
    match literalChar? inside with
    | some c => .ok (.num (Int64.ofNat c.toNat), rest)
    | none => .error (.invalidLiteral (String.ofList ('\'' :: inside ++ ['\''])))

/-- The names of feature checks, whose argument is no part of the expression, start so. -/
def featureCheckStart : List Char := "__has_".toList

/-- The token of a word. A feature check with its argument is the number zero. -/
def wordToken (word rest : List Char) : Token × List Char :=
  if featureCheckStart.isPrefixOf word then
    match splitGroup? (trimStart rest) with
    | some (_, rest) => (.num 0, rest)
    | none => (.name (String.ofList word), rest)
  else (.name (String.ofList word), rest)

/-- The operator signs of two characters. -/
def sign2? : Char → Char → Option Sign
  | '|', '|' => some (.binary .or)
  | '&', '&' => some (.binary .and)
  | '=', '=' => some (.binary .eq)
  | '!', '=' => some (.binary .ne)
  | '<', '=' => some (.binary .le)
  | '>', '=' => some (.binary .ge)
  | '<', '<' => some (.binary .shl)
  | '>', '>' => some (.binary .shr)
  | _, _ => none

/-- The operator signs of one character. -/
def sign1? : Char → Option Sign
  | '!' => some .not
  | '~' => some .complement
  | '+' => some (.binary .add)
  | '-' => some (.binary .sub)
  | '*' => some (.binary .mul)
  | '/' => some (.binary .div)
  | '%' => some (.binary .rem)
  | '<' => some (.binary .lt)
  | '>' => some (.binary .gt)
  | '&' => some (.binary .bitAnd)
  | '|' => some (.binary .bitOr)
  | '^' => some (.binary .bitXor)
  | '?' => some .question
  | ':' => some .colon
  | ',' => some .comma
  | _ => none

/-- Reads an operator sign, the longer of two where both fit. -/
def signToken (c : Char) (cs : List Char) : Except Error (Token × List Char) :=
  match cs.head?.bind (sign2? c) with
  | some s => .ok (.sign s, cs.tail)
  | none =>
    match sign1? c with
    | some s => .ok (.sign s, cs)
    | none => .error (.unexpectedChar c)

/-- Reads the token that starts with the character `c`, which is not blank. -/
def nextToken (c : Char) (cs : List Char) : Except Error (Token × List Char) :=
  if c.isDigit then
    let (word, rest) := splitWord (c :: cs)
    (number word).map fun n => (.num n, rest)
  else if isWordStart c then
    let (word, rest) := splitWord (c :: cs)
    .ok (wordToken word rest)
  else if c == '\'' then characterLiteral cs
  else if c == '(' then .ok (.opening, cs)
  else if c == ')' then .ok (.closing, cs)
  else signToken c cs

theorem length_splitWord_le {c : Char} (h : isWordChar c = true) (cs : List Char) :
    (splitWord (c :: cs)).2.length ≤ cs.length := by
  simpa [splitWord, List.dropWhile_cons, h] using length_dropWhile_le isWordChar cs

theorem length_wordToken_le (word rest : List Char) :
    (wordToken word rest).2.length ≤ rest.length := by
  unfold wordToken
  split
  · split
    · next group r h =>
      have happ := congrArg List.length (append_of_splitGroup? h)
      have htrim := length_dropWhile_le isBlank rest
      simp only [List.length_append, trimStart] at happ
      simp only; omega
    · exact Nat.le_refl _
  · exact Nat.le_refl _

theorem length_characterLiteral_le {cs rest : List Char} {t : Token}
    (h : characterLiteral cs = .ok (t, rest)) : rest.length ≤ cs.length := by
  have hlen := length_dropWhile_le (· != '\'') cs
  unfold characterLiteral at h
  dsimp only at h
  split at h
  · cases h
  · next hd =>
    rw [hd] at hlen
    split at h
    · cases h; simp only [List.length_cons] at hlen; omega
    · cases h

theorem length_signToken_le {c : Char} {cs rest : List Char} {t : Token}
    (h : signToken c cs = .ok (t, rest)) : rest.length ≤ cs.length := by
  unfold signToken at h
  split at h
  · cases h; simp
  · split at h <;> cases h; exact Nat.le_refl _

/-- A token takes at least its first character. -/
theorem length_nextToken_le {c : Char} {cs rest : List Char} {t : Token}
    (h : nextToken c cs = .ok (t, rest)) : rest.length ≤ cs.length := by
  unfold nextToken at h
  split at h
  · next hc =>
    have hlen := length_splitWord_le (isWordChar_of_isDigit hc) cs
    simp only [Except.map] at h
    split at h <;> cases h
    exact hlen
  · split at h
    · next hc =>
      have hlen := length_splitWord_le (isWordChar_of_isWordStart hc) cs
      have htok := length_wordToken_le (splitWord (c :: cs)).1 (splitWord (c :: cs)).2
      simp only [Except.ok.injEq] at h
      rw [h] at htok
      exact Nat.le_trans htok hlen
    · split at h
      · exact length_characterLiteral_le h
      · split at h
        · cases h; exact Nat.le_refl _
        · split at h
          · cases h; exact Nat.le_refl _
          · exact length_signToken_le h

/-- Reads all tokens of a text. -/
def tokenize : List Char → Except Error (List Token)
  | [] => .ok []
  | c :: cs =>
    if isBlank c then tokenize cs
    else
      match _h : nextToken c cs with
      | .error e => .error e
      | .ok (t, rest) => (tokenize rest).map (t :: ·)
termination_by cs => cs.length
decreasing_by
  · simp
  · have := length_nextToken_le _h
    simp only [List.length_cons]; omega

end MacroSweep.Condition
