import MacroSweep.Json.Value
import MacroSweep.Text.Left
import MacroSweep.Text.Numeral
import MacroSweep.Text.Utf8

/-! Reading JSON text. Its bytes are read as characters, and a string is put together from its
bytes: only where one is used does it have to be text. -/
namespace MacroSweep.Json

open Text

def isSpace (c : Char) : Bool := c == ' ' || c == '\t' || c == '\n' || c == '\r'

def skip (cs : List Char) : List Char := cs.dropWhile isSpace

theorem length_skip_le (cs : List Char) : (skip cs).length ≤ cs.length :=
  length_dropWhile_le isSpace cs

/-- The value of four hexadecimal digits. -/
def hex4? (a b c d : Char) : Option Nat :=
  (readDigits 16 wordSize [a, b, c, d]).toOption

/-- The character that a pair of surrogates stands for. -/
def surrogatePair? (high low : Nat) : Option Char :=
  if 0xD800 ≤ high ∧ high < 0xDC00 ∧ 0xDC00 ≤ low ∧ low < 0xE000 then
    some (Char.ofNat (0x10000 + (high - 0xD800) * 0x400 + (low - 0xDC00)))
  else none

/-- The character of a code that is no surrogate. -/
def plainChar? (n : Nat) : Option Char :=
  if 0xD800 ≤ n ∧ n < 0xE000 then none else some (Char.ofNat n)

/-- The character of a one-letter escape. -/
def escaped? : Char → Option Char
  | '"' => some '"'
  | '\\' => some '\\'
  | '/' => some '/'
  | 'b' => some '\x08'
  | 'f' => some '\x0c'
  | 'n' => some '\n'
  | 'r' => some '\r'
  | 't' => some '\t'
  | _ => none

/-- The character of a high surrogate with the low one that follows it. -/
def joinSurrogates? (high : Nat) : List Char → Option (Char × List Char)
  | '\\' :: 'u' :: a :: b :: c :: d :: rest =>
    ((hex4? a b c d).bind (surrogatePair? high)).map fun ch => (ch, rest)
  | _ => none

/-- The bytes of a code written in hexadecimal. Half of a surrogate pair gives a byte that no text
has. -/
def readCode (n : Nat) (cs : List Char) : List UInt8 × List Char :=
  match plainChar? n, joinSurrogates? n cs with
  | some c, _ => (encode [c], cs)
  | none, some (c, rest) => (encode [c], rest)
  | none, none => ([0xFF], cs)

/-- Reads a byte of a string, or an escape. -/
def readUnit : List Char → Option (List UInt8 × List Char)
  | [] => none
  | '\\' :: 'u' :: a :: b :: c :: d :: rest => (hex4? a b c d).map fun n => readCode n rest
  | '\\' :: e :: rest => (escaped? e).map fun c => (encode [c], rest)
  | c :: rest =>
    if c.toNat < 0x20 ∨ c = '\\' then none else some ([UInt8.ofNat c.toNat], rest)

theorem length_of_joinSurrogates? {high : Nat} {cs rest : List Char} {c : Char}
    (h : joinSurrogates? high cs = some (c, rest)) : rest.length ≤ cs.length := by
  unfold joinSurrogates? at h
  split at h
  · simp only [Option.map_eq_some_iff, Prod.mk.injEq] at h
    obtain ⟨_, _, _, rfl⟩ := h
    simp only [List.length_cons]; omega
  · cases h

theorem length_of_readCode {n : Nat} {cs rest : List Char} {bytes : List UInt8}
    (h : readCode n cs = (bytes, rest)) : rest.length ≤ cs.length := by
  unfold readCode at h
  split at h
  · cases h; exact Nat.le_refl _
  · next hj => cases h; exact length_of_joinSurrogates? hj
  · cases h; exact Nat.le_refl _

theorem length_of_readUnit {cs rest : List Char} {bytes : List UInt8}
    (h : readUnit cs = some (bytes, rest)) : rest.length < cs.length := by
  unfold readUnit at h
  split at h
  · cases h
  · simp only [Option.map_eq_some_iff] at h
    obtain ⟨n, _, h⟩ := h
    have := length_of_readCode h
    simp only [List.length_cons]; omega
  · simp only [Option.map_eq_some_iff, Prod.mk.injEq] at h
    obtain ⟨_, _, _, rfl⟩ := h
    simp only [List.length_cons]; omega
  · split at h
    · cases h
    · cases h; simp

/-- Reads the bytes of a string and its closing quote. -/
def readString (cs : List Char) : Option (List UInt8 × List Char) :=
  match cs with
  | '"' :: rest => some ([], rest)
  | cs =>
    match _h : readUnit cs with
    | none => none
    | some (bytes, rest) => (readString rest).map fun (s, r) => (bytes ++ s, r)
termination_by cs.length
decreasing_by exact length_of_readUnit _h

theorem length_of_readString {cs rest : List Char} {s : List UInt8}
    (h : readString cs = some (s, rest)) : rest.length < cs.length := by
  fun_induction readString cs generalizing s with
  | case1 => cases h; simp
  | case2 => cases h
  | case3 cs _ bytes r hc ih =>
    simp only [Option.map_eq_some_iff, Prod.exists, Prod.mk.injEq] at h
    obtain ⟨s', r', h, _, rfl⟩ := h
    exact Nat.lt_trans (ih h) (length_of_readUnit hc)

/-- The value of a string's bytes. -/
def ofString (bytes : List UInt8) : Json :=
  match decode? bytes with
  | some s => .string (String.ofList s)
  | none => .garbled

/-- The value of an object's fields. -/
def ofFields (fields : List (List UInt8 × Json)) : Json :=
  match fields.mapM fun (key, v) => (decode? key).map fun s => (String.ofList s, v) with
  | some fields => .object fields
  | none => .garbled

/-- A run of digits and what follows; none if there is no digit. -/
def digits? (cs : List Char) : Option (List Char × List Char) :=
  match cs.takeWhile Char.isDigit with
  | [] => none
  | ds => some (ds, cs.dropWhile Char.isDigit)

/-- Reads digits with no leading zero. -/
def wholePart? : List Char → Option (List Char × List Char)
  | '0' :: rest => some (['0'], rest)
  | cs => digits? cs

/-- Reads a fraction, or nothing. -/
def fraction? : List Char → Option (List Char × List Char)
  | '.' :: cs => (digits? cs).map fun (ds, rest) => ('.' :: ds, rest)
  | cs => some ([], cs)

/-- Reads an exponent, or nothing. -/
def exponent? : List Char → Option (List Char × List Char)
  | e :: cs =>
    if e = 'e' ∨ e = 'E' then
      match cs with
      | '+' :: cs => (digits? cs).map fun (ds, rest) => (e :: '+' :: ds, rest)
      | '-' :: cs => (digits? cs).map fun (ds, rest) => (e :: '-' :: ds, rest)
      | cs => (digits? cs).map fun (ds, rest) => (e :: ds, rest)
    else some ([], e :: cs)
  | [] => some ([], [])

/-- The value of a number in its parts: a natural if it has digits only. -/
def ofParts (sign whole fraction exponent : List Char) : Json :=
  match sign ++ fraction ++ exponent, addDigits 10 (Nat.pow 10 whole.length) 0 whole with
  | [], .ok n => .nat n
  | _, _ => .number (String.ofList (sign ++ whole ++ fraction ++ exponent))

/-- Reads a number. -/
def readNumber (cs : List Char) : Option (Json × List Char) := do
  let sign := cs.takeWhile (· == '-')
  let (whole, r1) ← wholePart? (cs.drop sign.length)
  let (fraction, r2) ← fraction? r1
  let (exponent, r3) ← exponent? r2
  if sign.length ≤ 1 then some (ofParts sign whole fraction exponent, r3) else none

theorem length_of_digits? {cs ds rest : List Char} (h : digits? cs = some (ds, rest)) :
    rest.length < cs.length := by
  have happ := congrArg List.length (List.takeWhile_append_dropWhile (p := Char.isDigit) (l := cs))
  unfold digits? at h
  split at h
  · cases h
  · next hne =>
    cases h
    have := List.length_pos_iff.mpr hne
    rw [List.length_append] at happ; omega

theorem length_of_wholePart? {cs ds rest : List Char} (h : wholePart? cs = some (ds, rest)) :
    rest.length < cs.length := by
  unfold wholePart? at h
  split at h
  · cases h; simp
  · exact length_of_digits? h

theorem length_of_fraction? {cs ds rest : List Char} (h : fraction? cs = some (ds, rest)) :
    rest.length ≤ cs.length := by
  unfold fraction? at h
  split at h
  · simp only [Option.map_eq_some_iff, Prod.exists, Prod.mk.injEq] at h
    obtain ⟨_, _, h, _, rfl⟩ := h
    have := length_of_digits? h
    simp only [List.length_cons]; omega
  · cases h; exact Nat.le_refl _

theorem length_of_exponent? {cs ds rest : List Char} (h : exponent? cs = some (ds, rest)) :
    rest.length ≤ cs.length := by
  unfold exponent? at h
  split at h
  · split at h
    · split at h
      all_goals
        simp only [Option.map_eq_some_iff, Prod.exists, Prod.mk.injEq] at h
        obtain ⟨_, _, h, _, rfl⟩ := h
        have := length_of_digits? h
        simp only [List.length_cons] at *; omega
    · cases h; exact Nat.le_refl _
  · cases h; exact Nat.le_refl _

theorem length_of_readNumber {cs rest : List Char} {j : Json}
    (h : readNumber cs = some (j, rest)) : rest.length < cs.length := by
  simp only [readNumber, Option.bind_eq_bind, Option.bind_eq_some_iff, Prod.exists] at h
  obtain ⟨whole, r1, h1, fraction, r2, h2, exponent, r3, h3, h⟩ := h
  split at h
  · cases h
    have := length_of_wholePart? h1
    have := length_of_fraction? h2
    have := length_of_exponent? h3
    rw [List.length_drop] at *; omega
  · cases h

mutual

/-- Reads the value that opens a text. -/
def readValue (cs : List Char) : Option (Json × Left cs) :=
  match cs with
  | '[' :: r =>
    match _h : skip r with
    | ']' :: rest =>
      some (.array [], ⟨rest, by have := length_skip_le r; rw [_h] at this; simp_all; omega⟩)
    | _ =>
      match readItems r with
      | some (items, ⟨rest, hr⟩) =>
        some (.array items, ⟨rest, by simp only [List.length_cons]; omega⟩)
      | none => none
  | '\x7b' :: r =>
    match _h : skip r with
    | '\x7d' :: rest =>
      some (.object [], ⟨rest, by have := length_skip_le r; rw [_h] at this; simp_all; omega⟩)
    | _ =>
      match readFields r with
      | some (fields, ⟨rest, hr⟩) =>
        some (ofFields fields, ⟨rest, by simp only [List.length_cons]; omega⟩)
      | none => none
  | '"' :: r =>
    match _h : readString r with
    | some (s, rest) =>
      some (ofString s, ⟨rest, Nat.lt_succ_of_lt (length_of_readString _h)⟩)
    | none => none
  | 't' :: 'r' :: 'u' :: 'e' :: r => some (.bool true, ⟨r, by simp only [List.length_cons]; omega⟩)
  | 'f' :: 'a' :: 'l' :: 's' :: 'e' :: r =>
    some (.bool false, ⟨r, by simp only [List.length_cons]; omega⟩)
  | 'n' :: 'u' :: 'l' :: 'l' :: r => some (.null, ⟨r, by simp only [List.length_cons]; omega⟩)
  | cs =>
    match _h : readNumber cs with
    | some (v, rest) => some (v, ⟨rest, length_of_readNumber _h⟩)
    | none => none
termination_by (cs.length, 0)
decreasing_by
  all_goals apply Prod.Lex.left; simp

/-- Reads values with commas between them, up to the bracket that closes them. -/
def readItems (cs : List Char) : Option (List Json × Left cs) :=
  match readValue (skip cs) with
  | none => none
  | some (v, ⟨r, hr⟩) =>
    match _h : skip r with
    | ']' :: rest =>
      some ([v], ⟨rest, by
        have := length_skip_le r; have := length_skip_le cs
        rw [_h] at *; simp only [List.length_cons] at *; omega⟩)
    | ',' :: rest =>
      match readItems rest with
      | some (vs, ⟨last, hl⟩) =>
        some (v :: vs, ⟨last, by
          have := length_skip_le r; have := length_skip_le cs
          rw [_h] at *; simp only [List.length_cons] at *; omega⟩)
      | none => none
    | _ => none
termination_by (cs.length, 1)
decreasing_by
  · have := length_skip_le cs
    rcases Nat.lt_or_eq_of_le this with h | h
    · exact Prod.Lex.left _ _ h
    · rw [h]; exact Prod.Lex.right _ (by omega)
  · have := length_skip_le r
    have := length_skip_le cs
    rw [_h] at *
    apply Prod.Lex.left
    simp only [List.length_cons] at *; omega

/-- Reads fields with commas between them, up to the brace that closes them. -/
def readFields (cs : List Char) : Option (List (List UInt8 × Json) × Left cs) :=
  match _hc : skip cs with
  | '"' :: r =>
    match _hs : readString r with
    | some (key, r1) =>
      match _h1 : skip r1 with
      | ':' :: r2 =>
        match readValue (skip r2) with
        | none => none
        | some (v, ⟨r3, h3⟩) =>
          match _h3 : skip r3 with
          | '\x7d' :: rest =>
            some ([(key, v)], ⟨rest, by
              have := length_of_readString _hs
              have := length_skip_le r1; have := length_skip_le r2
              have := length_skip_le r3; have := length_skip_le cs
              rw [_hc, _h1, _h3] at *; simp only [List.length_cons] at *; omega⟩)
          | ',' :: rest =>
            match readFields rest with
            | some (fs, ⟨last, hl⟩) =>
              some ((key, v) :: fs, ⟨last, by
                have := length_of_readString _hs
                have := length_skip_le r1; have := length_skip_le r2
                have := length_skip_le r3; have := length_skip_le cs
                rw [_hc, _h1, _h3] at *; simp only [List.length_cons] at *; omega⟩)
            | none => none
          | _ => none
      | _ => none
    | _ => none
  | _ => none
termination_by (cs.length, 1)
decreasing_by
  · have := length_of_readString _hs
    have := length_skip_le r1
    have := length_skip_le r2
    have := length_skip_le cs
    rw [_hc, _h1] at *
    apply Prod.Lex.left
    simp only [List.length_cons] at *; omega
  · have := length_of_readString _hs
    have := length_skip_le r1
    have := length_skip_le r2
    have := length_skip_le r3
    have := length_skip_le cs
    rw [_hc, _h1, _h3] at *
    apply Prod.Lex.left
    simp only [List.length_cons] at *; omega

end

/-- Reads a text that holds one value and blanks around it. -/
def parse? (bytes : List UInt8) : Option Json :=
  match readValue (skip (bytes.map byteChar)) with
  | some (v, ⟨rest, _⟩) => if (skip rest).isEmpty then some v else none
  | none => none

end MacroSweep.Json
