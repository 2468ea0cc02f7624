import MacroSweep.Text.Blank

/-! Words of letters, digits and underscores, identifiers among them, and parenthesised groups. -/
namespace MacroSweep.Text

/-- The characters an identifier may hold, all of them ASCII. -/
def isWordChar (c : Char) : Bool := c.isAlphanum || c == '_'

/-- The characters an identifier may start with. -/
def isWordStart (c : Char) : Bool := c.isAlpha || c == '_'

theorem isWordChar_of_isDigit {c : Char} (h : c.isDigit = true) : isWordChar c = true := by
  simp [isWordChar, Char.isAlphanum, h]

theorem isWordChar_of_isWordStart {c : Char} (h : isWordStart c = true) :
    isWordChar c = true := by
  simp only [isWordStart, Bool.or_eq_true] at h
  rcases h with h | h <;> simp [isWordChar, Char.isAlphanum, h]

/-- The word that opens a text, and what follows it. -/
def splitWord (cs : List Char) : List Char × List Char :=
  (cs.takeWhile isWordChar, cs.dropWhile isWordChar)

def isIdentifier : List Char → Bool
  | [] => false
  | c :: cs => isWordStart c && cs.all isWordChar

/-- The word that opens a text, if it is an identifier. -/
def leadingIdentifier? (cs : List Char) : Option String :=
  let word := cs.takeWhile isWordChar
  if isIdentifier word then some (String.ofList word) else none

/-- Splits a text after the parenthesis that closes `depth` open ones. -/
def splitClosing : Nat → List Char → Option (List Char × List Char)
  | _, [] => none
  | depth, c :: cs =>
    if c == ')' ∧ depth ≤ 1 then some ([c], cs)
    else
      let depth := if c == '(' then depth + 1 else if c == ')' then depth - 1 else depth
      (splitClosing depth cs).map fun (group, rest) => (c :: group, rest)

/-- Splits a text after the parenthesised group that opens it, if there is a closed one. -/
def splitGroup? : List Char → Option (List Char × List Char)
  | '(' :: cs => (splitClosing 1 cs).map fun (group, rest) => ('(' :: group, rest)
  | _ => none

/-- The number of characters of the parenthesised group that opens a text. -/
def groupLength? (cs : List Char) : Option Nat := (splitGroup? cs).map (·.1.length)

theorem append_of_splitClosing {depth : Nat} {cs group rest : List Char}
    (h : splitClosing depth cs = some (group, rest)) : group ++ rest = cs := by
  induction cs generalizing depth group with
  | nil => simp [splitClosing] at h
  | cons c cs ih =>
    unfold splitClosing at h
    split at h
    · cases h; rfl
    · simp only [Option.map_eq_some_iff] at h
      obtain ⟨⟨g, r⟩, hg, h⟩ := h
      simp only [Prod.mk.injEq] at h
      obtain ⟨rfl, rfl⟩ := h
      simpa using ih hg

theorem append_of_splitGroup? {cs group rest : List Char}
    (h : splitGroup? cs = some (group, rest)) : group ++ rest = cs := by
  unfold splitGroup? at h
  split at h
  · simp only [Option.map_eq_some_iff] at h
    obtain ⟨⟨g, r⟩, hg, h⟩ := h
    simp only [Prod.mk.injEq] at h
    obtain ⟨rfl, rfl⟩ := h
    simpa using append_of_splitClosing hg
  · simp at h

end MacroSweep.Text
