import MacroSweep.Text.Blank

/-! Readers that take something off the front of a text, so that what they leave is shorter. -/
namespace MacroSweep.Text

/-- What is left of a text after reading some of it. -/
abbrev Left (cs : List Char) : Type := { rest : List Char // rest.length < cs.length }

/-- A reader of values. -/
abbrev Reader (α : Type) : Type := (cs : List Char) → Option (α × Left cs)

namespace Left

variable {cs : List Char}

/-- What is left after the first character. -/
def tail (c : Char) (rest : List Char) : Left (c :: rest) := ⟨rest, Nat.lt_succ_self _⟩

/-- What is left of a text that one more character opens. -/
def cons (c : Char) (l : Left cs) : Left (c :: cs) := ⟨l.1, Nat.lt_succ_of_lt l.2⟩

/-- What is left after reading on from what was left. -/
def next (l : Left cs) (r : Left l.1) : Left cs := ⟨r.1, Nat.lt_trans r.2 l.2⟩

/-- What is left after one more character. -/
def after {c : Char} {rest : List Char} (l : Left cs) (h : l.1 = c :: rest) : Left cs :=
  ⟨rest, Nat.lt_trans (h ▸ Nat.lt_succ_self rest.length) l.2⟩

/-- What is left of a text that is at least as long. -/
def within {ds : List Char} (l : Left ds) (h : ds.length ≤ cs.length) : Left cs :=
  ⟨l.1, Nat.lt_of_lt_of_le l.2 h⟩

/-- What is left of a text whose rest is no longer than `l`. -/
def shrink (l : Left cs) (rest : List Char) (h : rest.length ≤ l.1.length) : Left cs :=
  ⟨rest, Nat.lt_of_le_of_lt h l.2⟩

end Left

end MacroSweep.Text
