import MacroSweep.Text.Lines

/-! Source text as lines of code and comments. String and character literals are code, so a
comment mark inside one opens no comment. -/
namespace MacroSweep.Source

open Text

/-- A comment without its marks, and whether code stands before it on its line. -/
structure Comment where
  text : List Char
  trailing : Bool
  deriving DecidableEq, Repr

/-- A numbered line: its code, and the comments that start on it. -/
structure Line where
  number : Nat
  code : List Char
  comments : List Comment
  deriving DecidableEq, Repr

def Line.hasCode (l : Line) : Bool := !allBlank l.code

/-- Splits after the apostrophe that closes a literal with an escape, if there is one. -/
def splitEscaped? : List Char → Option (List Char × List Char)
  | [] => none
  | '\'' :: rest => some (['\''], rest)
  | '\\' :: [] => none
  | '\\' :: c :: rest => (splitEscaped? rest).map fun (lit, r) => ('\\' :: c :: lit, r)
  | c :: rest => (splitEscaped? rest).map fun (lit, r) => (c :: lit, r)

/-- Splits after the character literal that an apostrophe opened; a lone apostrophe opens none. -/
def splitCharacter : List Char → List Char × List Char
  | '\\' :: c :: rest =>
    match splitEscaped? rest with
    | some (lit, r) => ('\\' :: c :: lit, r)
    | none => ([], '\\' :: c :: rest)
  | c :: '\'' :: rest => ([c, '\''], rest)
  | cs => ([], cs)

/-- Splits after the string literal that a quote opened; the end of the line ends it too. -/
def splitString : List Char → List Char × List Char
  | [] => ([], [])
  | '"' :: rest => (['"'], rest)
  | '\\' :: c :: rest => let (lit, r) := splitString rest; ('\\' :: c :: lit, r)
  | c :: rest => let (lit, r) := splitString rest; (c :: lit, r)

/-- Splits at the mark that closes a block comment, if the line holds one. -/
def splitBlock? : List Char → Option (List Char × List Char)
  | [] => none
  | '*' :: '/' :: rest => some ([], rest)
  | c :: rest => (splitBlock? rest).map fun (text, r) => (c :: text, r)

theorem append_of_splitEscaped? {cs lit rest : List Char}
    (h : splitEscaped? cs = some (lit, rest)) : lit ++ rest = cs := by
  fun_induction splitEscaped? cs generalizing lit with
  | case1 => simp at h
  | case2 => cases h; rfl
  | case3 => simp at h
  | case4 | case5 =>
    rename_i ih
    simp only [Option.map_eq_some_iff, Prod.exists, Prod.mk.injEq] at h
    obtain ⟨l, r, h, rfl, rfl⟩ := h
    simp [ih h]

theorem append_splitCharacter (cs : List Char) :
    (splitCharacter cs).1 ++ (splitCharacter cs).2 = cs := by
  unfold splitCharacter
  split
  · split
    · next h => simp [append_of_splitEscaped? h]
    · rfl
  · rfl
  · rfl

theorem append_splitString (cs : List Char) : (splitString cs).1 ++ (splitString cs).2 = cs := by
  fun_induction splitString cs <;> simp_all

theorem length_splitCharacter_le (cs : List Char) :
    (splitCharacter cs).2.length ≤ cs.length := by
  have := congrArg List.length (append_splitCharacter cs)
  simp only [List.length_append] at this; omega

theorem length_splitString_le (cs : List Char) : (splitString cs).2.length ≤ cs.length := by
  have := congrArg List.length (append_splitString cs)
  simp only [List.length_append] at this; omega

theorem length_of_splitBlock? {cs text rest : List Char}
    (h : splitBlock? cs = some (text, rest)) : rest.length + 2 ≤ cs.length := by
  fun_induction splitBlock? cs generalizing text with
  | case1 => simp at h
  | case2 => cases h; simp
  | case3 c cs _ ih =>
    simp only [Option.map_eq_some_iff, Prod.exists, Prod.mk.injEq] at h
    obtain ⟨t, r, h, rfl, rfl⟩ := h
    have := ih h
    simp only [List.length_cons]; omega

/-- A block comment not yet closed: the line it starts on, and its text so far. -/
structure OpenComment where
  line : Nat
  text : List Char
  trailing : Bool
  deriving DecidableEq, Repr

/-- What one line holds: its code, the comments that end on it with the line each starts on, and
the block comment it leaves open. -/
structure LineScan where
  code : List Char
  closed : List (Nat × Comment)
  block : Option OpenComment
  deriving DecidableEq, Repr

namespace LineScan

def consCode (cs : List Char) (s : LineScan) : LineScan := { s with code := cs ++ s.code }

def consClosed (line : Nat) (c : Comment) (s : LineScan) : LineScan :=
  { s with closed := (line, c) :: s.closed }

end LineScan

/-- A block comment that has its whole text. -/
def OpenComment.close (o : OpenComment) (text : List Char) : Comment :=
  ⟨trim (o.text ++ text), o.trailing⟩

/-- A block comment that goes on past the end of a line. -/
def OpenComment.extend (o : OpenComment) (text : List Char) : OpenComment :=
  { o with text := o.text ++ text ++ ['\n'] }

/-- Scans the rest of line `number` outside comments; `seen` says whether code stands before. A
block comment leaves one space of code. -/
def scanCode (number : Nat) (seen : Bool) (cs : List Char) : LineScan :=
  match cs with
  | [] => ⟨[], [], none⟩
  | '/' :: '/' :: rest => ⟨[], [(number, ⟨trim rest, seen⟩)], none⟩
  | '/' :: '*' :: rest =>
    let opened : OpenComment := ⟨number, [], seen⟩
    match _h : splitBlock? rest with
    | none => ⟨[' '], [], some (opened.extend rest)⟩
    | some (text, rest) =>
      ((scanCode number seen rest).consClosed number (opened.close text)).consCode [' ']
  | '\'' :: rest =>
    (scanCode number true (splitCharacter rest).2).consCode ('\'' :: (splitCharacter rest).1)
  | '"' :: rest =>
    (scanCode number true (splitString rest).2).consCode ('"' :: (splitString rest).1)
  | c :: rest => (scanCode number (seen || !isBlank c) rest).consCode [c]
termination_by cs.length
decreasing_by
  · have := length_of_splitBlock? _h
    simp only [List.length_cons]; omega
  · have := length_splitCharacter_le rest
    simp only [List.length_cons]; omega
  · have := length_splitString_le rest
    simp only [List.length_cons]; omega
  · simp

/-- Scans line `number`, which the block comment `block` may reach. -/
def scanLine (number : Nat) (block : Option OpenComment) (cs : List Char) : LineScan :=
  match block with
  | none => scanCode number false cs
  | some o =>
    match splitBlock? cs with
    | none => ⟨[], [], some (o.extend cs)⟩
    | some (text, rest) => (scanCode number false rest).consClosed o.line (o.close text)

/-- Scans lines from `number` on. -/
def scanLines (number : Nat) (block : Option OpenComment) : List (List Char) → List LineScan
  | [] => []
  | l :: ls =>
    let s := scanLine number block l
    s :: scanLines (number + 1) s.block ls

/-- Numbers lines and gives each the comments that start on it. A block comment left open at the
end of the text is no comment. -/
def sourceLines (content : List Char) : List Line :=
  let scans := scanLines 1 none (lines content)
  let closed := scans.flatMap (·.closed)
  scans.zipIdx.map fun (s, i) =>
    ⟨i + 1, s.code, (closed.filter (·.1 == i + 1)).map (·.2)⟩

end MacroSweep.Source
