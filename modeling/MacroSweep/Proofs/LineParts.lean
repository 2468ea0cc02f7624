import MacroSweep.Source.Line
import Mathlib.Data.List.Infix

/-! The parts of a line as the scan takes them: characters of code, literals, and what comments have
on the line. Written one after the other they are the line, and all that the scan tells is told by
them. -/
namespace MacroSweep.Source

open Text

/-- A part of a line. A block comment may open or close on another line. -/
inductive Part where
  | code (c : Char)
  | literal (text : List Char)
  | remark (text : List Char)
  | block (opens : Bool) (text : List Char) (closes : Bool)
  deriving DecidableEq, Repr

/-- A part as it is written. -/
def Part.written : Part → List Char
  | code c => [c]
  | literal text => text
  | remark text => '/' :: '/' :: text
  | block opens text closes =>
    (if opens then ['/', '*'] else []) ++ text ++ if closes then ['*', '/'] else []

/-- Parts as they are written. -/
def writtenParts (ps : List Part) : List Char := ps.flatMap Part.written

/-- The part that a character outside comments starts, and what follows the part. -/
def nextPart (c : Char) (cs : List Char) : Part × List Char :=
  if c = '\'' then
    if (splitCharacter cs).1 = [] then (.code c, cs)
    else (.literal (c :: (splitCharacter cs).1), (splitCharacter cs).2)
  else if c = '"' then (.literal (c :: (splitString cs).1), (splitString cs).2)
  else if c = '/' ∧ cs.head? = some '/' then (.remark cs.tail, [])
  else if c = '/' ∧ cs.head? = some '*' then
    match splitBlock? cs.tail with
    | none => (.block true cs.tail false, [])
    | some (text, rest) => (.block true text true, rest)
  else (.code c, cs)

/-- The first part of a text outside comments, and what follows it. -/
inductive StartsWith : List Char → Part → List Char → Prop where
  | code {c cs} (hquote : c ≠ '\'' ∧ c ≠ '"')
      (hmark : c = '/' → cs.head? ≠ some '/' ∧ cs.head? ≠ some '*') :
    StartsWith (c :: cs) (.code c) cs
  | apostrophe {cs} (h : (splitCharacter cs).1 = []) : StartsWith ('\'' :: cs) (.code '\'') cs
  | character {cs lit rest} (h : splitCharacter cs = (lit, rest)) (hne : lit ≠ []) :
    StartsWith ('\'' :: cs) (.literal ('\'' :: lit)) rest
  | string {cs lit rest} (h : splitString cs = (lit, rest)) :
    StartsWith ('"' :: cs) (.literal ('"' :: lit)) rest
  | remark {cs} : StartsWith ('/' :: '/' :: cs) (.remark cs) []
  | openBlock {cs} (h : splitBlock? cs = none) :
    StartsWith ('/' :: '*' :: cs) (.block true cs false) []
  | block {cs text rest} (h : splitBlock? cs = some (text, rest)) :
    StartsWith ('/' :: '*' :: cs) (.block true text true) rest

variable {c : Char} {cs text rest : List Char} {p : Part} {ps : List Part}

theorem startsWith_nextPart (c : Char) (cs : List Char) :
    StartsWith (c :: cs) (nextPart c cs).1 (nextPart c cs).2 := by
  unfold nextPart
  split
  · next hc =>
    subst hc
    split
    · next h => exact .apostrophe h
    · next h => exact .character rfl h
  · next hapostrophe =>
    split
    · next hc =>
      subst hc
      exact .string rfl
    · next hquote =>
      split
      · next h =>
        obtain ⟨rfl, hcs⟩ := h
        obtain ⟨ds, rfl⟩ := List.head?_eq_some_iff.mp hcs
        exact .remark
      · next hremark =>
        split
        · next h =>
          obtain ⟨rfl, hcs⟩ := h
          obtain ⟨ds, rfl⟩ := List.head?_eq_some_iff.mp hcs
          rw [List.tail_cons]
          split
          · next hsplit => exact .openBlock hsplit
          · next hsplit => exact .block hsplit
        · next hblock =>
          exact .code ⟨hapostrophe, hquote⟩ fun hc =>
            ⟨fun hcs => hremark ⟨hc, hcs⟩, fun hcs => hblock ⟨hc, hcs⟩⟩

/-- The first part is determined. -/
theorem nextPart_of_startsWith (h : StartsWith (c :: cs) p rest) : nextPart c cs = (p, rest) := by
  cases h with
  | code hquote hmark =>
    rw [nextPart, if_neg hquote.1, if_neg hquote.2, if_neg fun h => (hmark h.1).1 h.2,
      if_neg fun h => (hmark h.1).2 h.2]
  | apostrophe h => simp [nextPart, h]
  | character h hne => simp [nextPart, h, hne]
  | string h => simp [nextPart, h]
  | remark => simp [nextPart]
  | openBlock h => simp [nextPart, h]
  | block h => simp [nextPart, h]

theorem append_of_splitBlock? (h : splitBlock? cs = some (text, rest)) :
    text ++ '*' :: '/' :: rest = cs := by
  fun_induction splitBlock? cs generalizing text with
  | case1 => simp at h
  | case2 => cases h; rfl
  | case3 c cs _ ih =>
    simp only [Option.map_eq_some_iff, Prod.exists, Prod.mk.injEq] at h
    obtain ⟨t, r, h, rfl, rfl⟩ := h
    rw [List.cons_append, ih h]

theorem StartsWith.written_append (h : StartsWith cs p rest) : p.written ++ rest = cs := by
  cases h with
  | code | apostrophe | remark => simp [Part.written]
  | @character ds lit rest h =>
    have happ := append_splitCharacter ds
    rw [h] at happ
    simp [Part.written, happ]
  | @string ds lit rest h =>
    have happ := append_splitString ds
    rw [h] at happ
    simp [Part.written, happ]
  | openBlock => simp [Part.written]
  | block h => simp [Part.written, append_of_splitBlock? h]

theorem StartsWith.written_ne_nil (h : StartsWith cs p rest) : p.written ≠ [] := by
  cases h <;> simp [Part.written]

theorem length_nextPart_le (c : Char) (cs : List Char) : (nextPart c cs).2.length ≤ cs.length := by
  have h := startsWith_nextPart c cs
  have hlength := congrArg List.length h.written_append
  have hpos := List.length_pos_iff.mpr h.written_ne_nil
  simp only [List.length_append, List.length_cons] at hlength
  omega

/-- The parts of the rest of a line, outside comments. -/
def codeParts : List Char → List Part
  | [] => []
  | c :: cs => (nextPart c cs).1 :: codeParts (nextPart c cs).2
termination_by cs => cs.length
decreasing_by exact Nat.lt_succ_of_le (length_nextPart_le c cs)

theorem StartsWith.codeParts_eq (h : StartsWith cs p rest) :
    codeParts cs = p :: codeParts rest := by
  cases cs with
  | nil => cases h
  | cons c cs => rw [codeParts, nextPart_of_startsWith h]

theorem exists_startsWith (h : codeParts cs = p :: ps) :
    ∃ rest, StartsWith cs p rest ∧ codeParts rest = ps := by
  cases cs with
  | nil => simp [codeParts] at h
  | cons c cs =>
    rw [codeParts, List.cons.injEq] at h
    exact ⟨(nextPart c cs).2, h.1 ▸ startsWith_nextPart c cs, h.2⟩

theorem written_codeParts (cs : List Char) : writtenParts (codeParts cs) = cs := by
  fun_induction codeParts cs with
  | case1 => rfl
  | case2 c cs ih =>
    rw [writtenParts, List.flatMap_cons]
    rw [writtenParts] at ih
    rw [ih, (startsWith_nextPart c cs).written_append]

/-- The parts of a line, which a block comment may reach. -/
def lineParts (inside : Bool) (cs : List Char) : List Part :=
  if inside then
    match splitBlock? cs with
    | none => [.block false cs false]
    | some (text, rest) => .block false text true :: codeParts rest
  else codeParts cs

theorem written_lineParts (inside : Bool) (cs : List Char) :
    writtenParts (lineParts inside cs) = cs := by
  unfold lineParts
  split
  · split
    · simp [writtenParts, Part.written]
    · next text rest h =>
      have happ := append_of_splitBlock? h
      have hrest := written_codeParts rest
      rw [writtenParts] at hrest
      simp [writtenParts, Part.written, hrest, happ]
  · exact written_codeParts cs

/-- What a line holds, told by its parts: `seen` says whether code stands before them, and `block`
is the comment that reaches them. -/
def scanParts (number : Nat) (seen : Bool) (block : Option OpenComment) : List Part → LineScan
  | [] => ⟨[], [], block⟩
  | .code c :: ps => (scanParts number (seen || !isBlank c) block ps).consCode [c]
  | .literal text :: ps => (scanParts number true block ps).consCode text
  | .remark text :: ps => (scanParts number seen block ps).consClosed number ⟨trim text, seen⟩
  | .block opens text closes :: ps =>
    let o : OpenComment := if opens then ⟨number, [], seen⟩ else block.getD ⟨number, [], seen⟩
    let s := if closes then (scanParts number seen none ps).consClosed o.line (o.close text)
      else scanParts number seen (some (o.extend text)) ps
    if opens then s.consCode [' '] else s

theorem codeParts_nil : codeParts [] = [] := by simp [codeParts]

theorem scanCode_eq (number : Nat) (seen : Bool) (cs : List Char) :
    scanCode number seen cs = scanParts number seen none (codeParts cs) := by
  fun_induction scanCode number seen cs with
  | case1 => rw [codeParts_nil, scanParts]
  | case2 seen rest =>
    rw [StartsWith.remark.codeParts_eq, codeParts_nil]
    rfl
  | case3 seen rest opened hsplit =>
    rw [(StartsWith.openBlock hsplit).codeParts_eq, codeParts_nil]
    rfl
  | case4 seen rest opened text rest' hsplit ih =>
    rw [(StartsWith.block hsplit).codeParts_eq, ih]
    rfl
  | case5 seen rest ih =>
    have happ := append_splitCharacter rest
    by_cases hlone : (splitCharacter rest).1 = []
    · rw [(StartsWith.apostrophe hlone).codeParts_eq, ih, hlone]
      rw [hlone, List.nil_append] at happ
      rw [happ, scanParts]
      simp only [show isBlank '\'' = false from rfl, Bool.not_false, Bool.or_true]
    · rw [(StartsWith.character rfl hlone).codeParts_eq, ih]
      rfl
  | case6 seen rest ih =>
    rw [(StartsWith.string rfl).codeParts_eq, ih]
    rfl
  | case7 seen c rest hremark hblock hapostrophe hquote ih =>
    have hcode : StartsWith (c :: rest) (.code c) rest := by
      refine .code ⟨hapostrophe, hquote⟩ fun hc => ⟨fun hrest => ?_, fun hrest => ?_⟩
      · obtain ⟨ds, hds⟩ := List.head?_eq_some_iff.mp hrest
        exact hremark ds hc hds
      · obtain ⟨ds, hds⟩ := List.head?_eq_some_iff.mp hrest
        exact hblock ds hc hds
    rw [hcode.codeParts_eq, ih]
    rfl

/-- The scan of a line is told by its parts. -/
theorem scanLine_eq (number : Nat) (block : Option OpenComment) (cs : List Char) :
    scanLine number block cs = scanParts number false block (lineParts block.isSome cs) := by
  cases block with
  | none => exact scanCode_eq number false cs
  | some o =>
    cases h : splitBlock? cs with
    | none => simp [scanLine, lineParts, h, scanParts]
    | some x => simp [scanLine, lineParts, h, scanParts, scanCode_eq]

end MacroSweep.Source
