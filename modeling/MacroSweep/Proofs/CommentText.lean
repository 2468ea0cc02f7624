import MacroSweep.Proofs.LineParts

/-! The text of a comment is opaque to its line: with another text in the comment the scan takes all
other parts of the line as before. The part that starts at a character depends on what follows only
where a literal looks for the apostrophe that closes it. -/
namespace MacroSweep.Source

open Text

/-- The mark that closes a block comment. -/
def blockEnd : List Char := ['*', '/']

/-- The text of a part, without the marks of a comment. -/
def Part.text : Part → List Char
  | code c => [c]
  | literal text | remark text | block _ text _ => text

/-- The mark that opens a comment, if the part has it. -/
def Part.opening : Part → List Char
  | remark _ => ['/', '/']
  | block true _ _ => ['/', '*']
  | _ => []

/-- The mark that closes a comment, if the part has it. -/
def Part.closing : Part → List Char
  | block _ _ true => blockEnd
  | _ => []

/-- A part of a comment with another text. Other parts stay. -/
def Part.withText (t : List Char) : Part → Part
  | code c => code c
  | literal text => literal text
  | remark _ => remark t
  | block opens _ closes => block opens t closes

/-- Whether a part belongs to a comment that can have `t` for its text there. -/
def Part.Admits (t : List Char) : Part → Prop
  | code _ | literal _ => False
  | remark _ => '\n' ∉ t ∧ '\'' ∉ t
  | block _ _ _ => '\n' ∉ t ∧ '\'' ∉ t ∧ ¬ blockEnd <:+: t

/-- Whether nothing can follow a part on its line. -/
def Part.isLast : Part → Bool
  | remark _ => true
  | block _ _ closes => !closes
  | _ => false

variable {c : Char} {cs text rest rest' lit t : List Char} {p q : Part} {left right : List Part}

/-- Whether an apostrophe ends a literal in a text. A backslash takes the next character with it,
and `escaped` says that one stands before the text. -/
def hasEnd : Bool → List Char → Bool
  | _, [] => false
  | true, _ :: cs => hasEnd false cs
  | false, c :: cs => c == '\'' || hasEnd (c == '\\') cs

/-- Whether the last character of a text is a backslash that takes the next character with it. -/
def endsEscaped (escaped : Bool) (cs : List Char) : Bool :=
  cs.foldl (fun escaped c => !escaped && c == '\\') escaped

theorem hasEnd_append (escaped : Bool) (cs ds : List Char) :
    hasEnd escaped (cs ++ ds) = (hasEnd escaped cs || hasEnd (endsEscaped escaped cs) ds) := by
  induction cs generalizing escaped with
  | nil => simp [hasEnd, endsEscaped]
  | cons c cs ih => cases escaped <;> simp [hasEnd, endsEscaped, ih, Bool.or_assoc]

theorem hasEnd_of_notMem (h : '\'' ∉ cs) (escaped : Bool) : hasEnd escaped cs = false := by
  induction cs generalizing escaped with
  | nil => simp [hasEnd]
  | cons c cs ih =>
    obtain ⟨hc, hcs⟩ := not_or.mp (List.mem_cons.not.mp h)
    cases escaped <;> simp [hasEnd, ih hcs, Ne.symm hc]

/-- Behind the mark that closes a comment, a backslash at the end of its text has no effect. -/
theorem hasEnd_mark (escaped : Bool) (cs : List Char) :
    hasEnd escaped ('*' :: '/' :: cs) = hasEnd false cs := by
  cases escaped <;> rfl

theorem ne_backslash (hend : c = '\\' → cs = [] → False)
    (hescape : ∀ d ds, c = '\\' → cs = d :: ds → False) : c ≠ '\\' := by
  rintro rfl
  cases cs with
  | nil => exact hend rfl rfl
  | cons d ds => exact hescape d ds rfl rfl

theorem splitEscaped?_eq_none_iff : splitEscaped? cs = none ↔ hasEnd false cs = false := by
  fun_induction splitEscaped? cs with
  | case1 => simp [hasEnd]
  | case2 => simp [hasEnd]
  | case3 => simp [hasEnd]
  | case4 c rest ih => simpa [hasEnd] using ih
  | case5 c rest hquote hend hescape ih =>
    have hquote' : (c == '\'') = false := beq_false_of_ne hquote
    have hslash : (c == '\\') = false := beq_false_of_ne (ne_backslash hend hescape)
    rw [Option.map_eq_none_iff, ih, hasEnd, hquote', hslash, Bool.false_or]

theorem splitEscaped?_append (h : splitEscaped? cs = some (lit, rest)) (rest' : List Char) :
    splitEscaped? (lit ++ rest') = some (lit, rest') := by
  fun_induction splitEscaped? cs generalizing lit with
  | case1 => simp at h
  | case2 => cases h; simp [splitEscaped?]
  | case3 => simp at h
  | case4 c cs ih =>
    simp only [Option.map_eq_some_iff, Prod.exists, Prod.mk.injEq] at h
    obtain ⟨l, r, h, rfl, rfl⟩ := h
    simp [splitEscaped?, ih h]
  | case5 c cs hquote hend hescape ih =>
    simp only [Option.map_eq_some_iff, Prod.exists, Prod.mk.injEq] at h
    obtain ⟨l, r, h, rfl, rfl⟩ := h
    have hslash := ne_backslash hend hescape
    rw [List.cons_append, splitEscaped?, ih h]
    · rfl
    · exact hquote
    · exact fun hc _ => hslash hc
    · exact fun _ _ hc _ => hslash hc

theorem splitString_append (h : splitString cs = (lit, rest)) (hne : rest ≠ [])
    (rest' : List Char) : splitString (lit ++ rest') = (lit, rest') := by
  fun_induction splitString cs generalizing lit with
  | case1 => exact absurd (Prod.mk.inj h).2.symm hne
  | case2 => cases h; simp [splitString]
  | case3 c cs l r hsplit ih =>
    obtain ⟨rfl, rfl⟩ := Prod.mk.inj h
    simp [splitString, ih hsplit]
  | case4 c cs hquote hescape l r hsplit ih =>
    obtain ⟨rfl, rfl⟩ := Prod.mk.inj h
    have hslash : c ≠ '\\' := by
      rintro rfl
      cases cs with
      | nil => exact absurd (Prod.mk.inj hsplit).2.symm hne
      | cons d cs => exact hescape d cs rfl rfl
    rw [List.cons_append, splitString, ih hsplit]
    · exact hquote
    · exact fun _ _ hc => absurd hc hslash

theorem splitCharacter_cons_cons (a b : Char) (cs : List Char) :
    splitCharacter (a :: b :: cs) =
      if a = '\\' then
        match splitEscaped? cs with
        | some (lit, rest) => (a :: b :: lit, rest)
        | none => ([], a :: b :: cs)
      else if b = '\'' then ([a, b], cs) else ([], a :: b :: cs) := by
  by_cases ha : a = '\\'
  · rw [if_pos ha, ha]
    rfl
  · rw [if_neg ha]
    by_cases hb : b = '\''
    · rw [if_pos hb, hb, splitCharacter]
      exact ha
    · rw [if_neg hb, splitCharacter]
      · exact fun _ _ h => absurd (List.cons.inj h).1 ha
      · exact fun _ _ h => absurd (List.cons.inj (List.cons.inj h).2).1 hb

/-- The two forms of a character literal: an escape up to the apostrophe that closes it, or one
character. -/
theorem exists_of_splitCharacter (h : splitCharacter cs = (lit, rest)) (hne : lit ≠ []) :
    (∃ b ds l, cs = '\\' :: b :: ds ∧ splitEscaped? ds = some (l, rest) ∧
        lit = '\\' :: b :: l) ∨
      ∃ a, a ≠ '\\' ∧ cs = a :: '\'' :: rest ∧ lit = [a, '\''] := by
  match cs with
  | [] => exact absurd (Prod.mk.inj h).1.symm hne
  | [a] =>
    have hlone : splitCharacter [a] = ([], [a]) := by rw [splitCharacter] <;> simp
    exact absurd (Prod.mk.inj (hlone.symm.trans h)).1.symm hne
  | a :: b :: ds =>
    rw [splitCharacter_cons_cons] at h
    split at h
    · next ha =>
      split at h
      · next l r hsplit =>
        obtain ⟨rfl, rfl⟩ := Prod.mk.inj h
        exact .inl ⟨b, ds, l, by rw [ha], hsplit, by rw [ha]⟩
      · exact absurd (Prod.mk.inj h).1.symm hne
    · next ha =>
      split at h
      · next hb =>
        obtain ⟨rfl, rfl⟩ := Prod.mk.inj h
        exact .inr ⟨a, ha, by rw [hb], by rw [hb]⟩
      · exact absurd (Prod.mk.inj h).1.symm hne

theorem splitBlock?_cons (c : Char) (cs : List Char) :
    splitBlock? (c :: cs) = if c = '*' ∧ cs.head? = some '/' then some ([], cs.tail)
      else (splitBlock? cs).map fun (text, rest) => (c :: text, rest) := by
  rw [splitBlock?.eq_def]
  split
  · next h => cases h
  · next h => cases h; simp
  · next hmark h =>
    cases h
    rw [if_neg]
    rintro ⟨hc, hcs⟩
    obtain ⟨ds, hds⟩ := List.head?_eq_some_iff.mp hcs
    exact hmark ds hc hds

theorem blockEnd_infix_cons :
    blockEnd <:+: c :: cs ↔ (c = '*' ∧ cs.head? = some '/') ∨ blockEnd <:+: cs := by
  have hhead : ['/'] <+: cs ↔ cs.head? = some '/' := by
    cases cs with
    | nil => simp
    | cons d cs => rw [List.cons_prefix_cons, List.head?_cons, Option.some.injEq, eq_comm]; simp
  rw [List.infix_cons_iff, blockEnd, List.cons_prefix_cons, eq_comm, hhead]

theorem splitBlock?_eq_none_iff : splitBlock? cs = none ↔ ¬ blockEnd <:+: cs := by
  induction cs with
  | nil => simp [splitBlock?, blockEnd]
  | cons c cs ih =>
    rw [splitBlock?_cons, blockEnd_infix_cons]
    split <;> simp_all

theorem splitBlock?_append (h : ¬ blockEnd <:+: text) (rest : List Char) :
    splitBlock? (text ++ '*' :: '/' :: rest) = some (text, rest) := by
  induction text with
  | nil => simp [splitBlock?_cons]
  | cons c text ih =>
    rw [blockEnd_infix_cons, not_or] at h
    rw [List.cons_append, splitBlock?_cons, if_neg, ih h.2]
    · rfl
    · rintro ⟨hc, hhead⟩
      cases text with
      | nil => simp at hhead
      | cons d text => exact h.1 ⟨hc, hhead⟩

theorem not_infix_of_splitBlock? (h : splitBlock? cs = some (text, rest)) :
    ¬ blockEnd <:+: text := by
  induction cs generalizing text with
  | nil => simp [splitBlock?] at h
  | cons c cs ih =>
    rw [splitBlock?_cons] at h
    split at h
    · cases h
      simp [blockEnd]
    · next hmark =>
      simp only [Option.map_eq_some_iff, Prod.exists, Prod.mk.injEq] at h
      obtain ⟨t, r, h, rfl, rfl⟩ := h
      rw [blockEnd_infix_cons, not_or]
      refine ⟨fun ⟨hc, hhead⟩ => hmark ⟨hc, ?_⟩, ih h⟩
      rw [← append_of_splitBlock? h]
      cases t with
      | nil => simp at hhead
      | cons d t => exact hhead

/-- Texts that go on alike for two characters, where the second closes no literal that the first
leaves open. -/
def Masks (rest rest' : List Char) : Prop :=
  ∃ v x y, rest = v ++ x ∧ rest' = v ++ y ∧ 2 ≤ v.length ∧
    ∀ escaped, hasEnd escaped x = false → hasEnd escaped y = false

theorem Masks.head? (h : Masks rest rest') : rest'.head? = rest.head? := by
  obtain ⟨v, x, y, rfl, rfl, hv, -⟩ := h
  cases v with
  | nil => simp at hv
  | cons a v => rfl

theorem Masks.ne_nil (h : Masks rest rest') : rest ≠ [] := by
  obtain ⟨v, x, y, rfl, rfl, hv, -⟩ := h
  cases v with
  | nil => simp at hv
  | cons a v => simp

theorem Masks.splitCharacter_eq_nil (h : Masks rest rest') (hlone : (splitCharacter rest).1 = []) :
    (splitCharacter rest').1 = [] := by
  obtain ⟨v, x, y, rfl, rfl, hv, hmask⟩ := h
  match v, hv with
  | a :: b :: v, _ =>
    simp only [List.cons_append, splitCharacter_cons_cons] at hlone ⊢
    split
    · next ha =>
      rw [if_pos ha] at hlone
      have hnone : splitEscaped? (v ++ x) = none := by
        cases h : splitEscaped? (v ++ x) with
        | none => rfl
        | some r => simp [h] at hlone
      rw [splitEscaped?_eq_none_iff, hasEnd_append, Bool.or_eq_false_iff] at hnone
      have hnone' : splitEscaped? (v ++ y) = none := by
        rw [splitEscaped?_eq_none_iff, hasEnd_append, hnone.1, hmask _ hnone.2]
        rfl
      rw [hnone']
    · next ha =>
      rw [if_neg ha] at hlone
      split
      · next hb => simp [hb] at hlone
      · rfl

theorem splitCharacter_append (h : splitCharacter cs = (lit, rest)) (hne : lit ≠ [])
    (rest' : List Char) : splitCharacter (lit ++ rest') = (lit, rest') := by
  obtain ⟨b, ds, l, rfl, hsplit, rfl⟩ | ⟨a, ha, rfl, rfl⟩ := exists_of_splitCharacter h hne
  · simp [splitCharacter_cons_cons, splitEscaped?_append hsplit rest']
  · simp [splitCharacter_cons_cons, ha]

/-- What stands behind a part matters for it only as far as it can close a literal. -/
theorem StartsWith.congr (h : StartsWith cs q rest) (hmask : Masks rest rest') :
    StartsWith (q.written ++ rest') q rest' := by
  cases h with
  | code hquote hmark =>
    rw [← hmask.head?] at hmark
    exact .code hquote hmark
  | apostrophe h => exact .apostrophe (hmask.splitCharacter_eq_nil h)
  | character h hne => exact .character (splitCharacter_append h hne rest') hne
  | string h => exact .string (splitString_append h hmask.ne_nil rest')
  | remark | openBlock => exact absurd rfl hmask.ne_nil
  | block h =>
    simp only [Part.written, if_true, List.append_assoc, List.cons_append, List.nil_append]
    exact .block (splitBlock?_append (not_infix_of_splitBlock? h) rest')

theorem Part.written_eq (p : Part) : p.written = p.opening ++ p.text ++ p.closing := by
  cases p with
  | code | literal | remark => simp [written, opening, text, closing]
  | block opens text closes => cases opens <;> cases closes <;> rfl

theorem Part.Admits.written_withText (h : p.Admits t) :
    (p.withText t).written = p.opening ++ t ++ p.closing := by
  cases p with
  | code | literal => exact h.elim
  | remark => simp [withText, written, opening, closing]
  | block opens text closes => cases opens <;> cases closes <;> rfl

theorem Part.Admits.feed_notMem (h : p.Admits t) : '\n' ∉ t := by
  cases p with
  | code | literal => exact h.elim
  | remark | block => exact h.1

theorem Part.Admits.apostrophe_notMem (h : p.Admits t) : '\'' ∉ t := by
  cases p with
  | code | literal => exact h.elim
  | remark => exact h.2
  | block => exact h.2.1

theorem StartsWith.rest_eq_nil (h : StartsWith cs p rest) (hlast : p.isLast) : rest = [] := by
  cases h <;> simp_all [Part.isLast]

theorem exists_startsWith_of_append (h : codeParts cs = left ++ p :: right) :
    ∃ ds rest, StartsWith ds p rest ∧ codeParts rest = right := by
  induction left generalizing cs with
  | nil => exact ⟨cs, exists_startsWith h⟩
  | cons q left ih =>
    obtain ⟨rest, -, hrest⟩ := exists_startsWith h
    exact ih hrest

theorem eq_nil_of_isLast (h : codeParts cs = left ++ p :: right) (hlast : p.isLast) :
    right = [] := by
  obtain ⟨ds, rest, hstart, rfl⟩ := exists_startsWith_of_append h
  rw [hstart.rest_eq_nil hlast, codeParts_nil]

theorem writtenParts_append (ps qs : List Part) :
    writtenParts (ps ++ qs) = writtenParts ps ++ writtenParts qs := List.flatMap_append

theorem writtenParts_cons (p : Part) (ps : List Part) :
    writtenParts (p :: ps) = p.written ++ writtenParts ps := List.flatMap_cons

theorem writtenParts_eq (left : List Part) (p : Part) (right : List Part) :
    writtenParts (left ++ p :: right) =
      (writtenParts left ++ p.opening) ++ (p.text ++ (p.closing ++ writtenParts right)) := by
  simp [writtenParts_append, writtenParts_cons, p.written_eq]

theorem Part.Admits.writtenParts_eq (h : p.Admits t) (left right : List Part) :
    writtenParts (left ++ p.withText t :: right) =
      (writtenParts left ++ p.opening) ++ (t ++ (p.closing ++ writtenParts right)) := by
  simp [writtenParts_append, writtenParts_cons, h.written_withText]

theorem Part.Admits.two_le_length_opening (h : p.Admits t)
    (hopens : ∀ text closes, p ≠ .block false text closes) : 2 ≤ p.opening.length := by
  cases p with
  | code | literal => exact h.elim
  | remark => simp [opening]
  | block opens text closes =>
    cases opens with
    | false => exact absurd rfl (hopens text closes)
    | true => simp [opening]

theorem Part.Admits.closing_eq (h : p.Admits t) :
    p.isLast ∧ p.closing = [] ∨ p.closing = blockEnd := by
  cases p with
  | code | literal => exact h.elim
  | remark => exact .inl ⟨rfl, rfl⟩
  | block opens text closes => cases closes <;> simp [isLast, closing]

/-- Another text of a comment closes no literal that is left open before it. -/
theorem masks_withText (hp : p.Admits t) (hopens : ∀ text closes, p ≠ .block false text closes)
    (hlast : p.isLast → right = []) (left : List Part) :
    Masks (writtenParts (left ++ p :: right)) (writtenParts (left ++ p.withText t :: right)) := by
  refine ⟨_, _, _, writtenParts_eq left p right, hp.writtenParts_eq left right, ?_,
    fun escaped h => ?_⟩
  · have := hp.two_le_length_opening hopens
    rw [List.length_append]
    omega
  · have hnone := hasEnd_of_notMem hp.apostrophe_notMem escaped
    rw [hasEnd_append, Bool.or_eq_false_iff] at h ⊢
    refine ⟨hnone, ?_⟩
    obtain ⟨hend, hclosing⟩ | hclosing := hp.closing_eq
    · rw [hclosing, hlast hend]
      cases endsEscaped escaped t <;> rfl
    · rw [hclosing, blockEnd, List.cons_append, List.cons_append, hasEnd_mark] at h ⊢
      exact h.2

theorem codeParts_ne_continued (h : codeParts cs = left ++ p :: right) (text : List Char)
    (closes : Bool) : p ≠ .block false text closes := by
  rintro rfl
  obtain ⟨ds, rest, hstart, -⟩ := exists_startsWith_of_append h
  cases hstart

theorem codeParts_withText (h : codeParts cs = left ++ p :: right) (hp : p.Admits t) :
    codeParts (writtenParts (left ++ p.withText t :: right)) = left ++ p.withText t :: right := by
  induction left generalizing cs with
  | nil =>
    obtain ⟨rest, hstart, rfl⟩ := exists_startsWith h
    rw [List.nil_append, writtenParts_cons, written_codeParts]
    suffices StartsWith ((p.withText t).written ++ rest) (p.withText t) rest from this.codeParts_eq
    cases hstart with
    | code | apostrophe | character | string => exact hp.elim
    | remark =>
      rw [List.append_nil]
      exact .remark
    | openBlock =>
      have hstart := StartsWith.openBlock (splitBlock?_eq_none_iff.mpr hp.2.2)
      simpa [Part.withText, Part.written] using hstart
    | block h =>
      have hstart := StartsWith.block (splitBlock?_append hp.2.2 rest)
      simpa [Part.withText, Part.written] using hstart
  | cons q left ih =>
    rw [List.cons_append] at h
    obtain ⟨rest, hstart, hrest⟩ := exists_startsWith h
    have hmask := masks_withText hp (codeParts_ne_continued hrest) (eq_nil_of_isLast hrest) left
    rw [← hrest, written_codeParts] at hmask
    rw [List.cons_append, writtenParts_cons, (hstart.congr hmask).codeParts_eq, ih hrest]

theorem lineParts_of_splitBlock? (h : splitBlock? cs = some (text, rest)) :
    lineParts true cs = .block false text true :: codeParts rest := by
  simp [lineParts, h]

theorem lineParts_of_splitBlock?_eq_none (h : splitBlock? cs = none) :
    lineParts true cs = [.block false cs false] := by
  simp [lineParts, h]

/-- A comment with another text leaves all other parts of the line as they are. -/
theorem lineParts_withText {inside : Bool} (h : lineParts inside cs = left ++ p :: right)
    (hp : p.Admits t) : lineParts inside (writtenParts (left ++ p.withText t :: right)) =
      left ++ p.withText t :: right := by
  cases inside with
  | false => exact codeParts_withText h hp
  | true =>
    cases hsplit : splitBlock? cs with
    | none =>
      rw [lineParts_of_splitBlock?_eq_none hsplit] at h
      obtain ⟨rfl, h⟩ | ⟨-, h⟩ := List.singleton_eq_append_iff.mp h
      · obtain ⟨rfl, rfl⟩ := List.cons.inj h
        have hnone := splitBlock?_eq_none_iff.mpr hp.2.2
        simp [lineParts, writtenParts, Part.written, Part.withText, hnone]
      · cases h
    | some x =>
      obtain ⟨text, rest⟩ := x
      rw [lineParts_of_splitBlock? hsplit] at h
      cases left with
      | nil =>
        obtain ⟨rfl, rfl⟩ := List.cons.inj h
        have hparts := lineParts_of_splitBlock? (splitBlock?_append hp.2.2 rest)
        simpa [writtenParts_cons, written_codeParts, Part.withText, Part.written] using hparts
      | cons q left =>
        obtain ⟨rfl, hrest⟩ := List.cons.inj h
        have hplain := not_infix_of_splitBlock? hsplit
        have hparts := lineParts_of_splitBlock?
          (splitBlock?_append hplain (writtenParts (left ++ p.withText t :: right)))
        rw [codeParts_withText hrest hp] at hparts
        simpa [writtenParts_cons, Part.written] using hparts

end MacroSweep.Source
