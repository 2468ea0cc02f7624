import MacroSweep.Proofs.Layout
import MacroSweep.Walk.CodeNames

/-! The names of a line of code, against the identifiers outside of its literals as the scan
delimits them. The two agree up to the first apostrophe that is no literal for the scan, or that
closes one by itself: for the names it opens a literal. -/
namespace MacroSweep.Walk

open Source Text

/-- The identifiers among the words of a text. -/
def identifiers (cs : List Char) : List String :=
  ((cs.splitOnP (!isWordChar ·)).filter isIdentifier).map String.ofList

/-- What a part leaves outside of literals. -/
def outsidePart : Part → List Char
  | .literal _ => [' ']
  | p => p.coded

/-- The identifiers of a line outside of literals, as the scan delimits them. -/
def namesOutside (ps : List Part) : List String := identifiers (ps.flatMap outsidePart)

/-- Whether a part has an apostrophe that opens a literal for the names and none for the scan. -/
def isStray : Part → Bool
  | .code c => c == '\''
  | .literal text => text == ['\'', '\'', '\'']
  | _ => false

variable {c d : Char} {cs w lit rest : List Char}

theorem isWordStart_or_isDigit (h : isWordChar c) : isWordStart c ∨ c.isDigit := by
  simp only [isWordChar, isWordStart, Char.isAlphanum, Bool.or_eq_true] at h ⊢
  tauto

theorem ne_quote_of_isWordChar (h : isWordChar c) : ¬ (c = '"' ∨ c = '\'') := by
  rintro (rfl | rfl) <;> exact absurd h (by decide)

theorem identifiers_of_word (hw : ∀ c ∈ w, isWordChar c) :
    identifiers w = if isIdentifier w then [String.ofList w] else [] := by
  have hsplit : w.splitOnP (!isWordChar ·) = [w] :=
    List.splitOnP_eq_singleton fun c hc => by simp [hw c hc]
  rw [identifiers, hsplit]
  cases h : isIdentifier w <;> simp [h]

theorem identifiers_append (hc : isWordChar c = false) (cs ds : List Char) :
    identifiers (cs ++ c :: ds) = identifiers cs ++ identifiers ds := by
  have hsep : (!isWordChar c) = true := by rw [hc]; rfl
  simp [identifiers, List.splitOnP_append_cons (p := (!isWordChar ·)) cs ds hsep]

theorem codeNames_quote (hc : c = '"' ∨ c = '\'') (cs : List Char) :
    codeNames (c :: cs) = codeNames (afterLiteral c cs) := by
  rw [codeNames, if_pos hc]

theorem codeNames_other (hquote : ¬ (c = '"' ∨ c = '\'')) (hc : isWordChar c = false)
    (cs : List Char) : codeNames (c :: cs) = codeNames cs := by
  rw [codeNames, if_neg hquote, if_neg, if_neg]
  · intro h
    simp [isWordChar_of_isDigit h] at hc
  · intro h
    simp [isWordChar_of_isWordStart h] at hc

theorem codeNames_word (hw : ∀ c ∈ w, isWordChar c) (hd : ∀ d ∈ cs.head?, isWordChar d = false) :
    codeNames (w ++ cs) = identifiers w ++ codeNames cs := by
  rw [identifiers_of_word hw]
  cases w with
  | nil => simp [isIdentifier]
  | cons a w =>
    obtain ⟨ha, hw⟩ := List.forall_mem_cons.mp hw
    have htake : (w ++ cs).takeWhile isWordChar = w := by
      rw [List.takeWhile_append_of_pos hw]
      cases cs with
      | nil => simp
      | cons d cs => simp [hd d rfl]
    have hdrop : (w ++ cs).dropWhile isWordChar = cs := by
      rw [List.dropWhile_append_of_pos hw]
      cases cs with
      | nil => rfl
      | cons d cs => simp [hd d rfl]
    have hall : w.all isWordChar := List.all_eq_true.mpr hw
    rw [List.cons_append, codeNames, if_neg (ne_quote_of_isWordChar ha), htake, hdrop]
    by_cases hstart : isWordStart a
    · simp [isIdentifier, hstart, hall]
    · have hdigit := (isWordStart_or_isDigit ha).resolve_left hstart
      simp [isIdentifier, hstart, hdigit]

theorem afterLiteral_cons {quote : Char} (hc : c ≠ '\\') (cs : List Char) :
    afterLiteral quote (c :: cs) = if c = quote then cs else afterLiteral quote cs := by
  rw [afterLiteral]
  exact fun _ _ h => absurd h hc

/-- Both readings end a string at the same quote. -/
theorem afterLiteral_eq_splitString (cs : List Char) :
    afterLiteral '"' cs = (splitString cs).2 := by
  fun_induction splitString cs with
  | case1 => rfl
  | case2 => simp [afterLiteral]
  | case3 c cs l r hsplit ih => simpa [afterLiteral, hsplit] using ih
  | case4 c cs hquote hescape l r hsplit ih =>
    cases cs with
    | nil =>
      cases hsplit
      simp [afterLiteral]
    | cons d cs =>
      have hc : c ≠ '\\' := fun h => hescape d cs h rfl
      rw [afterLiteral_cons hc, if_neg hquote, ih, hsplit]

theorem afterLiteral_of_splitEscaped? (h : splitEscaped? cs = some (lit, rest)) :
    afterLiteral '\'' cs = rest := by
  fun_induction splitEscaped? cs generalizing lit with
  | case1 => simp at h
  | case2 => cases h; simp [afterLiteral]
  | case3 => simp at h
  | case4 c cs ih =>
    simp only [Option.map_eq_some_iff, Prod.exists, Prod.mk.injEq] at h
    obtain ⟨l, r, h, -, rfl⟩ := h
    rw [afterLiteral, ih h]
  | case5 c cs hquote hend hescape ih =>
    simp only [Option.map_eq_some_iff, Prod.exists, Prod.mk.injEq] at h
    obtain ⟨l, r, h, -, rfl⟩ := h
    rw [afterLiteral_cons (ne_backslash hend hescape), if_neg hquote, ih h]

/-- Both readings end a character literal at the same apostrophe, but for one. -/
theorem afterLiteral_of_splitCharacter (h : splitCharacter cs = (lit, rest)) (hne : lit ≠ [])
    (hstray : lit ≠ ['\'', '\'']) : afterLiteral '\'' cs = rest := by
  obtain ⟨b, ds, l, rfl, hsplit, rfl⟩ | ⟨a, ha, rfl, rfl⟩ := exists_of_splitCharacter h hne
  · rw [afterLiteral, afterLiteral_of_splitEscaped? hsplit]
  · have hquote : a ≠ '\'' := by
      rintro rfl
      exact hstray rfl
    rw [afterLiteral_cons ha, if_neg hquote, afterLiteral_cons (by decide), if_pos rfl]

/-- What the names of a line lose behind a stray apostrophe, which opens a literal for them. -/
def namesBehind : List Part → List String
  | [] => []
  | _ :: ps => codeNames (afterLiteral '\'' (ps.flatMap Part.coded))

theorem codeNames_word_quote (hw : ∀ c ∈ w, isWordChar c) (hc : c = '"' ∨ c = '\'')
    (cs : List Char) :
    codeNames (w ++ c :: cs) = identifiers w ++ codeNames (afterLiteral c cs) := by
  rw [codeNames_word hw, codeNames_quote hc]
  rintro d ⟨⟩
  obtain rfl | rfl := hc <;> rfl

theorem codeNames_word_other (hw : ∀ c ∈ w, isWordChar c) (hquote : ¬ (c = '"' ∨ c = '\''))
    (hc : isWordChar c = false) (cs : List Char) :
    codeNames (w ++ c :: cs) = identifiers w ++ codeNames cs := by
  rw [codeNames_word hw, codeNames_other hquote hc]
  rintro d ⟨⟩
  exact hc

/-- The names of parts with a word before them: those outside of literals up to the first stray
apostrophe, and those behind it. -/
def SplitsNames (w : List Char) (ps : List Part) : Prop :=
  codeNames (w ++ ps.flatMap Part.coded) =
    identifiers (w ++ (ps.takeWhile (!isStray ·)).flatMap outsidePart) ++
      namesBehind (ps.dropWhile (!isStray ·))

theorem codeNames_of_word (hw : ∀ c ∈ w, isWordChar c) : codeNames w = identifiers w := by
  have h : codeNames (w ++ []) = identifiers w ++ codeNames [] := codeNames_word hw (by simp)
  rwa [List.append_nil, codeNames, List.append_nil] at h

theorem splitsNames_nil (hw : ∀ c ∈ w, isWordChar c) : SplitsNames w [] := by
  simp [SplitsNames, codeNames_of_word hw, namesBehind]

/-- A part that ends the word before it. -/
theorem SplitsNames.cons_break {q : Part} {ps : List Part} (h : SplitsNames [] ps)
    (hq : isStray q = false) (hd : outsidePart q = [d]) (hword : isWordChar d = false)
    (hbreak : codeNames (w ++ (q.coded ++ ps.flatMap Part.coded)) =
      identifiers w ++ codeNames (ps.flatMap Part.coded)) : SplitsNames w (q :: ps) := by
  rw [SplitsNames, List.takeWhile_cons_of_pos (by rw [hq]; rfl),
    List.dropWhile_cons_of_pos (by rw [hq]; rfl), List.flatMap_cons, List.flatMap_cons, hbreak, hd,
    List.singleton_append, identifiers_append hword, List.append_assoc]
  rw [SplitsNames, List.nil_append, List.nil_append] at h
  rw [h]

/-- A part that leaves nothing. -/
theorem SplitsNames.cons_silent {q : Part} {ps : List Part} (h : SplitsNames w ps)
    (hq : isStray q = false) (hcoded : q.coded = []) (houtside : outsidePart q = []) :
    SplitsNames w (q :: ps) := by
  rw [SplitsNames, List.takeWhile_cons_of_pos (by rw [hq]; rfl),
    List.dropWhile_cons_of_pos (by rw [hq]; rfl), List.flatMap_cons, List.flatMap_cons, hcoded,
    houtside]
  exact h

/-- A character that goes on with the word before it. -/
theorem SplitsNames.cons_word {ps : List Part} (h : SplitsNames (w ++ [c]) ps) (hc : c ≠ '\'') :
    SplitsNames w (.code c :: ps) := by
  have hq : isStray (.code c) = false := beq_false_of_ne hc
  rw [SplitsNames, List.append_assoc, List.append_assoc] at h
  rw [SplitsNames, List.takeWhile_cons_of_pos (by rw [hq]; rfl),
    List.dropWhile_cons_of_pos (by rw [hq]; rfl), List.flatMap_cons, List.flatMap_cons]
  exact h

theorem splitsNames_stray {q : Part} {ps : List Part} (hw : ∀ c ∈ w, isWordChar c)
    (hq : isStray q) : SplitsNames w (q :: ps) := by
  rw [SplitsNames, List.takeWhile_cons_of_neg (by simp [hq]),
    List.dropWhile_cons_of_neg (by simp [hq]), List.flatMap_nil, List.append_nil, List.flatMap_cons]
  cases q with
  | code c =>
    obtain rfl : c = '\'' := by simpa [isStray] using hq
    exact codeNames_word_quote hw (.inr rfl) _
  | literal text =>
    obtain rfl : text = ['\'', '\'', '\''] := by simpa [isStray] using hq
    -- The first two are an empty literal for the names, and the third opens another.
    rw [Part.coded, List.cons_append, codeNames_word_quote hw (.inr rfl), List.cons_append,
      afterLiteral_cons (by decide), if_pos rfl, List.singleton_append, codeNames_quote (.inr rfl),
      namesBehind]
  | remark | block => simp [isStray] at hq

/-- The induction follows the parts; `w` is the word that stands before them. -/
theorem splitsNames_codeParts (hw : ∀ c ∈ w, isWordChar c) (cs : List Char) :
    SplitsNames w (codeParts cs) := by
  fun_induction codeParts cs generalizing w with
  | case1 => exact splitsNames_nil hw
  | case2 c cs ih =>
    have hstart := startsWith_nextPart c cs
    generalize (nextPart c cs).1 = q at *
    generalize (nextPart c cs).2 = rest at *
    have hrest := ih (w := []) (by simp)
    cases hstart with
    | code hquote hmark =>
      cases hc : isWordChar c with
      | true =>
        have hlonger : ∀ d ∈ w ++ [c], isWordChar d := by
          simpa [or_imp, forall_and] using ⟨hw, hc⟩
        exact (ih hlonger).cons_word hquote.1
      | false =>
        have hnot : ¬ (c = '"' ∨ c = '\'') := by tauto
        exact hrest.cons_break (beq_false_of_ne hquote.1) rfl hc (codeNames_word_other hw hnot hc _)
    | apostrophe h => exact splitsNames_stray hw rfl
    | @character _ lit _ h hne =>
      by_cases hstray : lit = ['\'', '\'']
      · subst hstray
        exact splitsNames_stray hw rfl
      · refine hrest.cons_break (by simp [isStray, hstray]) rfl (by decide) ?_
        rw [Part.coded, List.cons_append, codeNames_word_quote hw (.inr rfl),
          afterLiteral_of_splitCharacter (splitCharacter_append h hne _) hne hstray]
    | @string _ lit _ h =>
      refine hrest.cons_break (by simp [isStray]) rfl (by decide) ?_
      rw [Part.coded, List.cons_append, codeNames_word_quote hw (.inl rfl),
        afterLiteral_eq_splitString]
      cases rest with
      | nil =>
        -- The string goes to the end of the line.
        have happ : lit ++ [] = cs := by simpa [h] using append_splitString cs
        rw [codeParts_nil, List.flatMap_nil, happ, h]
      | cons => rw [splitString_append h (by simp)]
    | remark => exact (ih hw).cons_silent rfl rfl rfl
    | openBlock | block =>
      exact hrest.cons_break rfl rfl (by decide) (codeNames_word_other hw (by decide) (by decide) _)

theorem splitsNames_lineParts (inside : Bool) (cs : List Char) :
    SplitsNames [] (lineParts inside cs) := by
  have hempty : ∀ c ∈ ([] : List Char), isWordChar c := by simp
  cases inside with
  | false => exact splitsNames_codeParts hempty cs
  | true =>
    cases hsplit : splitBlock? cs with
    | none =>
      rw [lineParts_of_splitBlock?_eq_none hsplit]
      exact (splitsNames_nil hempty).cons_silent rfl rfl rfl
    | some r =>
      rw [lineParts_of_splitBlock? hsplit]
      exact (splitsNames_codeParts hempty r.2).cons_silent rfl rfl rfl

theorem exists_lineParts {inside : Bool} {ls : List (List Char × LineEnd)} {laid : LaidLine}
    (h : laid ∈ layoutFrom inside ls) : ∃ inside' cs, laid.parts = lineParts inside' cs := by
  induction ls generalizing inside with
  | nil => simp [layoutFrom] at h
  | cons l ls ih =>
    obtain rfl | h := List.mem_cons.mp h
    · exact ⟨inside, l.1, rfl⟩
    · exact ih h

/-- The names of a line: those outside of literals up to the first stray apostrophe, and those that
are left behind it. -/
theorem codeNames_code {content : List Char} {laid : LaidLine} (h : laid ∈ layout content) :
    codeNames laid.code = namesOutside (laid.parts.takeWhile (!isStray ·)) ++
      namesBehind (laid.parts.dropWhile (!isStray ·)) := by
  obtain ⟨inside, cs, hparts⟩ := exists_lineParts h
  have hsplits := splitsNames_lineParts inside cs
  rw [← hparts] at hsplits
  exact hsplits

theorem codeNames_of_plain {content : List Char} {laid : LaidLine} (h : laid ∈ layout content)
    (hplain : ∀ q ∈ laid.parts, isStray q = false) :
    codeNames laid.code = namesOutside laid.parts := by
  have hall : ∀ q ∈ laid.parts, (!isStray q) = true := fun q hq => by rw [hplain q hq]; rfl
  rw [codeNames_code h, List.takeWhile_eq_self_iff.mpr hall, List.dropWhile_eq_nil_iff.mpr hall,
    namesBehind, List.append_nil]

theorem codeNames_of_stray {content : List Char} {laid : LaidLine} (h : laid ∈ layout content)
    {before after : List Part} {q : Part} (hparts : laid.parts = before ++ q :: after)
    (hbefore : ∀ r ∈ before, isStray r = false) (hq : isStray q = true) :
    codeNames laid.code =
      namesOutside before ++ codeNames (afterLiteral '\'' (after.flatMap Part.coded)) := by
  have hall : ∀ r ∈ before, (!isStray r) = true := fun r hr => by rw [hbefore r hr]; rfl
  have hstop : ¬ (!isStray q) = true := by simp [hq]
  rw [codeNames_code h, hparts, List.takeWhile_append_of_pos hall,
    List.dropWhile_append_of_pos hall,
    List.takeWhile_cons_of_neg (p := (!isStray ·)) hstop,
    List.dropWhile_cons_of_neg (p := (!isStray ·)) hstop, List.append_nil, namesBehind]

end MacroSweep.Walk
