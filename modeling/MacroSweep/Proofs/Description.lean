import MacroSweep.Proofs.ConditionNames
import MacroSweep.Proofs.NormalText
import MacroSweep.Proofs.Trimming
import MacroSweep.Suppression.PlainText

/-! Rules as texts. The description of a rule can be read back exactly if the rule says no more than
`id[:file[:line]]` can say, and nothing in its file pattern is taken for something else. -/
namespace MacroSweep

open Text

namespace Text

variable {c : Char} {cs : List Char} {n m bound radix : Nat}

theorem isBlank_of_isDigit (h : c.isDigit = true) : isBlank c = false := by
  rw [Bool.eq_false_iff]
  intro hblank
  have hword := isWordChar_of_isDigit h
  rw [Condition.isWordChar_of_isBlank hblank] at hword
  exact Bool.false_ne_true hword

theorem notMem_toDigits (h : c.isDigit = false) : c ∉ Nat.toDigits 10 n := by
  intro hc
  rw [isDigit_of_mem_toDigits hc] at h
  cases h

/-- A 64-bit word is read back from its decimal digits. -/
theorem word?_toDigits (h : n < wordSize) : word? (Nat.toDigits 10 n) = some n := by
  obtain ⟨c, ds, hdigits, hc⟩ := exists_toDigits_eq_cons n
  have hplus : c ≠ '+' := by rintro rfl; cases hc
  have hread : readWord 10 (c :: ds) = readDigits 10 wordSize (c :: ds) := by
    unfold readWord
    split
    · next heq => exact absurd (List.cons.inj heq).1 hplus
    · next heq => exact absurd (List.cons.inj heq).1 hplus
    · rfl
  rw [word?, hdigits, hread, readDigits, ← hdigits, addDigits_toDigits h]
  · rfl
  · simp

theorem lt_of_addDigits (hn : n < bound) (h : addDigits radix bound n cs = .ok m) : m < bound := by
  induction cs generalizing n with
  | nil =>
    cases h
    exact hn
  | cons c cs ih =>
    rw [addDigits] at h
    split at h
    · cases h
    · split at h
      · next hlt => exact ih hlt h
      · cases h

theorem lt_of_word? (h : word? cs = some n) : n < wordSize := by
  have hpos : 0 < wordSize := by decide
  have hdigits : ∀ ds, readDigits 10 wordSize ds = .ok n → n < wordSize := by
    intro ds hds
    unfold readDigits at hds
    split at hds
    · cases hds
    · exact lt_of_addDigits hpos hds
  have hread : readWord 10 cs = .ok n := by
    unfold word? at h
    cases hr : readWord 10 cs with
    | error e => simp [hr, Except.toOption] at h
    | ok k => simpa [hr, Except.toOption] using h
  unfold readWord at hread
  split at hread
  · cases hread
  · exact hdigits _ hread
  · exact hdigits _ hread

end Text

namespace Suppression

open MacroSweep.Path

variable {c : Char} {id cs ds text rest name tail : List Char} {lines : LineSelector} {r : Rule}
  {origin : Origin} {file : String}

/-- The characters of an identifier pattern. -/
def isIdChar (c : Char) : Bool := isWordChar c || c == '-' || c == '.' || c == '*' || c == '?'

theorem isIdChar_of_mem (h : isValidId id = true) (hc : c ∈ id) : isIdChar c = true := by
  rw [isValidId, Bool.and_eq_true, List.all_eq_true] at h
  exact h.2 c hc

theorem notMem_of_isValidId (h : isValidId id = true) (hc : isIdChar c = false) : c ∉ id := by
  intro hmem
  rw [isIdChar_of_mem h hmem] at hc
  cases hc

theorem ne_nil_of_isValidId (h : isValidId id = true) : id ≠ [] := by
  rintro rfl
  cases h

theorem isBlank_of_isIdChar (h : isIdChar c = true) : isBlank c = false := by
  simp only [isIdChar, Bool.or_eq_true, beq_iff_eq] at h
  rw [Bool.eq_false_iff]
  intro hblank
  rcases h with (((hword | rfl) | rfl) | rfl) | rfl
  · simp [Condition.isWordChar_of_isBlank hblank] at hword
  all_goals exact absurd hblank (by decide)

theorem isTrimmed_of_isValidId (h : isValidId id = true) : IsTrimmed id :=
  ⟨fun _ hc => isBlank_of_isIdChar (isIdChar_of_mem h (List.mem_of_mem_head? hc)),
    fun _ hc => isBlank_of_isIdChar (isIdChar_of_mem h (List.mem_of_mem_getLast? hc))⟩

namespace LineSelector

/-- The text that selects lines. -/
def spelled : LineSelector → List Char
  | any => ['*']
  | single n => Nat.toDigits 10 n
  | range first last => Nat.toDigits 10 first ++ '-' :: Nat.toDigits 10 last

/-- What a description has behind the file. -/
def ending : LineSelector → List Char
  | any => []
  | lines => ':' :: lines.spelled

/-- Whether lines are numbered with 64-bit words and do not run backwards. -/
def IsNumbered : LineSelector → Prop
  | any => True
  | single n => n < wordSize
  | range first last => first ≤ last ∧ last < wordSize

theorem mem_spelled (h : c ∈ lines.spelled) : c.isDigit = true ∨ c = '-' ∨ c = '*' := by
  cases lines with
  | any => exact .inr (.inr (List.mem_singleton.mp h))
  | single n => exact .inl (isDigit_of_mem_toDigits h)
  | range first last =>
    rw [spelled, List.mem_append, List.mem_cons] at h
    rcases h with h | h | h
    · exact .inl (isDigit_of_mem_toDigits h)
    · exact .inr (.inl h)
    · exact .inl (isDigit_of_mem_toDigits h)

theorem notMem_spelled (hdigit : c.isDigit = false) (hdash : c ≠ '-') (hstar : c ≠ '*') :
    c ∉ lines.spelled := by
  intro h
  rcases mem_spelled h with h | h | h
  · rw [h] at hdigit
    cases hdigit
  · exact hdash h
  · exact hstar h

theorem isBlank_of_mem_spelled (h : c ∈ lines.spelled) : isBlank c = false := by
  rcases mem_spelled h with h | rfl | rfl
  · exact isBlank_of_isDigit h
  · decide
  · decide

theorem isTrimmed_spelled (lines : LineSelector) : IsTrimmed lines.spelled :=
  ⟨fun _ hc => isBlank_of_mem_spelled (List.mem_of_mem_head? hc),
    fun _ hc => isBlank_of_mem_spelled (List.mem_of_mem_getLast? hc)⟩

theorem looksLikeLines_spelled (lines : LineSelector) : looksLikeLines lines.spelled = true := by
  have hne : lines.spelled ≠ [] := by cases lines <;> simp [spelled, Nat.toDigits_ne_nil]
  rw [looksLikeLines, Bool.and_eq_true, List.all_eq_true]
  refine ⟨by simpa using hne, fun c hc => ?_⟩
  simpa [or_assoc] using mem_spelled hc

theorem trim_toDigits (n : Nat) : trim (Nat.toDigits 10 n) = Nat.toDigits 10 n :=
  (isTrimmed_spelled (single n)).trim_eq

/-- Lines are read back from their text. -/
theorem parse?_spelled (h : lines.IsNumbered) : parse? lines.spelled = some lines := by
  have hdash : ∀ {n : Nat}, ∀ c ∈ Nat.toDigits 10 n, (c == '-') = false := by
    intro n c hc
    rw [beq_eq_false_iff_ne]
    rintro rfl
    exact notMem_toDigits (by decide) hc
  rw [parse?, (isTrimmed_spelled lines).trim_eq]
  cases lines with
  | any => rfl
  | single n =>
    have hstar : Nat.toDigits 10 n ≠ ['*'] := fun heq =>
      notMem_toDigits (n := n) (by decide : '*'.isDigit = false) (by simp [heq])
    have hcut : cutAt? (· == '-') (Nat.toDigits 10 n) = none := cutAt?_eq_none_iff.mpr hdash
    simp only [spelled, if_neg hstar, hcut, word?_toDigits h, Option.map_some]
  | range first last =>
    have hstar : Nat.toDigits 10 first ++ '-' :: Nat.toDigits 10 last ≠ ['*'] := fun heq => by
      have hmem : '-' ∈ ['*'] := heq ▸ (by simp)
      cases List.mem_singleton.mp hmem
    have hcut : cutAt? (· == '-') (Nat.toDigits 10 first ++ '-' :: Nat.toDigits 10 last) =
        some (Nat.toDigits 10 first, Nat.toDigits 10 last) :=
      cutAt?_eq_some_iff.mpr ⟨'-', rfl, hdash, rfl⟩
    obtain ⟨hle, hlast⟩ := h
    simp only [spelled, if_neg hstar, hcut, trim_toDigits, word?_toDigits hlast,
      word?_toDigits (Nat.lt_of_le_of_lt hle hlast)]
    exact if_pos hle

theorem isNumbered_of_parse? (h : parse? text = some lines) : lines.IsNumbered := by
  unfold parse? at h
  dsimp only at h
  split at h
  · cases h
    trivial
  · split at h
    · next first last _ =>
      simp only [Option.bind_eq_bind, Option.bind_eq_some_iff] at h
      obtain ⟨n, -, m, hm, h⟩ := h
      split at h
      · next hle =>
        cases h
        exact ⟨hle, lt_of_word? hm⟩
      · cases h
    · obtain ⟨n, hn, rfl⟩ := Option.map_eq_some_iff.mp h
      exact lt_of_word? hn

theorem ending_of_ne_any (h : lines ≠ any) : lines.ending = ':' :: lines.spelled := by
  cases lines with
  | any => exact absurd rfl h
  | single n => rfl
  | range first last => rfl

theorem notMem_ending (hcolon : c ≠ ':') (h : c ∉ lines.spelled) : c ∉ lines.ending := by
  by_cases hany : lines = any
  · subst hany
    exact List.not_mem_nil
  · rw [ending_of_ne_any hany, List.mem_cons, not_or]
    exact ⟨hcolon, h⟩

end LineSelector

/-- What `file[:line]` is taken for. A colon parts the file from the lines if what follows it can
only be meant as lines. -/
theorem splitLines_eq_ok_iff {file : List Char} : splitLines rest = .ok (file, lines) ↔
    (file = rest ∧ lines = .any ∧ ∀ name tail, rest = name ++ ':' :: tail → ':' ∉ tail →
      looksLikeLines (trim tail) = false) ∨
    ∃ name tail, rest = name ++ ':' :: tail ∧ ':' ∉ tail ∧ looksLikeLines (trim tail) = true ∧
      LineSelector.parse? (trim tail) = some lines ∧ file = trim name := by
  unfold splitLines
  split
  · next hcut =>
    have hcolon := cutAtLast?_beq_eq_none_iff.mp hcut
    have hno : ∀ {name tail}, rest ≠ name ++ ':' :: tail := by
      rintro name tail rfl
      exact hcolon (by simp)
    constructor
    · intro h
      cases h
      exact .inl ⟨rfl, rfl, fun _ _ h => absurd h hno⟩
    · rintro (⟨rfl, rfl, -⟩ | ⟨_, _, h, -⟩)
      · rfl
      · exact absurd h hno
  · next name tail hcut =>
    obtain ⟨hcolon, rfl⟩ := cutAtLast?_beq_eq_some_iff.mp hcut
    dsimp only
    split
    · next hlooks =>
      constructor
      · intro h
        split at h
        · next found hparse =>
          cases h
          exact .inr ⟨name, tail, rfl, hcolon, hlooks, hparse, rfl⟩
        · cases h
      · rintro (⟨-, -, h⟩ | ⟨name', tail', heq, hcolon', -, hparse, rfl⟩)
        · rw [h name tail rfl hcolon] at hlooks
          cases hlooks
        · obtain ⟨rfl, rfl⟩ := eq_of_append_cons_last hcolon hcolon' heq
          rw [hparse]
    · next hlooks =>
      rw [Bool.not_eq_true] at hlooks
      constructor
      · intro h
        cases h
        refine .inl ⟨rfl, rfl, fun name' tail' heq hcolon' => ?_⟩
        rw [← (eq_of_append_cons_last hcolon hcolon' heq).2]
        exact hlooks
      · rintro (⟨rfl, rfl, -⟩ | ⟨name', tail', heq, hcolon', hlooks', -⟩)
        · rfl
        · rw [← (eq_of_append_cons_last hcolon hcolon' heq).2, hlooks] at hlooks'
          cases hlooks'

theorem stripComment_cons (hsharp : c ≠ '#') (hslash : c = '/' → cs.head? ≠ some '/') :
    stripComment (c :: cs) = c :: stripComment cs := by
  rw [stripComment]
  · exact hsharp
  · rintro rest hc rfl
    exact hslash hc rfl

/-- A text without a comment is read whole. -/
theorem stripComment_eq_self (hsharp : '#' ∉ cs) (hslash : SingleSlashes cs) :
    stripComment cs = cs := by
  induction cs with
  | nil => rfl
  | cons c cs ih =>
    obtain ⟨hnext, hslash⟩ := List.isChain_cons.mp hslash
    rw [List.mem_cons, not_or] at hsharp
    rw [stripComment_cons (Ne.symm hsharp.1) fun hc hhead => hnext _ hhead hc rfl,
      ih hsharp.2 hslash]

theorem stripComment_append (hsharp : '#' ∉ ds) (hslash : '/' ∉ ds) :
    stripComment (ds ++ cs) = ds ++ stripComment cs := by
  induction ds with
  | nil => rfl
  | cons d ds ih =>
    rw [List.mem_cons, not_or] at hsharp hslash
    rw [List.cons_append, stripComment_cons (Ne.symm hsharp.1) fun hd => absurd hd.symm hslash.1,
      ih hsharp.2 hslash.2, List.cons_append]

theorem sharp_notMem_stripComment (cs : List Char) : '#' ∉ stripComment cs := by
  fun_induction stripComment cs with
  | case1 => exact List.not_mem_nil
  | case2 => exact List.not_mem_nil
  | case3 => exact List.not_mem_nil
  | case4 c cs hsharp hslash ih =>
    rw [List.mem_cons, not_or]
    exact ⟨Ne.symm hsharp, ih⟩

theorem toList_describe_of_none (h : r.file = none) : r.describe.toList = r.id.toList := by
  rw [Rule.describe, h]

theorem toList_describe_of_file (h : r.file = some file) :
    r.describe.toList = r.id.toList ++ ':' :: (file.toList ++ r.lines.ending) := by
  rw [Rule.describe, h]
  cases r.lines with
  | any =>
    change (r.id ++ ":" ++ file ++ "").toList = _
    simp [LineSelector.ending]
  | single n =>
    change (r.id ++ ":" ++ file ++ (":" ++ toString n)).toList = _
    simp [LineSelector.ending, LineSelector.spelled]
  | range first last =>
    change (r.id ++ ":" ++ file ++ (":" ++ toString first ++ "-" ++ toString last)).toList = _
    simp [LineSelector.ending, LineSelector.spelled]

theorem parseRule_id (h : isValidId id = true) :
    parseRule id origin = .ok (some { id := String.ofList id, origin }) := by
  have hslash : '/' ∉ id := notMem_of_isValidId h (by decide)
  have hstrip : stripComment id = id :=
    stripComment_eq_self (notMem_of_isValidId h (by decide)) (singleSlashes_of_notMem hslash)
  have hcut : cutAt? (· == ':') id = none :=
    cutAt?_beq_eq_none_iff.mpr (notMem_of_isValidId h (by decide))
  have hne : id.isEmpty = false := by simpa using ne_nil_of_isValidId h
  rw [parseRule, hstrip, (isTrimmed_of_isValidId h).trim_eq]
  simp [hne, hcut, h]

/-- A rule with a colon is read from what stands before the first one and behind it. -/
theorem parseRule_id_colon (h : isValidId id = true) :
    parseRule (id ++ ':' :: rest) origin = .ok (some r) ↔
      ∃ file lines, splitLines (trim (stripComment rest)) = .ok (file, lines) ∧ file ≠ [] ∧
        r = { id := String.ofList id, file := some (normalText (String.ofList file)), lines,
              origin } := by
  have hstrip : stripComment (id ++ ':' :: rest) = id ++ ':' :: stripComment rest := by
    rw [stripComment_append (notMem_of_isValidId h (by decide)) (notMem_of_isValidId h (by decide)),
      stripComment_cons (by decide) fun hc => absurd hc (by decide)]
  have htrimmed := isTrimmed_of_isValidId h
  have htext : trim (id ++ ':' :: stripComment rest) =
      id ++ ':' :: trimEnd (stripComment rest) := by
    rw [trim_append_cons (by decide), trimStart_eq_self htrimmed.1]
  have hcut : cutAt? (· == ':') (id ++ ':' :: trimEnd (stripComment rest)) =
      some (id, trimEnd (stripComment rest)) :=
    cutAt?_beq_eq_some_iff.mpr ⟨notMem_of_isValidId h (by decide), rfl⟩
  have hne : (id ++ ':' :: trimEnd (stripComment rest)).isEmpty = false := by simp
  rw [parseRule, hstrip, htext]
  simp only [hne, hcut, htrimmed.trim_eq, trim_trimEnd, h]
  constructor
  · intro heq
    simp only [Bool.not_true, Bool.false_eq_true, if_false] at heq
    split at heq
    · cases heq
    · next file lines hsplit =>
      split at heq
      · cases heq
      · next hfile =>
        cases heq
        exact ⟨file, lines, hsplit, by simpa using hfile, rfl⟩
  · rintro ⟨file, lines, hsplit, hfile, rfl⟩
    have hfull : file.isEmpty = false := by simpa using hfile
    simp [hsplit, hfull]

/-- A file pattern that stands for itself between an identifier and lines. It is in normal spelling,
has no blanks around it and no comment sign in it, and what follows its last colon is not taken for
lines where no lines are given. -/
structure IsPlainFile (file : String) (lines : LineSelector) : Prop where
  normal : normalText file = file
  trimmed : IsTrimmed file.toList
  unmarked : '#' ∉ file.toList
  lineless : lines = .any → ∀ name tail, file.toList = name ++ ':' :: tail → ':' ∉ tail →
    trim tail = [] ∨ ∃ c ∈ trim tail, ¬(c.isDigit = true ∨ c = '-' ∨ c = '*')

/-- A rule that its description can tell: a global rule with no symbol, a valid identifier and
numbered lines, which either holds in all files and on all lines or has a plain file pattern. -/
structure Rule.IsPlain (r : Rule) : Prop where
  scope : r.scope = .global
  symbol : r.symbol = none
  id : isValidId r.id.toList = true
  lines : r.lines.IsNumbered
  file : (r.file = none ∧ r.lines = .any) ∨ ∃ file, r.file = some file ∧ IsPlainFile file r.lines

theorem looksLikeLines_eq_false_iff :
    looksLikeLines cs = false ↔ cs = [] ∨ ∃ c ∈ cs, ¬(c.isDigit = true ∨ c = '-' ∨ c = '*') := by
  rw [looksLikeLines, Bool.and_eq_false_iff, List.all_eq_false]
  simp [or_assoc]

theorem singleSlashes_file_ending (h : SingleSlashes cs) (lines : LineSelector) :
    SingleSlashes (cs ++ lines.ending) := by
  have hslash : '/' ∉ lines.ending :=
    LineSelector.notMem_ending (by decide) (LineSelector.notMem_spelled (by decide) (by decide)
      (by decide))
  refine List.isChain_append.mpr ⟨h, singleSlashes_of_notMem hslash, fun a _ b hb _ hslash' => ?_⟩
  exact hslash (hslash' ▸ List.mem_of_mem_head? hb)

theorem stripComment_file_ending (hnormal : normalText file = file) (hsharp : '#' ∉ file.toList) :
    stripComment (file.toList ++ lines.ending) = file.toList ++ lines.ending := by
  have hending : '#' ∉ lines.ending :=
    LineSelector.notMem_ending (by decide) (LineSelector.notMem_spelled (by decide) (by decide)
      (by decide))
  apply stripComment_eq_self
  · rw [List.mem_append, not_or]
    exact ⟨hsharp, hending⟩
  · exact singleSlashes_file_ending (hnormal ▸ singleSlashes_normalText file) lines

theorem trim_file_spelled (cs : List Char) (lines : LineSelector) :
    trim (cs ++ ':' :: lines.spelled) = trimStart cs ++ ':' :: lines.spelled := by
  rw [trim_append_cons (by decide), trimEnd_eq_self (LineSelector.isTrimmed_spelled lines).2]

theorem colon_notMem_spelled (lines : LineSelector) : ':' ∉ lines.spelled :=
  LineSelector.notMem_spelled (by decide) (by decide) (by decide)

/-- A plain file pattern and its lines are read back. -/
theorem splitLines_of_isPlainFile (h : IsPlainFile file lines) (hlines : lines.IsNumbered) :
    splitLines (trim (stripComment (file.toList ++ lines.ending))) = .ok (file.toList, lines) := by
  rw [stripComment_file_ending h.normal h.unmarked, splitLines_eq_ok_iff]
  by_cases hany : lines = .any
  · subst hany
    rw [LineSelector.ending, List.append_nil, h.trimmed.trim_eq]
    refine .inl ⟨rfl, rfl, fun name tail heq hcolon => ?_⟩
    exact looksLikeLines_eq_false_iff.mpr (h.lineless rfl name tail heq hcolon)
  · have htail : trim lines.spelled = lines.spelled :=
      (LineSelector.isTrimmed_spelled lines).trim_eq
    rw [LineSelector.ending_of_ne_any hany, trim_file_spelled, trimStart_eq_self h.trimmed.1]
    refine .inr ⟨file.toList, lines.spelled, rfl, colon_notMem_spelled lines, ?_, ?_,
      h.trimmed.trim_eq.symm⟩
    · rw [htail]
      exact LineSelector.looksLikeLines_spelled lines
    · rw [htail]
      exact LineSelector.parse?_spelled hlines

theorem mem_of_splitLines {file : List Char} (h : splitLines rest = .ok (file, lines))
    (hc : c ∈ file) : c ∈ rest := by
  obtain ⟨rfl, -⟩ | ⟨name, tail, rfl, -, -, -, rfl⟩ := splitLines_eq_ok_iff.mp h
  · exact hc
  · exact List.mem_append_left _ (mem_of_mem_trim hc)

/-- Only a plain file pattern is read back. A normal spelling is no longer than what it spells, so
nothing was trimmed off the pattern or taken from it as lines. -/
theorem isPlainFile_of_splitLines {text : List Char} (hne : text ≠ [])
    (hfile : normalText (String.ofList text) = file)
    (h : splitLines (trim (stripComment (file.toList ++ lines.ending))) = .ok (text, lines)) :
    IsPlainFile file lines := by
  have hnormal : normalText file = file := by rw [← hfile, normalText_normalText]
  have hsharp : '#' ∉ file.toList := by
    intro hmem
    rw [← hfile] at hmem
    rcases mem_normalText hmem with hmem | hmem | hmem
    · cases hmem
    · cases hmem
    · rw [String.toList_ofList] at hmem
      exact sharp_notMem_stripComment _ (mem_of_mem_trim (mem_of_splitLines h hmem))
  have hlength : file.toList.length ≤ text.length := by
    have hle := length_normalText_le (t := String.ofList text) (by simpa using hne)
    rwa [hfile, String.toList_ofList] at hle
  have htrim := length_trim_le file.toList
  rw [stripComment_file_ending hnormal hsharp, splitLines_eq_ok_iff] at h
  by_cases hany : lines = .any
  · subst hany
    rw [LineSelector.ending, List.append_nil] at h
    obtain ⟨rfl, -, hlooks⟩ | ⟨name, tail, heq, -, -, -, rfl⟩ := h
    · have htrimmed := isTrimmed_of_length_le hlength
      refine ⟨hnormal, htrimmed, hsharp, fun _ name tail heq hcolon => ?_⟩
      rw [htrimmed.trim_eq] at hlooks
      exact looksLikeLines_eq_false_iff.mp (hlooks name tail heq hcolon)
    · have hname := length_trim_le name
      have hcut := congrArg List.length heq
      rw [List.length_append, List.length_cons] at hcut
      omega
  · rw [LineSelector.ending_of_ne_any hany, trim_file_spelled] at h
    obtain ⟨-, h, -⟩ | ⟨name, tail, heq, hcolon, -, -, rfl⟩ := h
    · exact absurd h hany
    · obtain ⟨rfl, -⟩ := eq_of_append_cons_last (colon_notMem_spelled lines) hcolon heq
      have hsame : trim (trimStart file.toList) = trim file.toList := by
        rw [trim, trimStart, trimStart, List.dropWhile_idempotent]
        rfl
      rw [hsame] at hlength
      exact ⟨hnormal, isTrimmed_of_length_le hlength, hsharp, fun h => absurd h hany⟩

/-- What a rule that is read can say. -/
theorem parseRule_sound (h : parseRule text origin = .ok (some r)) :
    r.scope = .global ∧ r.symbol = none ∧ isValidId r.id.toList = true ∧ r.lines.IsNumbered ∧
      (r.file = none → r.lines = .any) := by
  unfold parseRule at h
  dsimp only at h
  split at h
  · cases h
  · split at h
    · -- there is a colon
      dsimp only at h
      split at h
      · cases h
      · next hid =>
        rw [Bool.not_eq_true', Bool.not_eq_false] at hid
        split at h
        · cases h
        · next file lines hsplit =>
          split at h
          · cases h
          · cases h
            refine ⟨rfl, rfl, by simpa using hid, ?_,
              fun hnone => absurd hnone (Option.some_ne_none _)⟩
            obtain ⟨-, rfl, -⟩ | ⟨_, _, -, -, -, hparse, -⟩ := splitLines_eq_ok_iff.mp hsplit
            · trivial
            · exact LineSelector.isNumbered_of_parse? hparse
    · dsimp only at h
      split at h
      · cases h
      · next hid =>
        rw [Bool.not_eq_true', Bool.not_eq_false] at hid
        cases h
        exact ⟨rfl, rfl, by simpa using hid, trivial, fun _ => rfl⟩

/-- The description of a rule is read back as the rule exactly if the rule is plain. -/
theorem parseRule_describe_iff (r : Rule) :
    parseRule r.describe.toList r.origin = .ok (some r) ↔ r.IsPlain := by
  constructor
  · intro h
    obtain ⟨hscope, hsymbol, hid, hlines, hnone⟩ := parseRule_sound h
    refine ⟨hscope, hsymbol, hid, hlines, ?_⟩
    cases hfile : r.file with
    | none => exact .inl ⟨rfl, hnone hfile⟩
    | some file =>
      rw [toList_describe_of_file hfile, parseRule_id_colon hid] at h
      obtain ⟨text, lines, hsplit, hne, hr⟩ := h
      have hl : r.lines = lines := congrArg Rule.lines hr
      have hf : r.file = some (normalText (String.ofList text)) := congrArg Rule.file hr
      rw [← hl] at hsplit
      rw [hfile] at hf
      exact .inr ⟨file, rfl, isPlainFile_of_splitLines hne (Option.some.inj hf).symm hsplit⟩
  · rintro ⟨hscope, hsymbol, hid, hlines, ⟨hfile, hany⟩ | ⟨file, hfile, hplain⟩⟩
    · rw [toList_describe_of_none hfile, parseRule_id hid]
      cases r
      simp_all
    · rw [toList_describe_of_file hfile, parseRule_id_colon hid]
      refine ⟨file.toList, r.lines, splitLines_of_isPlainFile hplain hlines, ?_, ?_⟩
      · rw [← hplain.normal]
        exact normalText_ne_nil file
      · rw [String.ofList_toList, String.ofList_toList, hplain.normal]
        cases r
        simp_all

example : parseRule "id:C:/src/a b.c:3-9".toList .commandLine =
    .ok (some { id := "id", file := some "C:/src/a b.c", lines := .range 3 9,
                origin := .commandLine }) := by
  decide +kernel

/-- A file pattern that ends as lines do is not read back. -/
example : parseRule "id:a:5".toList .commandLine =
    .ok (some { id := "id", file := some "a", lines := .single 5, origin := .commandLine }) := by
  decide +kernel

end Suppression

end MacroSweep
