import MacroSweep.Proofs.ConditionNames
import Mathlib.Data.List.Forall2
import Mathlib.Data.Nat.Digits.Defs
import Mathlib.Tactic.Ring

/-! Tokens as they are written: numbers in four radices, names, operator signs and parentheses.
Texts of tokens with blanks between them are read back as these tokens. -/
namespace MacroSweep.Condition

open Text

/-- Whether a character writes a digit, with letters of either case after nine. -/
def WritesDigit (c : Char) (d : Nat) : Prop :=
  d < 16 ∧ (c = Nat.digitChar d ∨ c = (Nat.digitChar d).toUpper)

/-- Whether digits write a number in a radix, the most significant first. -/
def WritesNumber (radix : Nat) (cs : List Char) (n : Nat) : Prop :=
  cs ≠ [] ∧ ∃ ds, List.Forall₂ WritesDigit cs ds ∧ (∀ d ∈ ds, d < radix) ∧
    Nat.ofDigits radix ds.reverse = n

/-- Whether a text is a number without a suffix: decimal with no leading zero, octal after a zero,
hexadecimal or binary after a mark. -/
inductive IsNumber : List Char → Nat → Prop where
  | decimal {cs n} (h : WritesNumber 10 cs n) (hzero : cs.head? = some '0' → cs = ['0']) :
    IsNumber cs n
  | octal {cs n} (h : WritesNumber 8 cs n) : IsNumber ('0' :: cs) n
  | hexadecimal {x cs n} (hx : x = 'x' ∨ x = 'X') (h : WritesNumber 16 cs n) :
    IsNumber ('0' :: x :: cs) n
  | binary {b cs n} (hb : b = 'b' ∨ b = 'B') (h : WritesNumber 2 cs n) :
    IsNumber ('0' :: b :: cs) n

/-- The signed word with the bits of a number below 2 ^ 64. -/
def signedValue (n : Nat) : Int := if n < 2 ^ 63 then n else n - 2 ^ 64

/-- How tokens are written. A number stands for the signed word with its bits, whatever letters of
`uUlL` follow it, and a name is no feature check. -/
inductive Writes : List Char → Token → Prop where
  | num {cs suffix n v} (h : IsNumber cs n) (hn : n < 2 ^ 64)
      (hsuffix : ∀ c ∈ suffix, c ∈ ['u', 'U', 'l', 'L']) (hv : v.toInt = signedValue n) :
    Writes (cs ++ suffix) (.num v)
  | name {word} (h : isIdentifier word = true) (hcheck : ¬featureCheckStart <+: word) :
    Writes word (.name (String.ofList word))
  | sign (s : Sign) : Writes s.text.toList (.sign s)
  | opening : Writes ['('] .opening
  | closing : Writes [')'] .closing

/-- Whether a text is tokens as they are written, with one blank or more between neighbours. -/
inductive Prints : List Char → List Token → Prop where
  | nil : Prints [] []
  | cons {word gap cs t ts} (hword : Writes word t) (hgap : allBlank gap = true)
      (hbetween : ts ≠ [] → gap ≠ []) (h : Prints cs ts) : Prints (word ++ (gap ++ cs)) (t :: ts)

variable {c : Char} {d n radix bound : Nat} {cs word rest suffix gap : List Char} {t : Token}
  {ts : List Token} {s : Sign}

/-- What reading makes of digits, in either case. -/
theorem digitValue?_digitChar_hex : ∀ d < 16,
    [Nat.digitChar d, (Nat.digitChar d).toUpper].all fun c =>
      digitValue? 16 c == some d && isWordChar c && !isNumberSuffix c && (c.isDigit || 10 ≤ d) := by
  decide

namespace WritesDigit

theorem facts (h : WritesDigit c d) : digitValue? 16 c = some d ∧ isWordChar c = true ∧
    isNumberSuffix c = false ∧ (d < 10 → c.isDigit = true) := by
  obtain ⟨hd, hc⟩ := h
  have hall := List.all_eq_true.mp (digitValue?_digitChar_hex d hd) c (by simpa using hc)
  simp only [Bool.and_eq_true, beq_iff_eq, Bool.not_eq_true', Bool.or_eq_true,
    decide_eq_true_eq] at hall
  obtain ⟨⟨⟨hvalue, hword⟩, hsuffix⟩, hdigit⟩ := hall
  exact ⟨hvalue, hword, hsuffix, fun hlt => hdigit.resolve_right (by omega)⟩

/-- A digit has the same value in every radix that has it. -/
theorem digitValue?_eq (h : WritesDigit c d) (hradix : radix ≤ 16) (hd : d < radix) :
    digitValue? radix c = some d := by
  have hvalue := h.facts.1
  unfold digitValue? at hvalue ⊢
  grind

end WritesDigit

/-- Digits are added from the left, and no value on the way is greater than the last. -/
theorem addDigits_of_writesDigit {ds : List Nat} (hradix : 0 < radix ∧ radix ≤ 16)
    (h : List.Forall₂ WritesDigit cs ds) (hds : ∀ d ∈ ds, d < radix) (m : Nat)
    (hbound : m * radix ^ ds.length + Nat.ofDigits radix ds.reverse < bound) :
    addDigits radix bound m cs = .ok (m * radix ^ ds.length + Nat.ofDigits radix ds.reverse) := by
  induction h generalizing m with
  | nil => simp [addDigits]
  | @cons c d cs ds hc _ ih =>
    obtain ⟨hd, hds⟩ := List.forall_mem_cons.mp hds
    have hsum : m * radix ^ (d :: ds).length + Nat.ofDigits radix (d :: ds).reverse =
        (m * radix + d) * radix ^ ds.length + Nat.ofDigits radix ds.reverse := by
      rw [List.reverse_cons, Nat.ofDigits_append, Nat.ofDigits_singleton, List.length_reverse,
        List.length_cons, Nat.pow_succ]
      ring
    rw [hsum] at hbound ⊢
    have hsmall : m * radix + d < bound := by
      have := Nat.le_mul_of_pos_right (m * radix + d) (Nat.pow_pos (n := ds.length) hradix.1)
      omega
    rw [addDigits, hc.digitValue?_eq hradix.2 hd]
    simp only [hsmall, if_true]
    exact ih hds _ hbound

namespace WritesNumber

theorem readDigits_eq (h : WritesNumber radix cs n) (hradix : 0 < radix ∧ radix ≤ 16)
    (hn : n < bound) : readDigits radix bound cs = .ok n := by
  obtain ⟨hne, ds, hds, hlt, rfl⟩ := h
  have hread := addDigits_of_writesDigit hradix hds hlt 0 (by simpa using hn)
  cases cs with
  | nil => exact absurd rfl hne
  | cons c cs => simpa [readDigits] using hread

theorem exists_writesDigit (h : WritesNumber radix cs n) (hc : c ∈ cs) :
    ∃ d < radix, WritesDigit c d := by
  obtain ⟨-, ds, hds, hlt, -⟩ := h
  induction hds with
  | nil => simp at hc
  | @cons c' d cs ds hwrites _ ih =>
    obtain ⟨hd, hlt⟩ := List.forall_mem_cons.mp hlt
    rcases List.mem_cons.mp hc with rfl | hc
    · exact ⟨d, hd, hwrites⟩
    · exact ih hc hlt

theorem isWordChar_of_mem (h : WritesNumber radix cs n) (hc : c ∈ cs) : isWordChar c = true := by
  obtain ⟨d, -, hd⟩ := h.exists_writesDigit hc
  exact hd.facts.2.1

theorem not_isNumberSuffix (h : WritesNumber radix cs n) (hc : c ∈ cs) :
    isNumberSuffix c = false := by
  obtain ⟨d, -, hd⟩ := h.exists_writesDigit hc
  exact hd.facts.2.2.1

theorem isDigit_of_mem (h : WritesNumber radix cs n) (hradix : radix ≤ 10) (hc : c ∈ cs) :
    c.isDigit = true := by
  obtain ⟨d, hlt, hd⟩ := h.exists_writesDigit hc
  exact hd.facts.2.2.2 (by omega)

end WritesNumber

theorem dropEndWhile_append {p : Char → Bool} (hcs : ∀ c ∈ cs.getLast?, p c = false)
    (hsuffix : ∀ c ∈ suffix, p c = true) : dropEndWhile p (cs ++ suffix) = cs := by
  have hstop : cs.reverse.dropWhile p = cs.reverse := by
    rw [← List.head?_reverse] at hcs
    cases hrev : cs.reverse with
    | nil => rfl
    | cons c ds =>
      rw [hrev] at hcs
      simp [hcs c rfl]
  rw [dropEndWhile, List.reverse_append, List.dropWhile_append_of_pos (by simpa using hsuffix),
    hstop, List.reverse_reverse]

namespace IsNumber

/-- The digits of a number, and the radix they are read in. -/
theorem exists_writesNumber (h : IsNumber cs n) : ∃ radix mark digits,
    cs = mark ++ digits ∧ (∀ c ∈ mark, isWordChar c = true) ∧ 0 < radix ∧ radix ≤ 16 ∧
      WritesNumber radix digits n ∧ radixAndDigits cs = (radix, digits) := by
  cases h with
  | decimal h hzero =>
    refine ⟨10, [], cs, rfl, by simp, by decide, by decide, h, ?_⟩
    by_cases hhead : cs.head? = some '0'
    · rw [hzero hhead]
      rfl
    · cases cs with
      | nil => rfl
      | cons c cs =>
        have hc : c ≠ '0' := by simpa using hhead
        simp [radixAndDigits, hc]
  | @octal ds _ h =>
    refine ⟨8, ['0'], ds, rfl, by simp; decide, by decide, by decide, h, ?_⟩
    cases ds with
    | nil => exact absurd rfl h.1
    | cons c ds =>
      have hc := h.isDigit_of_mem (by decide) List.mem_cons_self
      have hne : c ≠ 'x' ∧ c ≠ 'X' ∧ c ≠ 'b' ∧ c ≠ 'B' := by
        refine ⟨?_, ?_, ?_, ?_⟩ <;> rintro rfl <;> exact absurd hc (by decide)
      simp [radixAndDigits, hne]
  | @hexadecimal x ds _ hx h =>
    refine ⟨16, ['0', x], ds, rfl, ?_, by decide, by decide, h, ?_⟩
    · rcases hx with rfl | rfl <;> simp <;> decide
    · rcases hx with rfl | rfl <;> rfl
  | @binary b ds _ hb h =>
    refine ⟨2, ['0', b], ds, rfl, ?_, by decide, by decide, h, ?_⟩
    · rcases hb with rfl | rfl <;> simp <;> decide
    · rcases hb with rfl | rfl <;> rfl

theorem number_eq (h : IsNumber cs n) (hn : n < 2 ^ 64)
    (hsuffix : ∀ c ∈ suffix, isNumberSuffix c = true) :
    number (cs ++ suffix) = .ok (Int64.ofNat n) := by
  obtain ⟨radix, mark, digits, hcs, -, hpos, hle, hdigits, hradix⟩ := h.exists_writesNumber
  have hlast : ∀ c ∈ cs.getLast?, isNumberSuffix c = false := by
    intro c hc
    rw [hcs, List.getLast?_append_of_ne_nil _ hdigits.1] at hc
    exact hdigits.not_isNumberSuffix (List.mem_of_getLast? hc)
  have hread : readDigits radix wordSize digits = .ok n := hdigits.readDigits_eq ⟨hpos, hle⟩ hn
  rw [number, dropEndWhile_append hlast hsuffix, hradix]
  simp only [hread]

theorem isWordChar_of_mem (h : IsNumber cs n) (hc : c ∈ cs) : isWordChar c = true := by
  obtain ⟨radix, mark, digits, rfl, hmark, -, -, hdigits, -⟩ := h.exists_writesNumber
  rcases List.mem_append.mp hc with hc | hc
  · exact hmark c hc
  · exact hdigits.isWordChar_of_mem hc

theorem exists_eq_cons (h : IsNumber cs n) : ∃ c ds, cs = c :: ds ∧ c.isDigit = true := by
  cases h with
  | decimal h =>
    obtain ⟨c, ds, rfl⟩ := List.exists_cons_of_ne_nil h.1
    exact ⟨c, ds, rfl, h.isDigit_of_mem (by decide) List.mem_cons_self⟩
  | octal | hexadecimal | binary => exact ⟨'0', _, rfl, by decide⟩

end IsNumber

theorem ofNat_eq_of_signedValue {v : Int64} (hn : n < 2 ^ 64) (hv : v.toInt = signedValue n) :
    Int64.ofNat n = v := by
  apply Int64.toInt_inj.mp
  have hsize : Int64.size = 2 ^ 64 := rfl
  rw [hv, Int64.toInt_ofNat', signedValue, Int.bmod_def, hsize]
  split <;> split <;> omega

/-- Whether a text does not go on with a token that stands before it. -/
def EndsToken (rest : List Char) : Prop := ∀ c ∈ rest.head?, isBlank c = true

theorem isBlank_of_isWordChar (h : isWordChar c = true) : isBlank c = false := by
  by_contra hblank
  rw [Bool.not_eq_false] at hblank
  rw [isWordChar_of_isBlank hblank] at h
  cases h

theorem splitWord_append (hword : ∀ c ∈ word, isWordChar c = true) (hrest : EndsToken rest) :
    splitWord (word ++ rest) = (word, rest) := by
  have hstop : rest.takeWhile isWordChar = [] ∧ rest.dropWhile isWordChar = rest := by
    cases rest with
    | nil => exact ⟨rfl, rfl⟩
    | cons c rest => simp [isWordChar_of_isBlank (hrest c rfl)]
  rw [splitWord, List.takeWhile_append_of_pos hword, List.dropWhile_append_of_pos hword, hstop.1,
    hstop.2, List.append_nil]

theorem sign2?_of_isBlank {d : Char} (h : isBlank d = true) (c : Char) : sign2? c d = none := by
  unfold sign2?
  split
  case h_9 => rfl
  all_goals exact absurd h (by decide)

/-- An operator sign has one character or two. -/
theorem Sign.text_cases (s : Sign) : (∃ c, s.text.toList = [c] ∧ sign1? c = some s) ∨
    ∃ c d, s.text.toList = [c, d] ∧ sign2? c d = some s := by
  cases s with
  | not | complement | question | colon | comma => exact .inl ⟨_, rfl, rfl⟩
  | binary op =>
    cases op with
    | or | and | eq | ne | le | ge | shl | shr => exact .inr ⟨_, _, rfl, rfl⟩
    | bitOr | bitXor | bitAnd | lt | gt | add | sub | mul | div | rem => exact .inl ⟨_, rfl, rfl⟩

theorem nextToken_of_sign1? (h : sign1? c = some s) (cs : List Char) :
    isBlank c = false ∧ nextToken c cs = signToken c cs := by
  unfold sign1? at h
  split at h
  case h_16 => cases h
  all_goals exact ⟨by decide, rfl⟩

theorem nextToken_of_sign2? {d : Char} (h : sign2? c d = some s) (cs : List Char) :
    isBlank c = false ∧ nextToken c cs = signToken c cs := by
  unfold sign2? at h
  split at h
  case h_9 => cases h
  all_goals exact ⟨by decide, rfl⟩

theorem signToken_of_sign1? (h : sign1? c = some s) (hrest : EndsToken rest) :
    signToken c rest = .ok (.sign s, rest) := by
  have hone : rest.head?.bind (sign2? c) = none := by
    cases rest with
    | nil => rfl
    | cons d rest => exact sign2?_of_isBlank (hrest d rfl) c
  simp only [signToken, hone, h]

theorem isDigit_of_isWordStart (h : isWordStart c = true) : c.isDigit = false := by
  change ((decide ('A'.val ≤ c.val ∧ c.val ≤ 'Z'.val) ||
    (decide ('a'.val ≤ c.val) && decide (c.val ≤ 'z'.val))) || c == '_') = true at h
  change (decide ('0'.val ≤ c.val) && decide (c.val ≤ '9'.val)) = false
  simp only [Bool.or_eq_true, Bool.and_eq_true, Bool.and_eq_false_iff, decide_eq_true_eq,
    decide_eq_false_iff_not, beq_iff_eq, UInt32.le_iff_toNat_le] at h ⊢
  change (65 ≤ c.toNat ∧ c.toNat ≤ 90 ∨ 97 ≤ c.toNat ∧ c.toNat ≤ 122) ∨ c = '_' at h
  change ¬48 ≤ c.toNat ∨ ¬c.toNat ≤ 57
  rcases h with h | rfl
  · omega
  · decide

theorem nextToken_of_isNumber (h : IsNumber cs n) (hn : n < 2 ^ 64)
    (hsuffix : ∀ c ∈ suffix, c ∈ ['u', 'U', 'l', 'L']) (hrest : EndsToken rest) :
    ∃ c ds, cs ++ suffix = c :: ds ∧ isBlank c = false ∧
      nextToken c (ds ++ rest) = .ok (.num (Int64.ofNat n), rest) := by
  have hletters : ∀ c ∈ suffix, isNumberSuffix c = true ∧ isWordChar c = true := by
    intro c hc
    have hmem := hsuffix c hc
    simp only [List.mem_cons, List.not_mem_nil, or_false] at hmem
    rcases hmem with rfl | rfl | rfl | rfl <;> decide
  have hword : ∀ c ∈ cs ++ suffix, isWordChar c = true := by
    intro c hc
    rcases List.mem_append.mp hc with hc | hc
    · exact h.isWordChar_of_mem hc
    · exact (hletters c hc).2
  have hnumber := h.number_eq hn fun c hc => (hletters c hc).1
  have hsplit := splitWord_append hword hrest
  obtain ⟨c, ds, rfl, hdigit⟩ := h.exists_eq_cons
  refine ⟨c, ds ++ suffix, rfl, isBlank_of_isWordChar (isWordChar_of_isDigit hdigit), ?_⟩
  rw [List.cons_append] at hnumber hsplit
  rw [List.cons_append] at hsplit
  rw [nextToken, if_pos hdigit, hsplit]
  simp only [hnumber, Except.map]

theorem nextToken_of_isIdentifier (h : isIdentifier word = true)
    (hcheck : ¬featureCheckStart <+: word) (hrest : EndsToken rest) :
    ∃ c cs, word = c :: cs ∧ isBlank c = false ∧
      nextToken c (cs ++ rest) = .ok (.name (String.ofList word), rest) := by
  cases word with
  | nil => cases h
  | cons c cs =>
    simp only [isIdentifier, Bool.and_eq_true, List.all_eq_true] at h
    have hstart := isWordChar_of_isWordStart h.1
    have hsplit := splitWord_append (List.forall_mem_cons.mpr ⟨hstart, h.2⟩) hrest
    refine ⟨c, cs, rfl, isBlank_of_isWordChar hstart, ?_⟩
    rw [List.cons_append] at hsplit
    rw [nextToken, if_neg (by simp [isDigit_of_isWordStart h.1]), if_pos h.1, hsplit]
    simp only [wordToken, List.isPrefixOf_iff_prefix, hcheck, if_false]

theorem nextToken_of_sign (s : Sign) (hrest : EndsToken rest) :
    ∃ c cs, s.text.toList = c :: cs ∧ isBlank c = false ∧
      nextToken c (cs ++ rest) = .ok (.sign s, rest) := by
  obtain ⟨c, htext, hsign⟩ | ⟨c, d, htext, hsign⟩ := s.text_cases
  · obtain ⟨hblank, hnext⟩ := nextToken_of_sign1? hsign ([] ++ rest)
    exact ⟨c, [], htext, hblank, hnext.trans (signToken_of_sign1? hsign hrest)⟩
  · obtain ⟨hblank, hnext⟩ := nextToken_of_sign2? hsign ([d] ++ rest)
    refine ⟨c, [d], htext, hblank, hnext.trans ?_⟩
    simp [signToken, hsign]

/-- A token is read where it is written, up to a blank or the end of the text. -/
theorem Writes.nextToken_eq (h : Writes word t) (hrest : EndsToken rest) : ∃ c cs, word = c :: cs ∧
    isBlank c = false ∧ nextToken c (cs ++ rest) = .ok (t, rest) := by
  cases h with
  | num h hn hsuffix hv =>
    rw [← ofNat_eq_of_signedValue hn hv]
    exact nextToken_of_isNumber h hn hsuffix hrest
  | name h hcheck => exact nextToken_of_isIdentifier h hcheck hrest
  | sign s => exact nextToken_of_sign s hrest
  | opening => exact ⟨'(', [], rfl, by decide, rfl⟩
  | closing => exact ⟨')', [], rfl, by decide, rfl⟩

theorem tokenize_of_isBlank (h : isBlank c = true) : tokenize (c :: cs) = tokenize cs := by
  rw [tokenize.eq_def]
  simp only [h, if_true]

theorem tokenize_of_nextToken (hblank : isBlank c = false) (h : nextToken c cs = .ok (t, rest)) :
    tokenize (c :: cs) = (tokenize rest).map (t :: ·) := by
  rw [tokenize.eq_def]
  simp only [hblank, Bool.false_eq_true, if_false]
  split
  · next hnext =>
    rw [h] at hnext
    cases hnext
  · next hnext =>
    rw [h] at hnext
    cases hnext
    rfl

theorem tokenize_blanks (hgap : allBlank gap = true) (cs : List Char) :
    tokenize (gap ++ cs) = tokenize cs := by
  induction gap with
  | nil => rfl
  | cons c gap ih =>
    simp only [allBlank, List.all_cons, Bool.and_eq_true] at hgap ih
    rw [List.cons_append, tokenize_of_isBlank hgap.1, ih hgap.2]

/-- A token ends where it is written, for what follows it in a text is a blank or nothing. -/
theorem Prints.endsToken (h : Prints cs ts) (hgap : allBlank gap = true)
    (hbetween : ts ≠ [] → gap ≠ []) : EndsToken (gap ++ cs) := by
  intro c hc
  cases gap with
  | cons b gap =>
    obtain rfl : b = c := by simpa using hc
    exact List.all_eq_true.mp hgap b List.mem_cons_self
  | nil =>
    cases h with
    | nil => simp at hc
    | cons => exact absurd rfl (hbetween (List.cons_ne_nil _ _))

/-- Tokens written with blanks between neighbours are read back, numbers as signed words. -/
theorem tokenize_of_prints (h : Prints cs ts) : tokenize cs = .ok ts := by
  induction h with
  | nil => rw [tokenize.eq_def]
  | @cons word gap cs t ts hword hgap hbetween h ih =>
    obtain ⟨c, ds, rfl, hblank, hnext⟩ := hword.nextToken_eq (h.endsToken hgap hbetween)
    rw [List.cons_append, tokenize_of_nextToken hblank hnext, tokenize_blanks hgap, ih]
    rfl

/-- The greatest number is minus one. -/
theorem tokenize_of_greatest_number :
    Prints "0xFFFFFFFFFFFFFFFFuL >= A_1\t".toList [.num (-1), .sign (.binary .ge), .name "A_1"] ∧
      tokenize "0xFFFFFFFFFFFFFFFFuL >= A_1\t".toList =
        .ok [.num (-1), .sign (.binary .ge), .name "A_1"] := by
  have hdigits : WritesNumber 16 (List.replicate 16 'F') (2 ^ 64 - 1) := by
    refine ⟨by decide, List.replicate 16 15, ?_, by decide, by decide⟩
    simp only [List.replicate, List.forall₂_cons, List.Forall₂.nil, and_true, and_self, WritesDigit]
    decide
  have hnumber : Writes ('0' :: 'x' :: List.replicate 16 'F' ++ ['u', 'L']) (.num (-1)) :=
    .num (.hexadecimal (.inl rfl) hdigits) (by decide) (by simp) (by decide)
  have hname : Writes "A_1".toList (.name "A_1") := .name (by decide) (by decide)
  have hlast := @Prints.cons _ ['\t'] _ _ _ hname (by decide) (by decide) .nil
  have hsign := @Prints.cons _ [' '] _ _ _ (.sign (.binary .ge)) (by decide) (by decide) hlast
  have hprints : Prints "0xFFFFFFFFFFFFFFFFuL >= A_1\t".toList
      [.num (-1), .sign (.binary .ge), .name "A_1"] :=
    @Prints.cons _ [' '] _ _ _ hnumber (by decide) (by decide) hsign
  exact ⟨hprints, tokenize_of_prints hprints⟩

end MacroSweep.Condition
