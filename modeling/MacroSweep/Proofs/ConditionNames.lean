import MacroSweep.Condition.Lexer
import MacroSweep.Source.Names
import Mathlib.Data.List.Basic

/-! The names collected from a condition are in step with the tokens read from it. Two scans go over
the text: one skips the group behind a feature check, the other goes on inside it, and they meet
again behind it. -/
namespace MacroSweep.Condition

open Source Text

variable {c : Char} {cs group rest : List Char} {depth : Nat} {t : Token} {n : String}

theorem toNat_of_isWordChar (h : isWordChar c = true) : 48 ≤ c.toNat ∧ c.toNat ≤ 122 := by
  change (((decide ('A'.val ≤ c.val ∧ c.val ≤ 'Z'.val) ||
    (decide ('a'.val ≤ c.val) && decide (c.val ≤ 'z'.val))) ||
    (decide ('0'.val ≤ c.val) && decide (c.val ≤ '9'.val))) || c == '_') = true at h
  simp only [Bool.or_eq_true, Bool.and_eq_true, decide_eq_true_eq, beq_iff_eq,
    UInt32.le_iff_toNat_le] at h
  change ((65 ≤ c.toNat ∧ c.toNat ≤ 90 ∨ 97 ≤ c.toNat ∧ c.toNat ≤ 122) ∨
    48 ≤ c.toNat ∧ c.toNat ≤ 57) ∨ c = '_' at h
  rcases h with h | rfl
  · omega
  · decide

theorem isWordChar_of_isBlank (h : isBlank c = true) : isWordChar c = false := by
  rw [Bool.eq_false_iff]
  intro hword
  have hrange := toNat_of_isWordChar hword
  simp only [isBlank, Bool.or_eq_true, Bool.and_eq_true, decide_eq_true_eq, beq_iff_eq] at h
  omega

/-- What is no part of a word holds no names. -/
theorem conditionNames_cons_of_not_isWordChar (h : isWordChar c = false) (cs : List Char) :
    conditionNames (c :: cs) = conditionNames cs := by
  have hdigit : c.isDigit ≠ true := fun hc => by simp [isWordChar_of_isDigit hc] at h
  have hstart : isWordStart c ≠ true := fun hc => by simp [isWordChar_of_isWordStart hc] at h
  rw [conditionNames, if_neg hdigit, if_neg hstart]

theorem conditionNames_trimStart (cs : List Char) :
    conditionNames (trimStart cs) = conditionNames cs := by
  induction cs with
  | nil => rfl
  | cons c cs ih =>
    rw [trimStart, List.dropWhile_cons]
    split
    · next hc =>
      rw [← trimStart, ih, conditionNames_cons_of_not_isWordChar (isWordChar_of_isBlank hc)]
    · rfl

/-- How many parentheses are open behind a character. -/
def levelAfter (c : Char) (depth : Nat) : Nat :=
  if c = '(' then depth + 1 else if c = ')' then depth - 1 else depth

theorem one_le_levelAfter (hdepth : 1 ≤ depth) (hc : ¬(c = ')' ∧ depth ≤ 1)) :
    1 ≤ levelAfter c depth := by
  unfold levelAfter
  split
  · omega
  · split
    · next heq =>
      have hlt : ¬depth ≤ 1 := fun hle => hc ⟨heq, hle⟩
      omega
    · exact hdepth

theorem levelAfter_add {k : Nat} (hk : 1 ≤ k) :
    levelAfter c (depth + k) = depth + levelAfter c k := by
  unfold levelAfter
  split
  · omega
  · split <;> omega

/-- A character closes the group, or the group closes behind it. -/
theorem splitClosing_cases (h : splitClosing depth (c :: cs) = some (group, rest)) :
    (c = ')' ∧ depth ≤ 1) ∧ rest = cs ∨
      ¬(c = ')' ∧ depth ≤ 1) ∧
        ∃ group, splitClosing (levelAfter c depth) cs = some (group, rest) := by
  rw [splitClosing] at h
  simp only [beq_iff_eq] at h
  split at h
  · next hc =>
    cases h
    exact .inl ⟨hc, rfl⟩
  · next hc =>
    obtain ⟨⟨inner, r⟩, hsplit, heq⟩ := Option.map_eq_some_iff.mp h
    cases heq
    exact .inr ⟨hc, inner, hsplit⟩

/-- A group does not close inside characters that are no parentheses. -/
theorem splitClosing_dropWhile {p : Char → Bool} (hopening : p '(' = false)
    (hclosing : p ')' = false) (h : splitClosing depth cs = some (group, rest)) :
    ∃ group, splitClosing depth (cs.dropWhile p) = some (group, rest) := by
  induction cs generalizing group with
  | nil => cases h
  | cons c cs ih =>
    rw [List.dropWhile_cons]
    split
    · next hc =>
      have hopen : c ≠ '(' := by
        rintro rfl
        simp [hopening] at hc
      have hclose : c ≠ ')' := by
        rintro rfl
        simp [hclosing] at hc
      rcases splitClosing_cases h with ⟨⟨heq, -⟩, -⟩ | ⟨-, inner, hsplit⟩
      · exact absurd heq hclose
      · rw [levelAfter, if_neg hopen, if_neg hclose] at hsplit
        exact ih hsplit
    · exact ⟨group, h⟩

/-- A group that opens inside another closes inside it. -/
theorem splitClosing_of_inner {k : Nat} {inner after : List Char} (hk : 1 ≤ k) (hdepth : 1 ≤ depth)
    (hinner : splitClosing k cs = some (inner, after))
    (h : splitClosing (depth + k) cs = some (group, rest)) :
    ∃ group, splitClosing depth after = some (group, rest) := by
  induction cs generalizing k inner group with
  | nil => cases hinner
  | cons c cs ih =>
    rcases splitClosing_cases h with ⟨⟨-, hle⟩, -⟩ | ⟨-, outer, hsplit⟩
    · omega
    rcases splitClosing_cases hinner with ⟨⟨rfl, hle⟩, rfl⟩ | ⟨hc, inner, hinner⟩
    · obtain rfl : k = 1 := by omega
      exact ⟨outer, hsplit⟩
    · rw [levelAfter_add hk] at hsplit
      exact ih (one_le_levelAfter hk hc) hinner hsplit

theorem eq_cons_of_splitGroup? (h : splitGroup? cs = some (group, rest)) :
    ∃ inner cs', cs = '(' :: cs' ∧ splitClosing 1 cs' = some (inner, rest) := by
  unfold splitGroup? at h
  split at h
  · next cs' =>
    obtain ⟨⟨inner, r⟩, hsplit, heq⟩ := Option.map_eq_some_iff.mp h
    cases heq
    exact ⟨inner, cs', rfl, hsplit⟩
  · cases h

/-- Nor does it close inside the argument of a feature check. -/
theorem splitClosing_dropHeaderArgument (hdepth : 1 ≤ depth)
    (h : splitClosing depth cs = some (group, rest)) :
    ∃ group, splitClosing depth (dropHeaderArgument cs) = some (group, rest) := by
  have hdrop : ∀ inner after, splitGroup? (trimStart cs) = some (inner, after) →
      ∃ group, splitClosing depth after = some (group, rest) := by
    intro inner after hgroup
    obtain ⟨inner, cs', hcs, hinner⟩ := eq_cons_of_splitGroup? hgroup
    obtain ⟨outer, houter⟩ := splitClosing_dropWhile (p := isBlank) rfl rfl h
    rw [← trimStart, hcs] at houter
    rcases splitClosing_cases houter with ⟨⟨heq, -⟩, -⟩ | ⟨-, outer, houter⟩
    · cases heq
    · exact splitClosing_of_inner (Nat.le_refl 1) hdepth hinner houter
  unfold dropHeaderArgument
  split
  · exact ⟨group, h⟩
  · next inner after hgroup =>
    split
    · exact hdrop inner after hgroup
    · exact hdrop inner after hgroup
    · exact ⟨group, h⟩

/-- The names behind a group are collected by a scan that goes on inside it. -/
theorem conditionNames_subset_of_splitClosing (hdepth : 1 ≤ depth)
    (h : splitClosing depth cs = some (group, rest)) :
    conditionNames rest ⊆ conditionNames cs := by
  have hword : ∀ {c cs depth group}, isWordChar c = true →
      splitClosing depth (c :: cs) = some (group, rest) →
        ∃ group, splitClosing depth (cs.dropWhile isWordChar) = some (group, rest) := by
    intro c cs depth group hc hsplit
    obtain ⟨group, hsplit⟩ := splitClosing_dropWhile (p := isWordChar) rfl rfl hsplit
    rw [List.dropWhile_cons_of_pos hc] at hsplit
    exact ⟨group, hsplit⟩
  fun_induction conditionNames cs generalizing depth group with
  | case1 => cases h
  | case2 c cs hdigit ih =>
    obtain ⟨group, h⟩ := hword (isWordChar_of_isDigit hdigit) h
    exact ih hdepth h
  | case3 =>
    rename_i hstart _ _ _ ih
    obtain ⟨group, h⟩ := hword (isWordChar_of_isWordStart hstart) h
    obtain ⟨group, h⟩ := splitClosing_dropHeaderArgument hdepth h
    exact ih hdepth h
  | case4 =>
    rename_i hstart _ _ _ _ ih
    obtain ⟨group, h⟩ := hword (isWordChar_of_isWordStart hstart) h
    exact ih hdepth h
  | case5 =>
    rename_i hstart _ _ _ _ ih
    obtain ⟨group, h⟩ := hword (isWordChar_of_isWordStart hstart) h
    exact List.subset_cons_of_subset _ (ih hdepth h)
  | case6 c cs _ _ ih =>
    rcases splitClosing_cases h with ⟨-, rfl⟩ | ⟨hc, inner, hsplit⟩
    · exact List.Subset.refl _
    · exact ih (one_le_levelAfter hdepth hc) hsplit

/-- The argument of a feature check is dropped by both scans, or by the tokens only. -/
theorem conditionNames_subset_of_splitGroup? (h : splitGroup? (trimStart cs) = some (group, rest)) :
    conditionNames rest ⊆ conditionNames (dropHeaderArgument cs) := by
  have hinside : conditionNames rest ⊆ conditionNames cs := by
    obtain ⟨inner, cs', hcs, hinner⟩ := eq_cons_of_splitGroup? h
    rw [← conditionNames_trimStart cs, hcs, conditionNames_cons_of_not_isWordChar rfl]
    exact conditionNames_subset_of_splitClosing (Nat.le_refl 1) hinner
  rw [dropHeaderArgument, h]
  dsimp only
  split
  · exact List.Subset.refl _
  · exact List.Subset.refl _
  · exact hinside

/-- Whether a text can ask about a name: it is collected, or it is of a kind that never is. -/
def MayAsk (cs : List Char) (n : String) : Prop :=
  n ∈ conditionNames cs ∨ n = "defined" ∨ featureCheckStart.isPrefixOf n.toList = true

theorem MayAsk.mono {ds : List Char} (h : MayAsk cs n)
    (hsub : conditionNames cs ⊆ conditionNames ds) : MayAsk ds n :=
  h.imp_left fun hmem => hsub hmem

theorem conditionNames_word (hdigit : c.isDigit ≠ true) (hstart : isWordStart c = true)
    (cs : List Char) : conditionNames (c :: cs) =
      if featureCheckStart.isPrefixOf (c :: cs.takeWhile isWordChar) then
        conditionNames (dropHeaderArgument (cs.dropWhile isWordChar))
      else if c :: cs.takeWhile isWordChar = "defined".toList then
        conditionNames (cs.dropWhile isWordChar)
      else String.ofList (c :: cs.takeWhile isWordChar) ::
        conditionNames (cs.dropWhile isWordChar) := by
  rw [conditionNames, if_neg hdigit, if_pos hstart]
  rfl

/-- A word is a name that the text mentions, and the scans stay in step behind it. -/
theorem of_wordToken (hdigit : c.isDigit ≠ true) (hstart : isWordStart c = true)
    (h : wordToken (c :: cs.takeWhile isWordChar) (cs.dropWhile isWordChar) = (t, rest)) :
    conditionNames rest ⊆ conditionNames (c :: cs) ∧ ∀ n, t = .name n → MayAsk (c :: cs) n := by
  have hnames := conditionNames_word hdigit hstart cs
  rw [wordToken] at h
  by_cases hcheck : featureCheckStart.isPrefixOf (c :: cs.takeWhile isWordChar) = true
  · rw [if_pos hcheck] at h hnames
    cases hgroup : splitGroup? (trimStart (cs.dropWhile isWordChar)) with
    | some split =>
      obtain ⟨group, after⟩ := split
      rw [hgroup] at h
      cases h
      rw [hnames]
      exact ⟨conditionNames_subset_of_splitGroup? hgroup, by simp⟩
    | none =>
      rw [hgroup] at h
      cases h
      have hkeep : dropHeaderArgument (cs.dropWhile isWordChar) = cs.dropWhile isWordChar := by
        rw [dropHeaderArgument, hgroup]
      rw [hnames, hkeep]
      refine ⟨List.Subset.refl _, ?_⟩
      rintro n ⟨⟩
      exact .inr (.inr (by rwa [String.toList_ofList]))
  · rw [if_neg hcheck] at h hnames
    cases h
    by_cases hdefined : c :: cs.takeWhile isWordChar = "defined".toList
    · rw [if_pos hdefined] at hnames
      rw [hnames]
      refine ⟨List.Subset.refl _, ?_⟩
      rintro n ⟨⟩
      exact .inr (.inl (by rw [hdefined, String.ofList_toList]))
    · rw [if_neg hdefined] at hnames
      refine ⟨hnames ▸ List.subset_cons_self _ _, ?_⟩
      rintro n ⟨⟩
      exact .inl (hnames ▸ List.mem_cons_self)

/-- One character before an apostrophe is a number, a name or nothing. -/
theorem conditionNames_subset_cons_apostrophe (c : Char) (cs : List Char) :
    conditionNames cs ⊆ conditionNames (c :: '\'' :: cs) := by
  have hapostrophe : conditionNames ('\'' :: cs) = conditionNames cs :=
    conditionNames_cons_of_not_isWordChar rfl cs
  by_cases hdigit : c.isDigit = true
  · rw [conditionNames, if_pos hdigit, List.dropWhile_cons_of_neg (by decide), hapostrophe]
    exact List.Subset.refl _
  · by_cases hstart : isWordStart c = true
    · have hcheck : featureCheckStart.isPrefixOf [c] ≠ true := by
        intro h
        have hle : featureCheckStart.length ≤ 1 := (List.isPrefixOf_iff_prefix.mp h).length_le
        exact absurd hle (by decide)
      have hdefined : [c] ≠ "defined".toList := by
        intro h
        have hlen : 1 = "defined".toList.length := congrArg List.length h
        exact absurd hlen (by decide)
      rw [conditionNames_word hdigit hstart, List.takeWhile_cons_of_neg (by decide),
        List.dropWhile_cons_of_neg (by decide), if_neg hcheck, if_neg hdefined, hapostrophe]
      exact List.subset_cons_self _ _
    · rw [conditionNames, if_neg hdigit, if_neg hstart, hapostrophe]
      exact List.Subset.refl _

theorem eq_of_literalChar? {inside : List Char} (h : literalChar? inside = some c) :
    ∃ d, inside = [d] ∨ inside = ['\\', d] := by
  unfold literalChar? at h
  split at h
  · next d => exact ⟨d, .inl rfl⟩
  · next b d =>
    split at h
    · next hb => exact ⟨d, .inr (by rw [hb])⟩
    · cases h
  · cases h

theorem of_characterLiteral (h : characterLiteral cs = .ok (t, rest)) :
    conditionNames rest ⊆ conditionNames cs ∧ ∀ n, t ≠ .name n := by
  have hcs := List.takeWhile_append_dropWhile (p := (· != '\'')) (l := cs)
  unfold characterLiteral at h
  dsimp only at h
  split at h
  · cases h
  · next d after hdrop =>
    have hd : d = '\'' := by
      have hhead := List.head?_dropWhile_not (· != '\'') cs
      simpa [hdrop] using hhead
    split at h
    · next c hliteral =>
      cases h
      refine ⟨?_, by simp⟩
      rw [hdrop, hd] at hcs
      rw [← hcs]
      obtain ⟨e, hinside | hinside⟩ := eq_of_literalChar? hliteral
      · rw [hinside]
        exact conditionNames_subset_cons_apostrophe e rest
      · rw [hinside, List.cons_append, conditionNames_cons_of_not_isWordChar rfl]
        exact conditionNames_subset_cons_apostrophe e rest
    · cases h

theorem isWordChar_of_sign2? {d : Char} {s : Sign} (h : sign2? c d = some s) :
    isWordChar d = false := by
  unfold sign2? at h
  split at h
  case h_9 => cases h
  all_goals rfl

theorem of_signToken (hc : isWordChar c = false) (h : signToken c cs = .ok (t, rest)) :
    conditionNames rest ⊆ conditionNames (c :: cs) ∧ ∀ n, t ≠ .name n := by
  rw [conditionNames_cons_of_not_isWordChar hc]
  unfold signToken at h
  split at h
  · next s hsign =>
    cases h
    refine ⟨?_, by simp⟩
    obtain ⟨d, hd, hsign⟩ := Option.bind_eq_some_iff.mp hsign
    obtain ⟨ds, rfl⟩ := List.head?_eq_some_iff.mp hd
    rw [conditionNames_cons_of_not_isWordChar (isWordChar_of_sign2? hsign)]
    exact List.Subset.refl _
  · split at h
    · cases h
      exact ⟨List.Subset.refl _, by simp⟩
    · cases h

/-- A token is no name but one that the text mentions, and the scans stay in step behind it. -/
theorem of_nextToken (h : nextToken c cs = .ok (t, rest)) :
    conditionNames rest ⊆ conditionNames (c :: cs) ∧ ∀ n, t = .name n → MayAsk (c :: cs) n := by
  unfold nextToken at h
  split at h
  · next hdigit =>
    have hword := isWordChar_of_isDigit hdigit
    dsimp only [splitWord] at h
    rw [List.takeWhile_cons_of_pos hword, List.dropWhile_cons_of_pos hword] at h
    rw [conditionNames, if_pos hdigit]
    cases hn : number (c :: cs.takeWhile isWordChar) with
    | error e => simp [hn, Except.map] at h
    | ok v =>
      rw [hn] at h
      cases h
      exact ⟨List.Subset.refl _, by simp⟩
  · next hdigit =>
    split at h
    · next hstart =>
      have hword := isWordChar_of_isWordStart hstart
      dsimp only [splitWord] at h
      rw [List.takeWhile_cons_of_pos hword, List.dropWhile_cons_of_pos hword] at h
      exact of_wordToken hdigit hstart (Except.ok.inj h)
    · next hstart =>
      have hword : isWordChar c = false := by
        simp_all [isWordChar, isWordStart, Char.isAlphanum]
      have hnames := conditionNames_cons_of_not_isWordChar hword cs
      split at h
      · obtain ⟨hsub, hname⟩ := of_characterLiteral h
        exact ⟨hnames ▸ hsub, fun n hn => absurd hn (hname n)⟩
      · split at h
        · cases h
          exact ⟨hnames ▸ List.Subset.refl _, by simp⟩
        · split at h
          · cases h
            exact ⟨hnames ▸ List.Subset.refl _, by simp⟩
          · obtain ⟨hsub, hname⟩ := of_signToken hword h
            exact ⟨hsub, fun n hn => absurd hn (hname n)⟩

/-- Every name among the tokens of a text is one that the text mentions. -/
theorem mayAsk_of_tokenize {ts : List Token} (h : tokenize cs = .ok ts) (hn : .name n ∈ ts) :
    MayAsk cs n := by
  fun_induction tokenize cs generalizing ts with
  | case1 =>
    cases h
    cases hn
  | case2 c cs hblank ih =>
    have hnames := conditionNames_cons_of_not_isWordChar (isWordChar_of_isBlank hblank) cs
    exact (ih h hn).mono (hnames ▸ List.Subset.refl _)
  | case3 => cases h
  | case4 c cs _ t rest hnext ih =>
    obtain ⟨hsub, hname⟩ := of_nextToken hnext
    cases hrest : tokenize rest with
    | error e => simp [hrest, Except.map] at h
    | ok us =>
      rw [hrest] at h
      cases h
      rcases List.mem_cons.mp hn with heq | hn
      · exact hname n heq.symm
      · exact (ih hrest hn).mono hsub

end MacroSweep.Condition
