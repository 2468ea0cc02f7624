import MacroSweep.Text.Lines
import MacroSweep.Text.Numeral

/-! Trimming, cutting a text at separators, and decimal numerals. -/
namespace MacroSweep.Text

variable {sep : Char} {piece cs : List Char} {pieces : List (List Char)}

theorem trimEnd_cons (c : Char) (cs : List Char) :
    trimEnd (c :: cs) =
      if trimEnd cs = [] then (if isBlank c then [] else [c]) else c :: trimEnd cs := by
  simp only [trimEnd, dropEndWhile, List.reverse_cons, List.dropWhile_append, List.isEmpty_iff,
    List.reverse_eq_nil_iff]
  split
  · by_cases hc : isBlank c <;> simp [hc]
  · simp

/-- Blanks in front do not change what a text ends in. -/
theorem getLast?_trim (cs : List Char) : (trim cs).getLast? = (trimEnd cs).getLast? := by
  induction cs with
  | nil => rfl
  | cons c cs ih =>
    simp only [trim, trimStart, List.dropWhile_cons] at ih ⊢
    split
    · next hc =>
      rw [ih, trimEnd_cons]
      by_cases he : trimEnd cs = []
      · simp [he, hc]
      · simp [he, List.getLast?_cons_of_ne_nil]
    · rfl

theorem mem_of_mem_trim {c : Char} (h : c ∈ trim cs) : c ∈ cs := by
  rw [trim, trimEnd, dropEndWhile, List.mem_reverse] at h
  have hmem := List.mem_reverse.mp ((List.dropWhile_sublist _).mem h)
  exact (List.dropWhile_sublist _).mem hmem

theorem mem_of_cutAt? {p : Char → Bool} {c : Char} {before after : List Char}
    (h : cutAt? p cs = some (before, after)) (hc : c ∈ after) : c ∈ cs := by
  unfold cutAt? at h
  split at h
  · cases h
  · next hdrop =>
    cases h
    exact (List.dropWhile_sublist _).mem (hdrop ▸ List.mem_cons_of_mem _ hc)

theorem splitOn_ne_nil (sep : Char) (cs : List Char) : splitOn sep cs ≠ [] := by
  cases cs with
  | nil => simp [splitOn]
  | cons c cs =>
    unfold splitOn
    split
    · simp
    · split <;> simp

theorem splitOn_sep_cons (sep : Char) (cs : List Char) :
    splitOn sep (sep :: cs) = [] :: splitOn sep cs := by
  obtain ⟨piece, pieces, h⟩ := List.exists_cons_of_ne_nil (splitOn_ne_nil sep cs)
  simp [splitOn, h]

theorem splitOn_of_notMem (h : sep ∉ piece) : splitOn sep piece = [piece] := by
  induction piece with
  | nil => rfl
  | cons c piece ih =>
    rw [List.mem_cons, not_or] at h
    simp [splitOn, ih h.2, Ne.symm h.1]

/-- A separator parts the pieces before it from those after it. -/
theorem splitOn_append_cons (cs ds : List Char) :
    splitOn sep (cs ++ sep :: ds) = splitOn sep cs ++ splitOn sep ds := by
  induction cs with
  | nil => exact splitOn_sep_cons sep ds
  | cons c cs ih =>
    obtain ⟨piece, pieces, h⟩ := List.exists_cons_of_ne_nil (splitOn_ne_nil sep cs)
    simp only [List.cons_append, splitOn, ih, h]
    split <;> rfl

/-- Joining pieces and cutting them apart again gives the same pieces. -/
theorem splitOn_joinWith (hne : pieces ≠ []) (h : ∀ p ∈ pieces, sep ∉ p) :
    splitOn sep (joinWith sep pieces) = pieces := by
  induction pieces with
  | nil => exact absurd rfl hne
  | cons piece rest ih =>
    cases rest with
    | nil => exact splitOn_of_notMem (h piece (by simp))
    | cons next rest =>
      rw [joinWith, splitOn_append_cons, splitOn_of_notMem (h piece (by simp)),
        ih (by simp) fun p hp => h p (List.mem_cons_of_mem _ hp), List.singleton_append]

theorem joinWith_splitOn (sep : Char) (cs : List Char) : joinWith sep (splitOn sep cs) = cs := by
  induction cs with
  | nil => rfl
  | cons c cs ih =>
    obtain ⟨piece, pieces, h⟩ := List.exists_cons_of_ne_nil (splitOn_ne_nil sep cs)
    rw [h] at ih
    simp only [splitOn, h]
    split
    · next hc => rw [joinWith, ih, hc, List.nil_append]
    · cases pieces <;> simp_all [joinWith]

/-- The first separator tells what stands before it and after it. -/
theorem eq_of_append_cons {cs ds es fs : List Char} (hc : sep ∉ cs) (hd : sep ∉ ds)
    (h : cs ++ sep :: es = ds ++ sep :: fs) : cs = ds ∧ es = fs := by
  have hpieces := congrArg (splitOn sep) h
  rw [splitOn_append_cons, splitOn_append_cons, splitOn_of_notMem hc, splitOn_of_notMem hd]
    at hpieces
  have hfirst : cs = ds := (List.cons.inj hpieces).1
  rw [hfirst] at h
  exact ⟨hfirst, (List.cons.inj (List.append_cancel_left h)).2⟩

theorem sep_notMem_of_mem_splitOn (h : piece ∈ splitOn sep cs) : sep ∉ piece := by
  induction cs generalizing piece with
  | nil => simp_all [splitOn]
  | cons c cs ih =>
    obtain ⟨first, more, hs⟩ := List.exists_cons_of_ne_nil (splitOn_ne_nil sep cs)
    simp only [splitOn, hs] at h ih
    split at h
    · rcases List.mem_cons.mp h with rfl | h
      · simp
      · exact ih h
    · next hc =>
      rcases List.mem_cons.mp h with rfl | h
      · simpa [Ne.symm hc] using ih (by simp)
      · exact ih (List.mem_cons_of_mem _ h)

theorem intercalate_eq_joinWith (sep : Char) (pieces : List (List Char)) :
    [sep].intercalate pieces = joinWith sep pieces := by
  induction pieces with
  | nil => rfl
  | cons piece rest ih =>
    cases rest with
    | nil => simp [joinWith]
    | cons next rest =>
      rw [joinWith, ← ih]
      simp [List.intercalate]

theorem addDigits_append (radix bound n : Nat) (cs ds : List Char) :
    addDigits radix bound n (cs ++ ds) =
      addDigits radix bound n cs >>= fun m => addDigits radix bound m ds := by
  induction cs generalizing n with
  | nil => rfl
  | cons c cs ih =>
    simp only [List.cons_append, addDigits]
    split
    · rfl
    · split
      · exact ih _
      · rfl

theorem toDigits_injective {m n : Nat} (h : Nat.toDigits 10 m = Nat.toDigits 10 n) : m = n := by
  have hvalue := congrArg (fun ds => Nat.ofDigitChars 10 ds 0) h
  simpa only [Nat.ofDigitChars_ten_toDigits] using hvalue

theorem digitValue?_digitChar : ∀ d < 10, digitValue? 10 (Nat.digitChar d) = some d := by decide

/-- A number is read back from its decimal digits. -/
theorem addDigits_toDigits {n bound : Nat} (h : n < bound) :
    addDigits 10 bound 0 (Nat.toDigits 10 n) = .ok n := by
  induction n using Nat.strongRecOn with
  | ind n ih =>
    by_cases hn : n < 10
    · rw [Nat.toDigits_of_lt_base hn]
      simp [addDigits, digitValue?_digitChar n hn, h]
    · have hlast := digitValue?_digitChar (n % 10) (Nat.mod_lt n (by decide))
      have hvalue : n / 10 * 10 + n % 10 = n := by omega
      rw [Nat.toDigits_of_base_le (by decide) (by omega), addDigits_append,
        ih (n / 10) (by omega) (by omega)]
      simp [bind, Except.bind, addDigits, hlast, hvalue, h]

/-- Only zero is written with a leading zero. -/
theorem isDigit_of_mem_toDigits {n : Nat} {c : Char} (h : c ∈ Nat.toDigits 10 n) :
    c.isDigit = true :=
  Nat.isDigit_of_mem_toDigits (by decide) (by decide) h

/-- A number is written with a digit first. -/
theorem exists_toDigits_eq_cons (n : Nat) :
    ∃ c ds, Nat.toDigits 10 n = c :: ds ∧ c.isDigit = true := by
  have hne : Nat.toDigits 10 n ≠ [] := Nat.toDigits_ne_nil
  obtain ⟨c, ds, hc⟩ := List.exists_cons_of_ne_nil hne
  refine ⟨c, ds, hc, isDigit_of_mem_toDigits (n := n) ?_⟩
  rw [hc]
  exact List.mem_cons_self

theorem toDigits_eq_zero_cons {n : Nat} {ds : List Char} (h : Nat.toDigits 10 n = '0' :: ds) :
    n = 0 ∧ ds = [] := by
  induction n using Nat.strongRecOn generalizing ds with
  | ind n ih =>
    by_cases hn : n < 10
    · rw [Nat.toDigits_of_lt_base hn, List.cons.injEq] at h
      have hzero : ∀ d < 10, Nat.digitChar d = '0' → d = 0 := by decide
      exact ⟨hzero n hn h.1, h.2.symm⟩
    · rw [Nat.toDigits_of_base_le (by decide) (by omega)] at h
      obtain ⟨c, cs, hc, -⟩ := exists_toDigits_eq_cons (n / 10)
      rw [hc, List.cons_append, List.cons.injEq] at h
      rw [h.1] at hc
      have := (ih (n / 10) (by omega) hc).1
      omega

end MacroSweep.Text
