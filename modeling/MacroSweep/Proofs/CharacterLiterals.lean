import MacroSweep.Proofs.Evaluation
import MacroSweep.Proofs.TokenText

/-! Character literals in conditions: they stand for the code point of their character, alone and
wherever reading comes to them. The end of a literal is looked for before its escape is, so the
apostrophe has no literal. -/
namespace MacroSweep.Condition

open Text

/-- How a character is written between apostrophes. -/
def spelling : Char → List Char
  | '\n' => ['\\', 'n']
  | '\t' => ['\\', 't']
  | '\r' => ['\\', 'r']
  | '\x00' => ['\\', '0']
  | '\\' => ['\\', '\\']
  | '\'' => ['\\', '\'']
  | c => [c]

/-- The literal of a character. -/
def characterText (c : Char) : List Char := '\'' :: spelling c ++ ['\'']

/-- Whether reading a text passes tokens and then comes to `rest`. -/
inductive ReadsTo (rest : List Char) : List Char → List Token → Prop where
  | here : ReadsTo rest rest []
  | blank {c cs ts} (hblank : isBlank c = true) (h : ReadsTo rest cs ts) : ReadsTo rest (c :: cs) ts
  | token {c cs next t ts} (hblank : isBlank c = false) (hnext : nextToken c cs = .ok (t, next))
      (h : ReadsTo rest next ts) : ReadsTo rest (c :: cs) (t :: ts)

variable {c : Char} {cs text rest : List Char} {ts before : List Token} {e : Error}
  {macros : MacroTable}

theorem tokenize_of_error (hblank : isBlank c = false) (h : nextToken c cs = .error e) :
    tokenize (c :: cs) = .error e := by
  rw [tokenize.eq_def]
  simp only [hblank, Bool.false_eq_true, if_false]
  split
  · next hnext =>
    rw [h] at hnext
    cases hnext
    rfl
  · next hnext =>
    rw [h] at hnext
    cases hnext

/-- The tokens that were passed stand before those of the rest. -/
theorem ReadsTo.tokenize_eq (h : ReadsTo rest text before) :
    tokenize text = (tokenize rest).map (before ++ ·) := by
  induction h with
  | here => cases tokenize rest <;> rfl
  | blank hblank _ ih => rw [tokenize_of_isBlank hblank, ih]
  | token hblank hnext _ ih =>
    rw [tokenize_of_nextToken hblank hnext, ih]
    cases tokenize rest <;> rfl

theorem literalChar?_spelling (c : Char) : literalChar? (spelling c) = some c := by
  unfold spelling
  split
  case h_7 => simp_all [literalChar?]
  all_goals rfl

theorem ne_apostrophe_of_mem_spelling {d : Char} (h : c ≠ '\'') (hd : d ∈ spelling c) :
    d ≠ '\'' := by
  rintro rfl
  unfold spelling at hd
  split at hd
  case h_6 => exact h rfl
  case h_7 => exact h (List.mem_singleton.mp hd).symm
  all_goals simp at hd

/-- The literal of any other character than the apostrophe is read as its code point. -/
theorem nextToken_characterText (h : c ≠ '\'') (rest : List Char) :
    nextToken '\'' (spelling c ++ '\'' :: rest) = .ok (.num (Int64.ofNat c.toNat), rest) := by
  have hinside : ∀ d ∈ spelling c, (d != '\'') = true :=
    fun d hd => bne_iff_ne.mpr (ne_apostrophe_of_mem_spelling h hd)
  have htake : (spelling c ++ '\'' :: rest).takeWhile (· != '\'') = spelling c := by
    rw [List.takeWhile_append_of_pos hinside]
    simp
  have hdrop : (spelling c ++ '\'' :: rest).dropWhile (· != '\'') = '\'' :: rest := by
    rw [List.dropWhile_append_of_pos hinside]
    simp
  change characterLiteral _ = _
  simp only [characterLiteral, htake, hdrop, literalChar?_spelling]

/-- The literal of the apostrophe ends at the apostrophe it spells. -/
theorem nextToken_apostrophe (rest : List Char) :
    nextToken '\'' (spelling '\'' ++ '\'' :: rest) = .error (.invalidLiteral "'\\'") := rfl

theorem tokenize_characterText (h : c ≠ '\'') (rest : List Char) :
    tokenize (characterText c ++ rest) =
      (tokenize rest).map (.num (Int64.ofNat c.toNat) :: ·) := by
  rw [characterText, List.cons_append, List.cons_append, List.append_assoc]
  exact tokenize_of_nextToken (by decide) (nextToken_characterText h rest)

theorem tokenize_apostrophe (rest : List Char) :
    tokenize (characterText '\'' ++ rest) = .error (.invalidLiteral "'\\'") := by
  rw [characterText, List.cons_append, List.cons_append, List.append_assoc]
  exact tokenize_of_error (by decide) (nextToken_apostrophe rest)

theorem toInt_ofNat_toNat (c : Char) : (Int64.ofNat c.toNat).toInt = c.toNat := by
  have hvalid : c.toNat < 0xD800 ∨ 0xDFFF < c.toNat ∧ c.toNat < 0x110000 := c.valid
  exact Int64.toInt_ofNat_of_lt (by omega)

theorem valueOf_num (v : Int64) : valueOf [.num v] = .ok v :=
  valueOf_of_derives (.loose ((Derives.num v).operand.looser (by decide)))

theorem evaluate_of_tokens (htokens : tokenize text = .ok ts) (hne : ts ≠ []) :
    evaluate macros text = expand macros [] ts >>= valueOf := by
  rw [evaluate, htokens, ok_bind]
  cases ts with
  | nil => exact absurd rfl hne
  | cons t ts => rfl

/-- A literal that is the whole condition. -/
theorem evaluate_characterText_iff (macros : MacroTable) (c : Char) :
    evaluate macros (characterText c) = .ok (Int64.ofNat c.toNat) ↔ c ≠ '\'' := by
  rw [← List.append_nil (characterText c)]
  by_cases hc : c = '\''
  · subst hc
    have hrefused : evaluate macros (characterText '\'' ++ []) =
        .error (.invalidLiteral "'\\'") := by
      rw [evaluate, tokenize_apostrophe]
      rfl
    rw [hrefused]
    simp
  · have htokens : tokenize (characterText c ++ []) = .ok [.num (Int64.ofNat c.toNat)] := by
      rw [tokenize_characterText hc, tokenize.eq_def]
      rfl
    rw [evaluate_eq_valueOf htokens (by simp), valueOf_num]
    simp [hc]

/-- A literal that reading comes to after other tokens. -/
theorem evaluate_of_readsTo (h : ReadsTo (characterText c ++ rest) text before) :
    evaluate macros text = if c = '\'' then .error (.invalidLiteral "'\\'")
      else tokenize rest >>= fun after =>
        expand macros [] (before ++ .num (Int64.ofNat c.toNat) :: after) >>= valueOf := by
  have htokens := h.tokenize_eq
  split
  · next hc =>
    subst hc
    rw [tokenize_apostrophe] at htokens
    rw [evaluate, htokens]
    rfl
  · next hc =>
    rw [tokenize_characterText hc] at htokens
    cases hrest : tokenize rest with
    | error e =>
      rw [hrest] at htokens
      rw [evaluate, htokens]
      rfl
    | ok after =>
      rw [hrest] at htokens
      exact evaluate_of_tokens htokens (by simp)

/-- Apart from the apostrophe, a character literal has the code point of its character as its value,
and wherever reading comes to it, it stands for that number: the tokens that were passed, the number
and the tokens of the rest are evaluated. The literal of the apostrophe is refused everywhere. -/
theorem evaluate_characterText (macros : MacroTable) (c : Char) :
    ∃ v : Int64, v.toInt = c.toNat ∧
      (evaluate macros (characterText c) = .ok v ↔ c ≠ '\'') ∧
      ∀ text rest before, ReadsTo (characterText c ++ rest) text before → evaluate macros text =
        if c = '\'' then .error (.invalidLiteral "'\\'")
        else tokenize rest >>= fun after =>
          expand macros [] (before ++ .num v :: after) >>= valueOf :=
  ⟨Int64.ofNat c.toNat, toInt_ofNat_toNat c, evaluate_characterText_iff macros c,
    fun _ _ _ => evaluate_of_readsTo⟩

/-- The backslash as an operand, with its escape. -/
theorem evaluate_one_plus_backslash :
    ReadsTo "'\\\\'".toList "1 + '\\\\'".toList [.num 1, .sign (.binary .add)] ∧
      evaluate ∅ "1 + '\\\\'".toList = .ok 93 := by
  let literal := characterText '\\' ++ []
  have hone : nextToken '1' (' ' :: '+' :: ' ' :: literal) =
      .ok (.num 1, ' ' :: '+' :: ' ' :: literal) := by decide +kernel
  have hplus : nextToken '+' (' ' :: literal) = .ok (.sign (.binary .add), ' ' :: literal) := rfl
  have hreads : ReadsTo literal "1 + '\\\\'".toList [.num 1, .sign (.binary .add)] :=
    .token (by decide) hone <| .blank (by decide) <|
      .token (by decide) hplus <| .blank (by decide) .here
  obtain ⟨v, hv, -, hoperand⟩ := evaluate_characterText ∅ '\\'
  have hvalue : v = 92 := Int64.toInt_inj.mp hv
  have hnum : ∀ n : Int64, Derives (.level 11) [.num n] (.num n) := fun n => (Derives.num n).operand
  have htree : Derives .ternary [.num 1, .sign (.binary .add), .num 92]
      (.binary .add (.num 1) (.num 92)) :=
    .loose ((Derives.binary (n := 9) (by decide) ((hnum 1).looser (by decide))
      ((hnum 92).looser (by decide))).looser (by decide))
  refine ⟨hreads, ?_⟩
  rw [hoperand _ _ _ hreads, if_neg (by decide), tokenize.eq_def, ok_bind, hvalue,
    expand_of_no_names _ _ (by simp)]
  exact valueOf_of_derives htree

/-- The apostrophe with its escape has no value, though its code point is 39. -/
theorem evaluate_apostrophe :
    characterText '\'' = "'\\''".toList ∧
      evaluate ∅ "'\\''".toList = .error (.invalidLiteral "'\\'") ∧
      ¬∃ v : Int64, v.toInt = 39 ∧ evaluate ∅ (characterText '\'') = .ok v := by
  have hrefused : evaluate ∅ (characterText '\'') = .error (.invalidLiteral "'\\'") := by
    have htokens := tokenize_apostrophe []
    rw [List.append_nil] at htokens
    rw [evaluate, htokens]
    rfl
  refine ⟨rfl, hrefused, ?_⟩
  rintro ⟨v, -, hv⟩
  rw [hrefused] at hv
  cases hv

end MacroSweep.Condition
