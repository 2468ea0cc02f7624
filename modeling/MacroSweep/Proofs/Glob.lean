import MacroSweep.Glob
import Mathlib.Data.List.Forall2
import Mathlib.Tactic.Tauto

/-! The meaning of glob patterns: a pattern matches a text that can be cut into pieces, one for each
of its tokens. The matcher keeps the positions of the text that the tokens read so far can end
at. -/
namespace MacroSweep.Glob

open Text

variable {p : Char → Bool} {here seen slash : Bool} {row : List Bool} {c : Char} {t : Token}
  {ts : List Token} {cs front rest : List Char} {n : Nat}

/-- The piece of text that a token stands for. -/
def Token.Matches : Token → List Char → Prop
  | .literal c, piece => piece = [c]
  | .anyChar, piece => ∃ c, c ≠ '/' ∧ piece = [c]
  | .star, piece => '/' ∉ piece
  | .globStar, _ => True
  | .segments, piece => piece = [] ∨ piece.getLast? = some '/'

/-- The tokens of a pattern, read from left to right. A run of stars is read as a whole. -/
inductive Reads : List Char → List Token → Prop where
  | nil : Reads [] []
  | segments {n : Nat} {cs : List Char} {ts : List Token} : 2 ≤ n → Reads cs ts →
      Reads (List.replicate n '*' ++ '/' :: cs) (.segments :: ts)
  | globStar {n : Nat} {cs : List Char} {ts : List Token} : 2 ≤ n → cs.head? ≠ some '*' →
      cs.head? ≠ some '/' → Reads cs ts → Reads (List.replicate n '*' ++ cs) (.globStar :: ts)
  | star {cs : List Char} {ts : List Token} : cs.head? ≠ some '*' → Reads cs ts →
      Reads ('*' :: cs) (.star :: ts)
  | anyChar {cs : List Char} {ts : List Token} : Reads cs ts → Reads ('?' :: cs) (.anyChar :: ts)
  | literal {c : Char} {cs : List Char} {ts : List Token} : c ≠ '*' → c ≠ '?' → Reads cs ts →
      Reads (c :: cs) (.literal c :: ts)

theorem tokensAfter_replicate (m n : Nat) (cs : List Char) :
    tokensAfter m (List.replicate n '*' ++ cs) = tokensAfter (m + n) cs := by
  induction n generalizing m with
  | zero => rfl
  | succ n ih =>
    rw [List.replicate_succ, List.cons_append, tokensAfter, if_pos rfl, ih]
    congr 1
    omega

theorem reads_cons (hc : c ≠ '*') (h : Reads cs ts) :
    Reads (c :: cs) ((if c = '?' then Token.anyChar else .literal c) :: ts) := by
  split
  · next hq => exact hq ▸ h.anyChar
  · next hq => exact h.literal hc hq

/-- Stars are counted until the run ends, and only then read. -/
theorem reads_tokensAfter (n : Nat) (cs : List Char) :
    Reads (List.replicate n '*' ++ cs) (tokensAfter n cs) := by
  induction cs generalizing n with
  | nil =>
    match n with
    | 0 => exact .nil
    | 1 => exact .star (by simp) .nil
    | n + 2 => exact .globStar (by omega) (by simp) (by simp) .nil
  | cons c cs ih =>
    by_cases hstar : c = '*'
    · subst hstar
      have hrun : List.replicate n '*' ++ '*' :: cs = List.replicate (n + 1) '*' ++ cs := by
        simp [List.replicate_succ']
      rw [hrun, tokensAfter, if_pos rfl]
      exact ih (n + 1)
    · have hrest : Reads cs (tokensAfter 0 cs) := ih 0
      have hhead : (c :: cs).head? ≠ some '*' := by simpa using hstar
      match n with
      | 0 =>
        simp only [tokensAfter, if_neg hstar]
        exact reads_cons hstar hrest
      | 1 =>
        simp only [tokensAfter, if_neg hstar]
        exact .star hhead (reads_cons hstar hrest)
      | n + 2 =>
        simp only [tokensAfter, if_neg hstar]
        split
        · next hslash =>
          subst hslash
          exact .segments (by omega) hrest
        · next hslash =>
          exact .globStar (by omega) hhead (by simpa using hslash) (reads_cons hstar hrest)

theorem tokensAfter_of_head (hstar : rest.head? ≠ some '*') (hslash : rest.head? ≠ some '/')
    (hn : 2 ≤ n) : tokensAfter n rest = .globStar :: tokensAfter 0 rest := by
  obtain ⟨n, rfl⟩ : ∃ m, n = m + 2 := ⟨n - 2, by omega⟩
  cases rest with
  | nil => rfl
  | cons c cs =>
    have hc : c ≠ '*' := by simpa using hstar
    have hd : c ≠ '/' := by simpa using hslash
    simp [tokensAfter, hc, hd]

theorem tokensAfter_one_of_head (hstar : rest.head? ≠ some '*') :
    tokensAfter 1 rest = .star :: tokensAfter 0 rest := by
  cases rest with
  | nil => rfl
  | cons c cs =>
    have hc : c ≠ '*' := by simpa using hstar
    simp [tokensAfter, hc]

/-- A pattern is read in one way. -/
theorem reads_iff : Reads cs ts ↔ tokensAfter 0 cs = ts := by
  constructor
  · intro h
    induction h with
    | nil => rfl
    | @segments n cs ts hn _ ih =>
      obtain ⟨n, rfl⟩ : ∃ m, n = m + 2 := ⟨n - 2, by omega⟩
      rw [tokensAfter_replicate, Nat.zero_add, ← ih]
      rfl
    | globStar hn hstar hslash _ ih =>
      rw [tokensAfter_replicate, Nat.zero_add, tokensAfter_of_head hstar hslash hn, ih]
    | star hstar _ ih =>
      rw [tokensAfter, if_pos rfl, tokensAfter_one_of_head hstar, ih]
    | anyChar _ ih => simp [tokensAfter, ih]
    | literal hstar hq _ ih => simp [tokensAfter, hstar, hq, ih]
  · rintro rfl
    exact reads_tokensAfter 0 cs

/-- Whether a row says that the position after `front` is reached. -/
def Marks (row : List Bool) (front : List Char) : Prop := row[front.length]? = some true

theorem marks_nil {r : Bool} : Marks (r :: row) [] ↔ r = true := by
  simp [Marks]

theorem marks_cons {r : Bool} : Marks (r :: row) (c :: front) ↔ Marks row front := by
  simp [Marks]

/-- Whether a piece with a property leads from a reached position to the one after `front`. -/
def Follows (row : List Bool) (piece : List Char → Prop) (front : List Char) : Prop :=
  ∃ a b, front = a ++ b ∧ Marks row a ∧ piece b

theorem follows_nil {r : Bool} {piece : List Char → Prop} :
    Follows (r :: row) piece [] ↔ r = true ∧ piece [] := by
  constructor
  · rintro ⟨a, b, hab, ha, hb⟩
    obtain ⟨rfl, rfl⟩ := List.append_eq_nil_iff.mp hab.symm
    exact ⟨marks_nil.mp ha, hb⟩
  · rintro ⟨hr, hb⟩
    exact ⟨[], [], rfl, marks_nil.mpr hr, hb⟩

theorem follows_cons {r : Bool} {piece : List Char → Prop} :
    Follows (r :: row) piece (c :: front) ↔
      (r = true ∧ piece (c :: front)) ∨ Follows row piece front := by
  constructor
  · rintro ⟨a, b, hab, ha, hb⟩
    cases a with
    | nil =>
      obtain rfl : c :: front = b := hab
      exact .inl ⟨marks_nil.mp ha, hb⟩
    | cons d a =>
      obtain ⟨rfl, rfl⟩ := List.cons.inj hab
      exact .inr ⟨a, b, rfl, marks_cons.mp ha, hb⟩
  · rintro (⟨hr, hb⟩ | ⟨a, b, rfl, ha, hb⟩)
    · exact ⟨[], c :: front, rfl, marks_nil.mpr hr, hb⟩
    · exact ⟨c :: a, b, rfl, marks_cons.mpr ha, hb⟩

/-- One character of the class leads on, and `here` stands for a start before the text. -/
theorem marks_overOne (hrow : row.length = (front ++ rest).length + 1) :
    Marks (overOne p here row (front ++ rest)) front ↔
      (front = [] ∧ here = true) ∨ Follows row (fun b => ∃ c, p c = true ∧ b = [c]) front := by
  obtain ⟨r, row, rfl⟩ := List.exists_cons_of_length_eq_add_one hrow
  induction front generalizing r row here with
  | nil => cases rest <;> simp [overOne, marks_nil, follows_nil]
  | cons d front ih =>
    obtain ⟨r', row, rfl⟩ := List.exists_cons_of_length_eq_add_one (by simpa using hrow)
    rw [List.cons_append, overOne, marks_cons, ih _ _ (by simpa using hrow), follows_cons]
    have hpiece : (front = [] ∧ (r && p d) = true) ↔
        r = true ∧ ∃ c, p c = true ∧ d :: front = [c] := by
      simp only [Bool.and_eq_true, List.cons.injEq]
      constructor
      · rintro ⟨hf, hr, hd⟩
        exact ⟨hr, d, hd, rfl, hf⟩
      · rintro ⟨hr, c, hc, rfl, hf⟩
        exact ⟨hf, hr, hc⟩
    simp only [hpiece, reduceCtorEq, false_and, false_or]

/-- Any number of characters of the class leads on. `here` stands for a start before the text. -/
theorem marks_overRun (hrow : row.length = (front ++ rest).length + 1) :
    Marks (overRun p here row (front ++ rest)) front ↔
      (here = true ∧ ∀ c ∈ front, p c = true) ∨ Follows row (∀ c ∈ ·, p c = true) front := by
  obtain ⟨r, row, rfl⟩ := List.exists_cons_of_length_eq_add_one hrow
  induction front generalizing r row here with
  | nil => cases rest <;> simp [overRun, marks_nil, follows_nil, or_comm]
  | cons d front ih =>
    obtain ⟨r', row, rfl⟩ := List.exists_cons_of_length_eq_add_one (by simpa using hrow)
    rw [List.cons_append, overRun, marks_cons, ih _ _ (by simpa using hrow), follows_cons]
    simp only [Bool.and_eq_true, Bool.or_eq_true, List.forall_mem_cons]
    tauto

/-- A slash leads on from any position before it. `seen` stands for a start before the text, and
`slash` for a slash there. -/
theorem marks_overSegments (hrow : row.length = (front ++ rest).length + 1) :
    Marks (overSegments seen slash row (front ++ rest)) front ↔
      (seen = true ∧ ((front = [] ∧ slash = true) ∨ front.getLast? = some '/')) ∨
        Follows row Token.segments.Matches front := by
  obtain ⟨r, row, rfl⟩ := List.exists_cons_of_length_eq_add_one hrow
  induction front generalizing r row seen slash with
  | nil => cases rest <;> simp [overSegments, marks_nil, follows_nil, Token.Matches, or_comm]
  | cons d front ih =>
    obtain ⟨r', row, rfl⟩ := List.exists_cons_of_length_eq_add_one (by simpa using hrow)
    have hlast : (front = [] ∧ (d == '/') = true) ∨ front.getLast? = some '/' ↔
        (d :: front).getLast? = some '/' := by
      cases front <;> simp
    rw [List.cons_append, overSegments, marks_cons, ih _ _ (by simpa using hrow), follows_cons,
      hlast]
    simp only [Bool.or_eq_true, Token.Matches, reduceCtorEq, false_and, false_or]
    tauto

theorem length_overOne (hrow : row.length = cs.length + 1) :
    (overOne p here row cs).length = cs.length + 1 := by
  induction cs generalizing row here with
  | nil => simp [overOne]
  | cons c cs ih =>
    obtain ⟨r, row, rfl⟩ := List.exists_cons_of_length_eq_add_one hrow
    rw [overOne, List.length_cons, ih (by simpa using hrow), List.length_cons]

theorem length_overRun (hrow : row.length = cs.length + 1) :
    (overRun p here row cs).length = cs.length + 1 := by
  obtain ⟨r, row, rfl⟩ := List.exists_cons_of_length_eq_add_one hrow
  induction cs generalizing r row here with
  | nil => simp [overRun]
  | cons c cs ih =>
    obtain ⟨r', row, rfl⟩ := List.exists_cons_of_length_eq_add_one (by simpa using hrow)
    simp [overRun, ih _ _ (by simpa using hrow)]

theorem length_overSegments (hrow : row.length = cs.length + 1) :
    (overSegments seen slash row cs).length = cs.length + 1 := by
  obtain ⟨r, row, rfl⟩ := List.exists_cons_of_length_eq_add_one hrow
  induction cs generalizing r row seen slash with
  | nil => simp [overSegments]
  | cons c cs ih =>
    obtain ⟨r', row, rfl⟩ := List.exists_cons_of_length_eq_add_one (by simpa using hrow)
    simp [overSegments, ih _ _ (by simpa using hrow)]

theorem length_advance (t : Token) (hrow : row.length = cs.length + 1) :
    (t.advance cs row).length = cs.length + 1 := by
  cases t with
  | literal c => exact length_overOne hrow
  | anyChar => exact length_overOne hrow
  | star => exact length_overRun hrow
  | globStar => exact length_overRun hrow
  | segments => exact length_overSegments hrow

/-- A token ends where its piece leads on from a reached position. -/
theorem marks_advance (t : Token) (hrow : row.length = (front ++ rest).length + 1) :
    Marks (t.advance (front ++ rest) row) front ↔ Follows row t.Matches front := by
  cases t with
  | literal c => exact (marks_overOne hrow).trans (by simp [Follows, Token.Matches])
  | anyChar => exact (marks_overOne hrow).trans (by simp [Follows, Token.Matches])
  | star =>
    exact (marks_overRun hrow).trans (by simp [Follows, Token.Matches, List.forall_mem_ne'])
  | globStar => exact (marks_overRun hrow).trans (by simp [Follows, Token.Matches])
  | segments => exact (marks_overSegments hrow).trans (by simp)

/-- A list of tokens ends where pieces, one for each of them, lead on from a reached position. -/
theorem marks_foldl_advance (htext : cs = front ++ rest) (hrow : row.length = cs.length + 1) :
    Marks (ts.foldl (Token.advance cs) row) front ↔
      Follows row (fun b => ∃ pieces, List.Forall₂ Token.Matches ts pieces ∧ pieces.flatten = b)
        front := by
  induction ts generalizing row with
  | nil => simp [Follows]
  | cons t ts ih =>
    -- A piece for the first token is cut off where the other tokens start.
    have hfirst : ∀ a b, front = a ++ b →
        (Marks (t.advance cs row) a ↔ Follows row t.Matches a) := by
      rintro a b rfl
      rw [List.append_assoc] at htext
      subst htext
      exact marks_advance t hrow
    rw [List.foldl_cons, ih (length_advance t hrow)]
    constructor
    · rintro ⟨a, b, hab, ha, pieces, hpieces, rfl⟩
      obtain ⟨a, piece, rfl, ha, hpiece⟩ := (hfirst a _ hab).mp ha
      refine ⟨a, piece ++ pieces.flatten, by simp [hab], ha, piece :: pieces, ?_, rfl⟩
      exact .cons hpiece hpieces
    · rintro ⟨a, b, hab, ha, pieces, hpieces, rfl⟩
      cases hpieces with
      | @cons _ piece _ pieces hpiece hpieces =>
        have hcut : front = (a ++ piece) ++ pieces.flatten := by simp [hab]
        refine ⟨a ++ piece, pieces.flatten, hcut, ?_, pieces, hpieces, rfl⟩
        exact (hfirst _ _ hcut).mpr ⟨a, piece, rfl, ha, hpiece⟩

theorem length_foldl_advance (hrow : row.length = cs.length + 1) :
    (ts.foldl (Token.advance cs) row).length = cs.length + 1 := by
  induction ts generalizing row with
  | nil => exact hrow
  | cons t ts ih => exact ih (length_advance t hrow)

/-- The last position of a text is the one after the whole of it. -/
theorem getLastD_eq_true_iff (hrow : row.length = cs.length + 1) :
    row.getLastD false = true ↔ Marks row cs := by
  have hlast : row.getLast? = row[cs.length]? := by
    rw [List.getLast?_eq_getElem?, hrow, Nat.add_sub_cancel]
  rw [Marks, ← hlast, List.getLastD_eq_getLast?]
  cases row.getLast? <;> simp

/-- At the start only the first position of a text is reached. -/
theorem marks_start : Marks (true :: cs.map fun _ => false) front ↔ front = [] := by
  cases front with
  | nil => simp [Marks]
  | cons c front =>
    simp only [Marks, List.length_cons, List.getElem?_cons_succ, List.getElem?_map]
    cases cs[front.length]? <;> simp

/-- Tokens take a whole text exactly if it can be cut into a piece for each of them. -/
theorem reachesEnd_iff (ts : List Token) (cs : List Char) :
    (ts.foldl (Token.advance cs) (true :: cs.map fun _ => false)).getLastD false = true ↔
      ∃ pieces, List.Forall₂ Token.Matches ts pieces ∧ pieces.flatten = cs := by
  have hstart : (true :: cs.map fun _ => false).length = cs.length + 1 := by simp
  rw [getLastD_eq_true_iff (length_foldl_advance hstart),
    marks_foldl_advance (List.append_nil cs).symm hstart]
  constructor
  · rintro ⟨a, b, hab, ha, hpieces⟩
    obtain rfl := marks_start.mp ha
    exact hab ▸ hpieces
  · intro hpieces
    exact ⟨[], cs, rfl, marks_start.mpr rfl, hpieces⟩

/-- Each token stands for the text it was read from. -/
theorem Reads.exists_pieces (h : Reads cs ts) :
    ∃ pieces, List.Forall₂ Token.Matches ts pieces ∧ pieces.flatten = cs := by
  induction h with
  | nil => exact ⟨[], .nil, rfl⟩
  | @segments n cs ts _ _ ih =>
    obtain ⟨pieces, hpieces, rfl⟩ := ih
    refine ⟨(List.replicate n '*' ++ ['/']) :: pieces, .cons (.inr ?_) hpieces, by simp⟩
    simp
  | @globStar n cs ts _ _ _ _ ih =>
    obtain ⟨pieces, hpieces, rfl⟩ := ih
    exact ⟨List.replicate n '*' :: pieces, .cons trivial hpieces, rfl⟩
  | star _ _ ih =>
    obtain ⟨pieces, hpieces, rfl⟩ := ih
    exact ⟨['*'] :: pieces, .cons (by simp [Token.Matches]) hpieces, rfl⟩
  | anyChar _ ih =>
    obtain ⟨pieces, hpieces, rfl⟩ := ih
    exact ⟨['?'] :: pieces, .cons ⟨'?', by decide, rfl⟩ hpieces, rfl⟩
  | @literal c cs ts _ _ _ ih =>
    obtain ⟨pieces, hpieces, rfl⟩ := ih
    exact ⟨[c] :: pieces, .cons rfl hpieces, rfl⟩

/-- A text matches itself as a pattern. -/
theorem isMatch_self (text : String) : isMatch text text = true := by
  rw [isMatch, matchesChars, reachesEnd_iff]
  exact (reads_iff.mpr rfl).exists_pieces

/-- A pattern matches a text exactly if the text can be cut into consecutive pieces, one for each
token of the pattern. -/
theorem isMatch_iff_exists_pieces (pattern text : String) :
    isMatch pattern text = true ↔
      ∃ (tokens : List Token) (pieces : List (List Char)),
        Reads (slashed pattern.toList) tokens ∧ List.Forall₂ Token.Matches tokens pieces ∧
          pieces.flatten = slashed text.toList := by
  rw [isMatch, matchesChars, reachesEnd_iff]
  constructor
  · rintro ⟨pieces, hpieces⟩
    exact ⟨tokens pattern.toList, pieces, reads_iff.mpr rfl, hpieces⟩
  · rintro ⟨ts, pieces, hreads, hpieces⟩
    rw [← reads_iff.mp hreads] at hpieces
    exact ⟨pieces, hpieces⟩

example : isMatch "src/**/*.c" "src\\a\\b.c" = true := by decide

end MacroSweep.Glob
