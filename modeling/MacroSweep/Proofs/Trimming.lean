import MacroSweep.Proofs.Text
import Mathlib.Data.List.DropRight

/-! What trimming leaves of a text and takes off it, and what a text looks like that is cut. -/
namespace MacroSweep.Text

variable {p : Char → Bool} {cs a b before after start rest : List Char}

/-- A text with no blank at either end. -/
def IsTrimmed (cs : List Char) : Prop :=
  (∀ c ∈ cs.head?, isBlank c = false) ∧ ∀ c ∈ cs.getLast?, isBlank c = false

/-- A text with blanks around it. -/
def Padded (inner text : List Char) : Prop :=
  ∃ a b, allBlank a = true ∧ allBlank b = true ∧ text = a ++ inner ++ b

theorem trimEnd_eq_rdropWhile (cs : List Char) : trimEnd cs = cs.rdropWhile isBlank := rfl

theorem trimStart_eq_self (h : ∀ c ∈ cs.head?, isBlank c = false) : trimStart cs = cs := by
  cases cs with
  | nil => rfl
  | cons c cs => exact List.dropWhile_cons_of_neg (by simp [h c rfl])

theorem trimEnd_eq_self (h : ∀ c ∈ cs.getLast?, isBlank c = false) : trimEnd cs = cs := by
  rw [trimEnd_eq_rdropWhile, List.rdropWhile_eq_self_iff]
  intro hne
  rw [h _ (List.getLast?_eq_some_getLast hne)]
  exact Bool.false_ne_true

theorem IsTrimmed.trim_eq (h : IsTrimmed cs) : trim cs = cs := by
  rw [trim, trimStart_eq_self h.1, trimEnd_eq_self h.2]

theorem trimStart_append (ha : allBlank a = true) (cs : List Char) :
    trimStart (a ++ cs) = trimStart cs :=
  List.dropWhile_append_of_pos (by simpa [allBlank] using ha)

theorem trimEnd_append (hb : allBlank b = true) (cs : List Char) :
    trimEnd (cs ++ b) = trimEnd cs := by
  have hrev : ∀ c ∈ b.reverse, isBlank c = true := by simpa [allBlank] using hb
  rw [trimEnd, dropEndWhile, List.reverse_append, List.dropWhile_append_of_pos hrev]
  rfl

theorem head?_trimStart {c : Char} (h : c ∈ (trimStart cs).head?) : isBlank c = false := by
  have hnot := List.head?_dropWhile_not isBlank cs
  rw [trimStart, Option.mem_def] at h
  rwa [h] at hnot

theorem getLast?_trimEnd {c : Char} (h : c ∈ (trimEnd cs).getLast?) : isBlank c = false := by
  rw [trimEnd, dropEndWhile, List.getLast?_reverse] at h
  exact head?_trimStart h

/-- Trimming takes blanks off both ends. -/
theorem padded_trim (cs : List Char) : Padded (trim cs) cs := by
  refine ⟨cs.takeWhile isBlank, (trimStart cs).rtakeWhile isBlank, ?_, ?_, ?_⟩
  · exact List.all_takeWhile
  · exact List.all_eq_true.mpr fun c hc => List.mem_rtakeWhile_imp hc
  · rw [trim, trimEnd_eq_rdropWhile, List.append_assoc, List.rdropWhile_append_rtakeWhile]
    exact List.takeWhile_append_dropWhile.symm

theorem isTrimmed_trim (cs : List Char) : IsTrimmed (trim cs) := by
  refine ⟨fun c hc => ?_, fun c => getLast?_trimEnd⟩
  obtain ⟨rest, hrest⟩ := List.rdropWhile_prefix isBlank (l := trimStart cs)
  obtain ⟨ds, hds⟩ := List.head?_eq_some_iff.mp hc
  have hstart : trimStart cs = c :: (ds ++ rest) := by
    rw [← hrest, ← trimEnd_eq_rdropWhile]
    exact congrArg (· ++ rest) hds
  have hhead : c ∈ (trimStart cs).head? := by rw [hstart]; rfl
  exact head?_trimStart hhead

theorem trim_of_padded (h : IsTrimmed cs) {text : List Char} (hp : Padded cs text) :
    trim text = cs := by
  obtain ⟨a, b, ha, hb, rfl⟩ := hp
  rw [List.append_assoc, trim, trimStart_append ha]
  cases cs with
  | nil =>
    have hnone : trimStart b = [] := by simpa [trimStart, allBlank] using hb
    rw [List.nil_append, hnone]
    rfl
  | cons c cs =>
    have hhead : ∀ d ∈ (c :: cs ++ b).head?, isBlank d = false := h.1
    rw [trimStart_eq_self hhead, trimEnd_append hb, trimEnd_eq_self h.2]

theorem trim_trimEnd (cs : List Char) : trim (trimEnd cs) = trim cs := by
  obtain ⟨a, b, ha, hb, heq⟩ := padded_trim (trimEnd cs)
  refine (trim_of_padded (isTrimmed_trim _) ⟨a, b ++ cs.rtakeWhile isBlank, ha, ?_, ?_⟩).symm
  · rw [allBlank, List.all_append, Bool.and_eq_true]
    exact ⟨hb, List.all_eq_true.mpr fun c hc => List.mem_rtakeWhile_imp hc⟩
  · rw [← List.append_assoc, ← heq, trimEnd_eq_rdropWhile, List.rdropWhile_append_rtakeWhile]

/-- Blanks are taken off on each side of a character that is no blank. -/
theorem trim_append_cons {c : Char} (hc : isBlank c = false) (a cs : List Char) :
    trim (a ++ c :: cs) = trimStart a ++ c :: trimEnd cs := by
  have hstart : trimStart (a ++ c :: cs) = trimStart a ++ c :: cs := by
    rw [trimStart, List.dropWhile_append, List.dropWhile_cons_of_neg (by simp [hc])]
    split
    · next hnil => rw [trimStart, List.isEmpty_iff.mp hnil, List.nil_append]
    · rfl
  have hend : ∀ ds, trimEnd (ds ++ c :: cs) = ds ++ c :: trimEnd cs := by
    intro ds
    induction ds with
    | nil =>
      rw [List.nil_append, trimEnd_cons]
      split
      · next hnil => simp [hc, hnil]
      · rfl
    | cons d ds ih => rw [List.cons_append, trimEnd_cons, ih, if_neg (by simp), List.cons_append]
  rw [trim, hstart, hend]

theorem length_trim_le (cs : List Char) : (trim cs).length ≤ cs.length := by
  obtain ⟨a, b, -, -, heq⟩ := padded_trim cs
  have hlength := congrArg List.length heq
  rw [List.length_append, List.length_append] at hlength
  omega

/-- A text that trimming makes no shorter has nothing to trim. -/
theorem isTrimmed_of_length_le (h : cs.length ≤ (trim cs).length) : IsTrimmed cs := by
  obtain ⟨a, b, -, -, heq⟩ := padded_trim cs
  have hlength := congrArg List.length heq
  rw [List.length_append, List.length_append] at hlength
  obtain rfl : a = [] := List.eq_nil_of_length_eq_zero (by omega)
  obtain rfl : b = [] := List.eq_nil_of_length_eq_zero (by omega)
  rw [List.nil_append, List.append_nil] at heq
  exact heq ▸ isTrimmed_trim cs

theorem cutAt?_eq_some_iff : cutAt? p cs = some (before, after) ↔
    ∃ c, p c = true ∧ (∀ d ∈ before, p d = false) ∧ cs = before ++ c :: after := by
  constructor
  · intro h
    unfold cutAt? at h
    split at h
    · cases h
    · next c rest hdrop =>
      cases h
      refine ⟨c, ?_, fun d hd => by simpa using List.mem_takeWhile_imp hd, ?_⟩
      · simpa [hdrop] using List.head?_dropWhile_not (fun c => !p c) cs
      · rw [← hdrop, List.takeWhile_append_dropWhile]
  · rintro ⟨c, hc, hbefore, rfl⟩
    have hstop : ∀ d ∈ before, (!p d) = true := by simpa using hbefore
    rw [cutAt?, List.dropWhile_append_of_pos hstop, List.takeWhile_append_of_pos hstop]
    simp [hc]

theorem cutAt?_eq_none_iff : cutAt? p cs = none ↔ ∀ c ∈ cs, p c = false := by
  unfold cutAt?
  split
  · next hdrop => simpa using hdrop
  · next c rest hdrop =>
    have hc : p c = true := by simpa [hdrop] using List.head?_dropWhile_not (fun c => !p c) cs
    have hmem : c ∈ cs := (List.dropWhile_sublist _).mem (hdrop ▸ List.mem_cons_self)
    exact iff_of_false (Option.some_ne_none _) fun h => by simp [h c hmem] at hc

theorem cutAtLast?_eq_some_iff : cutAtLast? p cs = some (before, after) ↔
    ∃ c, p c = true ∧ (∀ d ∈ after, p d = false) ∧ cs = before ++ c :: after := by
  have hswap : cutAtLast? p cs = some (before, after) ↔
      cutAt? p cs.reverse = some (after.reverse, before.reverse) := by
    simp only [cutAtLast?, Option.map_eq_some_iff, Prod.exists, Prod.mk.injEq]
    constructor
    · rintro ⟨a, b, h, rfl, rfl⟩
      rw [h, List.reverse_reverse, List.reverse_reverse]
    · intro h
      exact ⟨_, _, h, List.reverse_reverse _, List.reverse_reverse _⟩
  simp only [hswap, cutAt?_eq_some_iff, List.mem_reverse, List.reverse_eq_iff]
  simp

theorem cutAtLast?_eq_none_iff : cutAtLast? p cs = none ↔ ∀ c ∈ cs, p c = false := by
  simp [cutAtLast?, cutAt?_eq_none_iff]

theorem forall_beq_eq_false_iff {sep : Char} : (∀ c ∈ cs, (c == sep) = false) ↔ sep ∉ cs := by
  simp only [beq_eq_false_iff_ne]
  exact ⟨fun h hmem => h sep hmem rfl, fun h c hc heq => h (heq ▸ hc)⟩

theorem cutAt?_beq_eq_some_iff {sep : Char} : cutAt? (· == sep) cs = some (before, after) ↔
    sep ∉ before ∧ cs = before ++ sep :: after := by
  simp only [cutAt?_eq_some_iff, forall_beq_eq_false_iff, beq_iff_eq, exists_eq_left]

theorem cutAt?_beq_eq_none_iff {sep : Char} : cutAt? (· == sep) cs = none ↔ sep ∉ cs := by
  rw [cutAt?_eq_none_iff, forall_beq_eq_false_iff]

theorem cutAtLast?_beq_eq_some_iff {sep : Char} : cutAtLast? (· == sep) cs = some (before, after) ↔
    sep ∉ after ∧ cs = before ++ sep :: after := by
  simp only [cutAtLast?_eq_some_iff, forall_beq_eq_false_iff, beq_iff_eq, exists_eq_left]

/-- The last separator tells what stands before it and after it. -/
theorem eq_of_append_cons_last {sep : Char} {es fs : List Char} (ha : sep ∉ after) (hf : sep ∉ fs)
    (h : before ++ sep :: after = es ++ sep :: fs) : before = es ∧ after = fs := by
  have hcut := cutAtLast?_beq_eq_some_iff.mpr ⟨ha, h.symm⟩
  rw [cutAtLast?_beq_eq_some_iff.mpr ⟨hf, rfl⟩] at hcut
  cases hcut
  exact ⟨rfl, rfl⟩

theorem cutAtLast?_beq_eq_none_iff {sep : Char} : cutAtLast? (· == sep) cs = none ↔ sep ∉ cs := by
  rw [cutAtLast?_eq_none_iff, forall_beq_eq_false_iff]

theorem dropStart?_eq_some_iff : dropStart? start cs = some rest ↔ cs = start ++ rest := by
  induction start generalizing cs with
  | nil => simp [dropStart?]
  | cons a start ih =>
    cases cs with
    | nil => simp [dropStart?]
    | cons c cs =>
      rw [dropStart?, List.cons_append, List.cons.injEq]
      split
      · next hac => rw [ih, hac]; simp
      · next hac => simp [Ne.symm hac]

end MacroSweep.Text
