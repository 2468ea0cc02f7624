import MacroSweep.Proofs.Dispatch
import MacroSweep.Proofs.LineParts
import Mathlib.Data.List.Basic

/-! The comments of a text start in the order in which they end, so that the comments of all lines,
line by line, are the comments as the scan closes them. -/
namespace MacroSweep.Source

open Text

variable {k low number : Nat} {block : Option OpenComment}

/-- All comments of a text with the lines they start on, line by line. -/
def comments (content : List Char) : List (Nat × Comment) :=
  (sourceLines content).flatMap fun l => l.comments.map (l.number, ·)

/-- The comments of a text in the order in which they end. -/
def closedComments (content : List Char) : List (Nat × Comment) :=
  (scanLines 1 none (lines content)).flatMap (·.closed)

theorem filter_append_filter_not {α : Type} {q : α → Bool} {xs : List α}
    (h : xs.Pairwise fun a b => q b → q a) : xs.filter q ++ xs.filter (!q ·) = xs := by
  induction xs with
  | nil => rfl
  | cons a xs ih =>
    obtain ⟨ha, hxs⟩ := List.pairwise_cons.mp h
    by_cases hq : q a
    · simp [hq, ih hxs]
    · have hnone : ∀ b ∈ xs, ¬ q b := fun b hb hqb => hq (ha b hb hqb)
      have hnil : xs.filter q = [] := List.filter_eq_nil_iff.mpr hnone
      have hrest := ih hxs
      rw [hnil, List.nil_append] at hrest
      simp [hq, hnil, hrest]

/-- Entries in the order of their numbers, gathered number by number. -/
theorem flatMap_filter_range' {α : Type} {n : Nat} {xs : List (Nat × α)}
    (hsorted : xs.Pairwise (·.1 ≤ ·.1)) (hrange : ∀ x ∈ xs, k ≤ x.1 ∧ x.1 < k + n) :
    (List.range' k n).flatMap (fun i => xs.filter (·.1 == i)) = xs := by
  induction n generalizing k xs with
  | zero =>
    cases xs with
    | nil => rfl
    | cons x xs => have := hrange x (by simp); omega
  | succ n ih =>
    have hsplit : xs.filter (·.1 == k) ++ xs.filter (!·.1 == k) = xs := by
      refine filter_append_filter_not (hsorted.imp_of_mem fun {a b} ha hb hab hk => ?_)
      have := hrange a ha
      simp only [beq_iff_eq] at hk ⊢
      omega
    have hlate : ∀ x ∈ xs.filter (!·.1 == k), k + 1 ≤ x.1 ∧ x.1 < k + 1 + n := by
      intro x hx
      obtain ⟨hmem, hne⟩ := List.mem_filter.mp hx
      have := hrange x hmem
      simp only [Bool.not_eq_true', beq_eq_false_iff_ne] at hne
      omega
    have hgather : ∀ i ∈ List.range' (k + 1) n,
        xs.filter (·.1 == i) = (xs.filter (!·.1 == k)).filter (·.1 == i) := by
      intro i hi
      rw [List.filter_filter]
      refine List.filter_congr fun x _ => ?_
      have := List.mem_range'_1.mp hi
      rw [Bool.eq_iff_iff]
      simp only [beq_iff_eq, Bool.and_eq_true, Bool.not_eq_true', beq_eq_false_iff_ne]
      omega
    calc (List.range' k (n + 1)).flatMap (fun i => xs.filter (·.1 == i))
        = xs.filter (·.1 == k) ++ (List.range' (k + 1) n).flatMap
            (fun i => (xs.filter (!·.1 == k)).filter (·.1 == i)) := by
          rw [List.range'_succ, List.flatMap_cons, List.flatMap_congr hgather]
      _ = xs.filter (·.1 == k) ++ xs.filter (!·.1 == k) := by rw [ih (hsorted.filter _) hlate]
      _ = xs := hsplit

theorem line_scanCode (number : Nat) (seen : Bool) (cs : List Char) :
    (∀ c ∈ (scanCode number seen cs).closed, c.1 = number) ∧
      ∀ o ∈ (scanCode number seen cs).block, o.line = number := by
  fun_induction scanCode number seen cs with
  | case1 => simp
  | case2 => simp
  | case3 seen rest opened h => simp [OpenComment.extend, opened]
  | case4 seen rest opened text rest' h ih =>
    refine ⟨fun c hc => ?_, ih.2⟩
    obtain rfl | hc := List.mem_cons.mp hc
    · rfl
    · exact ih.1 c hc
  | case5 seen rest ih => exact ih
  | case6 seen rest ih => exact ih
  | case7 seen c rest _ _ _ _ ih => exact ih

/-- The comments that end on a line start in order, none after the one that is then open. -/
theorem scanLine_inOrder (h : ∀ o ∈ block, low ≤ o.line ∧ o.line ≤ number) (hlow : low ≤ number)
    (cs : List Char) : (scanLine number block cs).closed.Pairwise (·.1 ≤ ·.1) ∧
      ∃ mid, low ≤ mid ∧ mid ≤ number + 1 ∧
        (∀ c ∈ (scanLine number block cs).closed, low ≤ c.1 ∧ c.1 ≤ mid ∧ c.1 ≤ number) ∧
        ∀ o ∈ (scanLine number block cs).block, mid ≤ o.line ∧ o.line ≤ number := by
  cases block with
  | none =>
    obtain ⟨hclosed, hblock⟩ := line_scanCode number false cs
    refine ⟨List.pairwise_of_forall_mem_list fun a ha b hb => ?_, number, hlow, by omega,
      fun c hc => ?_, fun o ho => ?_⟩
    · rw [hclosed a ha, hclosed b hb]
    · rw [hclosed c hc]
      omega
    · rw [hblock o ho]
      omega
  | some o =>
    obtain ⟨hlo, hhi⟩ := h o rfl
    cases hsplit : splitBlock? cs with
    | none =>
      simp only [scanLine, hsplit]
      exact ⟨.nil, o.line, hlo, by omega, by simp, by simp [OpenComment.extend, hhi]⟩
    | some r =>
      obtain ⟨text, rest⟩ := r
      obtain ⟨hclosed, hblock⟩ := line_scanCode number false rest
      simp only [scanLine, hsplit]
      refine ⟨List.pairwise_cons.mpr ⟨fun c hc => ?_,
        List.pairwise_of_forall_mem_list fun a ha b hb => ?_⟩, number, hlow, by omega,
        fun c hc => ?_, fun o' ho' => ?_⟩
      · rw [hclosed c hc]
        exact hhi
      · rw [hclosed a ha, hclosed b hb]
      · obtain rfl | hc := List.mem_cons.mp hc
        · exact ⟨hlo, hhi, hhi⟩
        · rw [hclosed c hc]
          omega
      · rw [hblock o' ho']
        omega

theorem scanLines_inOrder (h : ∀ o ∈ block, low ≤ o.line ∧ o.line ≤ number) (hlow : low ≤ number)
    (ls : List (List Char)) :
    ((scanLines number block ls).flatMap (·.closed)).Pairwise (·.1 ≤ ·.1) ∧
      ∀ c ∈ (scanLines number block ls).flatMap (·.closed),
        low ≤ c.1 ∧ c.1 < number + ls.length := by
  induction ls generalizing number block low with
  | nil => simp [scanLines]
  | cons l ls ih =>
    obtain ⟨hsorted, mid, hmid, hmid', hclosed, hblock⟩ := scanLine_inOrder h hlow l
    have hblock' : ∀ o ∈ (scanLine number block l).block, mid ≤ o.line ∧ o.line ≤ number + 1 :=
      fun o ho => ⟨(hblock o ho).1, Nat.le_succ_of_le (hblock o ho).2⟩
    obtain ⟨hrest, hbounds⟩ := ih hblock' hmid'
    rw [scanLines, List.flatMap_cons]
    refine ⟨List.pairwise_append.mpr ⟨hsorted, hrest, fun a ha b hb => ?_⟩, fun c hc => ?_⟩
    · exact (hclosed a ha).2.1.trans (hbounds b hb).1
    · rw [List.length_cons]
      obtain hc | hc := List.mem_append.mp hc
      · have := hclosed c hc
        omega
      · have := hbounds c hc
        omega

theorem length_scanLines (number : Nat) (block : Option OpenComment) (ls : List (List Char)) :
    (scanLines number block ls).length = ls.length := by
  induction ls generalizing number block with
  | nil => rfl
  | cons l ls ih => rw [scanLines, List.length_cons, List.length_cons, ih]

theorem comments_of_mem {content : List Char} {l : Line} (h : l ∈ sourceLines content) :
    l.comments.map (l.number, ·) = (closedComments content).filter (·.1 == l.number) := by
  obtain ⟨⟨s, i⟩, -, rfl⟩ := List.mem_map.mp h
  rw [List.map_map, closedComments]
  refine List.map_congr_left (fun c hc => ?_) |>.trans (List.map_id _)
  have hline : c.1 = i + 1 := by simpa using (List.mem_filter.mp hc).2
  simp [← hline]

/-- Comments end in the order of their lines. -/
theorem comments_eq (content : List Char) : comments content = closedComments content := by
  have hnone : ∀ o ∈ (none : Option OpenComment), 1 ≤ o.line ∧ o.line ≤ 1 := by simp
  obtain ⟨hsorted, hbounds⟩ := scanLines_inOrder hnone (Nat.le_refl 1) (lines content)
  have hlength : (sourceLines content).length = (lines content).length := by
    simp [sourceLines, length_scanLines]
  calc comments content
      = (sourceLines content).flatMap fun l => (closedComments content).filter (·.1 == l.number) :=
        List.flatMap_congr fun l hl => comments_of_mem hl
    _ = ((sourceLines content).map (·.number)).flatMap
          fun i => (closedComments content).filter (·.1 == i) := by rw [List.flatMap_map]
    _ = closedComments content := by
        rw [Walk.number_sourceLines, hlength]
        exact flatMap_filter_range' hsorted hbounds

end MacroSweep.Source
