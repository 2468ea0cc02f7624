import MacroSweep.Proofs.Simplified
import Mathlib.Data.List.Chain

/-! The normal spelling of a path as a text. It is made of the characters of the path, slashes and
dots, it is no longer than the path, and no slash follows a slash. -/
namespace MacroSweep.Path

open Text

variable {absolute : Bool} {c : Char} {segment text : List Char} {kept segments : List (List Char)}

/-- A text in which no slash follows a slash. -/
def SingleSlashes (cs : List Char) : Prop := cs.IsChain fun a b => a = '/' → b ≠ '/'

theorem singleSlashes_of_notMem {cs : List Char} (h : '/' ∉ cs) : SingleSlashes cs := by
  induction cs with
  | nil => exact .nil
  | cons c cs ih =>
    rw [List.mem_cons, not_or] at h
    exact List.isChain_cons.mpr ⟨fun _ _ hc => absurd hc.symm h.1, ih h.2⟩

theorem singleSlashes_joinWith (h : ∀ s ∈ segments, IsSegment s) :
    SingleSlashes (joinWith '/' segments) := by
  induction segments with
  | nil => exact .nil
  | cons s rest ih =>
    have hs : SingleSlashes s := singleSlashes_of_notMem (h s (by simp)).2.2
    cases rest with
    | nil => exact hs
    | cons next rest =>
      have hrest : ∀ t ∈ next :: rest, IsSegment t := fun t ht => h t (List.mem_cons_of_mem _ ht)
      have htail : SingleSlashes ('/' :: joinWith '/' (next :: rest)) :=
        List.isChain_cons.mpr ⟨fun b hb _ hslash => head?_joinWith_ne hrest (hslash ▸ hb), ih hrest⟩
      refine List.isChain_append.mpr ⟨hs, htail, fun a ha b _ hslash => ?_⟩
      exact absurd (List.mem_of_getLast? (hslash ▸ ha)) (h s (by simp)).2.2

theorem singleSlashes_simplifyChars (text : List Char) : SingleSlashes (simplifyChars text) := by
  have hsegments : ∀ s ∈ simplifySegments (text.head? == some '/') (splitOn '/' text),
      IsSegment s :=
    isSegment_of_mem_simplifySegments text
  rw [simplifyChars_eq_spell, spell]
  split
  · exact List.isChain_cons.mpr
      ⟨fun b hb _ hslash => head?_joinWith_ne hsegments (hslash ▸ hb),
        singleSlashes_joinWith hsegments⟩
  · split
    · exact singleSlashes_of_notMem (by decide)
    · exact singleSlashes_joinWith hsegments

theorem mem_pushSegment {s : List Char} (h : s ∈ pushSegment absolute kept segment) :
    s = segment ∨ s ∈ kept := by
  unfold pushSegment at h
  split at h
  · exact .inr h
  · split at h
    · split at h
      · split at h
        · exact .inr (List.mem_cons_of_mem _ h)
        · split at h
          · exact .inr h
          · exact List.mem_cons.mp h
      · split at h
        · exact absurd h List.not_mem_nil
        · exact List.mem_cons.mp h
    · exact List.mem_cons.mp h

theorem mem_simplifySegments {s : List Char} (h : s ∈ simplifySegments absolute segments) :
    s ∈ segments := by
  have general : ∀ kept, s ∈ segments.foldl (pushSegment absolute) kept →
      s ∈ segments ∨ s ∈ kept := by
    clear h
    induction segments with
    | nil => exact fun kept => .inr
    | cons segment segments ih =>
      intro kept h
      rcases ih _ h with h | h
      · exact .inl (List.mem_cons_of_mem _ h)
      · rcases mem_pushSegment h with rfl | h
        · exact .inl List.mem_cons_self
        · exact .inr h
  exact (general [] (List.mem_reverse.mp h)).resolve_right List.not_mem_nil

theorem mem_joinWith {sep : Char} {pieces : List (List Char)} (h : c ∈ joinWith sep pieces) :
    c = sep ∨ ∃ piece ∈ pieces, c ∈ piece := by
  induction pieces with
  | nil => exact absurd h List.not_mem_nil
  | cons piece rest ih =>
    cases rest with
    | nil => exact .inr ⟨piece, by simp, h⟩
    | cons next rest =>
      rw [joinWith, List.mem_append, List.mem_cons] at h
      rcases h with h | h | h
      · exact .inr ⟨piece, by simp, h⟩
      · exact .inl h
      · rcases ih h with h | ⟨p, hp, h⟩
        · exact .inl h
        · exact .inr ⟨p, List.mem_cons_of_mem _ hp, h⟩

theorem piece_infix_joinWith {sep : Char} {piece : List Char} {pieces : List (List Char)}
    (h : piece ∈ pieces) : piece <:+: joinWith sep pieces := by
  induction pieces with
  | nil => exact absurd h List.not_mem_nil
  | cons first rest ih =>
    cases rest with
    | nil => exact List.mem_singleton.mp h ▸ List.infix_rfl
    | cons next rest =>
      rw [joinWith]
      rcases List.mem_cons.mp h with rfl | h
      · exact (List.prefix_append _ _).isInfix
      · exact ((ih h).trans (List.suffix_cons sep _).isInfix).trans
          (List.suffix_append first _).isInfix

theorem mem_of_mem_splitOn {sep : Char} {piece cs : List Char} (h : piece ∈ splitOn sep cs)
    (hc : c ∈ piece) : c ∈ cs := by
  rw [← joinWith_splitOn sep cs]
  exact (piece_infix_joinWith h).subset hc

/-- Simplifying brings no characters in but slashes and dots. -/
theorem mem_simplifyChars (h : c ∈ simplifyChars text) : c = '/' ∨ c = '.' ∨ c ∈ text := by
  have hjoin : ∀ {absolute : Bool},
      c ∈ joinWith '/' (simplifySegments absolute (splitOn '/' text)) → c = '/' ∨ c ∈ text := by
    intro absolute h
    rcases mem_joinWith h with h | ⟨piece, hp, hc⟩
    · exact .inl h
    · exact .inr (mem_of_mem_splitOn (mem_simplifySegments hp) hc)
  rw [simplifyChars_eq_spell, spell] at h
  split at h
  · rcases List.mem_cons.mp h with h | h
    · exact .inl h
    · exact (hjoin h).imp_right .inr
  · split at h
    · exact .inr (.inl (List.mem_singleton.mp h))
    · exact (hjoin h).imp_right .inr

/-- The number of characters of segments, with a slash to each. -/
def weight : List (List Char) → Nat
  | [] => 0
  | segment :: segments => segment.length + 1 + weight segments

theorem weight_cons (s : List Char) (segments : List (List Char)) :
    weight (s :: segments) = s.length + 1 + weight segments := rfl

theorem weight_append (segments more : List (List Char)) :
    weight (segments ++ more) = weight segments + weight more := by
  induction segments with
  | nil => exact (Nat.zero_add _).symm
  | cons s segments ih =>
    rw [List.cons_append, weight_cons, ih, weight_cons]
    omega

theorem weight_reverse (segments : List (List Char)) :
    weight segments.reverse = weight segments := by
  induction segments with
  | nil => rfl
  | cons s segments ih =>
    rw [List.reverse_cons, weight_append, ih, weight_cons, Nat.add_comm]
    rfl

theorem weight_pushSegment_le (absolute : Bool) (kept : List (List Char)) (segment : List Char) :
    weight (pushSegment absolute kept segment) ≤ segment.length + 1 + weight kept := by
  unfold pushSegment
  split
  · omega
  · split
    · split
      · split
        · rw [weight_cons]; omega
        · split
          · omega
          · rw [weight_cons]
      · split
        · omega
        · rw [weight_cons]
    · rw [weight_cons]

theorem weight_foldl_pushSegment_le (absolute : Bool) (kept segments : List (List Char)) :
    weight (segments.foldl (pushSegment absolute) kept) ≤ weight segments + weight kept := by
  induction segments generalizing kept with
  | nil => exact Nat.le_add_left _ _
  | cons segment segments ih =>
    have hstep := weight_pushSegment_le absolute kept segment
    have hrest := ih (pushSegment absolute kept segment)
    rw [weight_cons]
    exact hrest.trans (by omega)

theorem weight_simplifySegments_le (absolute : Bool) (segments : List (List Char)) :
    weight (simplifySegments absolute segments) ≤ weight segments := by
  have hfold := weight_foldl_pushSegment_le absolute [] segments
  rwa [simplifySegments, weight_reverse]

theorem weight_splitOn (sep : Char) (cs : List Char) : weight (splitOn sep cs) = cs.length + 1 := by
  induction cs with
  | nil => rfl
  | cons c cs ih =>
    obtain ⟨piece, pieces, h⟩ := List.exists_cons_of_ne_nil (splitOn_ne_nil sep cs)
    rw [h] at ih
    simp only [splitOn, h]
    split
    · rw [weight_cons, ih, List.length_nil, List.length_cons]
      omega
    · rw [weight_cons] at ih ⊢
      simp only [List.length_cons]
      omega

theorem length_joinWith {sep : Char} {pieces : List (List Char)} (h : pieces ≠ []) :
    (joinWith sep pieces).length + 1 = weight pieces := by
  induction pieces with
  | nil => exact absurd rfl h
  | cons piece rest ih =>
    cases rest with
    | nil => rfl
    | cons next rest =>
      have hrest := ih (by simp)
      rw [weight_cons, ← hrest, joinWith, List.length_append, List.length_cons]
      omega

/-- Simplifying makes no text longer but the empty one. -/
theorem length_simplifyChars_le (h : text ≠ []) : (simplifyChars text).length ≤ text.length := by
  have hpos : 1 ≤ text.length := List.length_pos_iff.mpr h
  rw [simplifyChars_eq_spell, spell]
  split
  · next hroot =>
    obtain ⟨rest, rfl⟩ := List.head?_eq_some_iff.mp (beq_iff_eq.mp hroot)
    -- the empty piece in front of the root slash is dropped
    have hdrop : simplifySegments true (splitOn '/' ('/' :: rest)) =
        simplifySegments true (splitOn '/' rest) := by
      rw [splitOn_sep_cons]
      rfl
    have hweight := weight_simplifySegments_le true (splitOn '/' rest)
    rw [weight_splitOn] at hweight
    rw [hroot, hdrop, List.length_cons, List.length_cons]
    by_cases hne : simplifySegments true (splitOn '/' rest) = []
    · rw [hne]
      exact Nat.le_add_left _ _
    · rw [length_joinWith hne]
      exact hweight
  · split
    · exact hpos
    · next hne =>
      have hweight := weight_simplifySegments_le (text.head? == some '/') (splitOn '/' text)
      have hlength : (joinWith '/' (simplifySegments (text.head? == some '/')
          (splitOn '/' text))).length + 1 = _ := length_joinWith hne
      rw [weight_splitOn, ← hlength] at hweight
      exact Nat.le_of_succ_le_succ hweight

theorem simplifyChars_simplifyChars (text : List Char) :
    simplifyChars (simplifyChars text) = simplifyChars text := by
  rw [simplifyChars_eq_spell (simplifyChars text), head?_simplifyChars,
    simplifySegments_simplifyChars, ← simplifyChars_eq_spell]

theorem backslash_notMem_slashed (cs : List Char) : '\\' ∉ slashed cs := by
  simp only [slashed, List.mem_map, not_exists, not_and]
  intro c _
  split
  · decide
  · next hc => exact hc

theorem slashed_of_notMem {cs : List Char} (h : '\\' ∉ cs) : slashed cs = cs := by
  refine (List.map_congr_left fun c hc => if_neg ?_).trans (List.map_id cs)
  rintro rfl
  exact h hc

/-- A normal spelling brings no characters in but slashes and dots. -/
theorem mem_normalText {t : String} (h : c ∈ (normalText t).toList) :
    c = '/' ∨ c = '.' ∨ c ∈ t.toList := by
  rw [normalText, String.toList_ofList] at h
  rcases mem_simplifyChars h with h | h | h
  · exact .inl h
  · exact .inr (.inl h)
  · obtain ⟨d, hd, hc⟩ := List.mem_map.mp h
    split at hc
    · exact .inl hc.symm
    · exact .inr (.inr (hc ▸ hd))

theorem length_normalText_le {t : String} (h : t.toList ≠ []) :
    (normalText t).toList.length ≤ t.toList.length := by
  have hne : slashed t.toList ≠ [] := by simpa [slashed] using h
  have hlength : (slashed t.toList).length = t.toList.length := List.length_map _
  rw [normalText, String.toList_ofList, ← hlength]
  exact length_simplifyChars_le hne

theorem normalText_ne_nil (t : String) : (normalText t).toList ≠ [] := by
  rw [normalText, String.toList_ofList]
  exact simplifyChars_ne_nil _

theorem singleSlashes_normalText (t : String) : SingleSlashes (normalText t).toList := by
  rw [normalText, String.toList_ofList]
  exact singleSlashes_simplifyChars _

/-- A normal spelling is its own. -/
theorem normalText_normalText (t : String) : normalText (normalText t) = normalText t := by
  have hmem : '\\' ∉ simplifyChars (slashed t.toList) := fun h => by
    rcases mem_simplifyChars h with h | h | h
    · cases h
    · cases h
    · exact backslash_notMem_slashed _ h
  rw [normalText, normalText, String.toList_ofList, slashed_of_notMem hmem,
    simplifyChars_simplifyChars]

end MacroSweep.Path
