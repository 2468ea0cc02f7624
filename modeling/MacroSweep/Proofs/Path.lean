import MacroSweep.Path.Normal
import MacroSweep.Proofs.Text

/-! Normal spellings of paths. A path in normal spelling is known by its components. -/
namespace MacroSweep

open Text

namespace Component

instance : Std.LawfulEqOrd Component where
  eq_of_compare {a b} h := by
    have h := Ordering.then_eq_eq.mp h
    have hrank : a.rank = b.rank := Std.LawfulEqOrd.eq_of_compare h.1
    have hname : a.name = b.name := Std.LawfulEqOrd.eq_of_compare h.2
    cases a <;> cases b <;> simp_all [rank, name]

/-- The component of a piece that stands for one. -/
def ofSegment (s : List Char) : Component :=
  if s = ['.', '.'] then .parent else .normal (String.ofList s)

/-- The text of a component between slashes. -/
def segment : Component → List Char
  | parent => ['.', '.']
  | normal name => name.toList
  | _ => []

theorem segment_ofSegment (s : List Char) : (ofSegment s).segment = s := by
  unfold ofSegment
  split
  · next hs => exact hs.symm
  · simp [segment]

end Component

namespace Path

variable {absolute : Bool} {segment : List Char} {kept segments : List (List Char)} {p q : Path}

theorem same_iff : p.same q = true ↔ p.components = q.components := by
  unfold same
  rw [beq_iff_eq]
  exact Std.LawfulEqOrd.compare_eq_iff_eq (α := List Component)

/-- A segment that stands for a component: it has text, is no single dot and holds no slash. -/
def IsSegment (s : List Char) : Prop := s ≠ [] ∧ s ≠ ['.'] ∧ '/' ∉ s

theorem ofPiece?_of_isSegment (h : IsSegment segment) :
    Component.ofPiece? segment = some (Component.ofSegment segment) := by
  unfold Component.ofPiece? Component.ofSegment
  rw [if_neg (not_or.mpr ⟨h.1, h.2.1⟩)]
  split <;> rfl

theorem filterMap_ofPiece? (h : ∀ s ∈ segments, IsSegment s) :
    segments.filterMap Component.ofPiece? = segments.map Component.ofSegment := by
  induction segments with
  | nil => rfl
  | cons s rest ih =>
    rw [List.filterMap_cons_some (ofPiece?_of_isSegment (h s (by simp))),
      ih fun t ht => h t (List.mem_cons_of_mem _ ht), List.map_cons]

theorem isSegment_of_mem_pushSegment (hk : ∀ s ∈ kept, IsSegment s) (hs : '/' ∉ segment) :
    ∀ s ∈ pushSegment absolute kept segment, IsSegment s := by
  have hnew : ∀ s ∈ segment :: kept, segment ≠ [] → segment ≠ ['.'] → IsSegment s := by
    intro s hm hne hdot
    rcases List.mem_cons.mp hm with rfl | hm
    · exact ⟨hne, hdot, hs⟩
    · exact hk s hm
  unfold pushSegment
  split
  · exact hk
  · next hvoid =>
    obtain ⟨hne, hdot⟩ := not_or.mp hvoid
    split
    · split
      · next last more =>
        split
        · exact fun s hm => hk s (List.mem_cons_of_mem _ hm)
        · split
          · exact hk
          · exact fun s hm => hnew s hm hne hdot
      · split
        · simp
        · exact fun s hm => hnew s hm hne hdot
    · exact fun s hm => hnew s hm hne hdot

theorem isSegment_of_mem_simplifySegments (text : List Char) :
    ∀ s ∈ simplifySegments absolute (splitOn '/' text), IsSegment s := by
  have general : ∀ (segments kept : List (List Char)), (∀ s ∈ segments, '/' ∉ s) →
      (∀ s ∈ kept, IsSegment s) →
        ∀ s ∈ segments.foldl (pushSegment absolute) kept, IsSegment s := by
    intro segments
    induction segments with
    | nil => exact fun kept _ hk => hk
    | cons segment segments ih =>
      intro kept hs hk
      apply ih _ fun s hm => hs s (List.mem_cons_of_mem _ hm)
      exact isSegment_of_mem_pushSegment hk (hs segment (by simp))
  intro s hs
  exact general _ [] (fun s hm => sep_notMem_of_mem_splitOn hm) (by simp) s (List.mem_reverse.mp hs)

/-- The text of simplified segments. -/
def spell (absolute : Bool) (segments : List (List Char)) : List Char :=
  if absolute then '/' :: joinWith '/' segments
  else if segments = [] then ['.'] else joinWith '/' segments

theorem joinWith_eq_nil_iff (h : ∀ s ∈ segments, IsSegment s) :
    joinWith '/' segments = [] ↔ segments = [] := by
  constructor
  · intro hj
    cases segments with
    | nil => rfl
    | cons s rest =>
      have hne := (h s (by simp)).1
      cases rest <;> simp_all [joinWith]
  · rintro rfl
    rfl

theorem head?_joinWith_ne (h : ∀ s ∈ segments, IsSegment s) :
    (joinWith '/' segments).head? ≠ some '/' := by
  cases segments with
  | nil => simp [joinWith]
  | cons s rest =>
    obtain ⟨hne, -, hslash⟩ := h s (by simp)
    obtain ⟨c, cs, rfl⟩ := List.exists_cons_of_ne_nil hne
    have hc : c ≠ '/' := fun hc => hslash (by simp [hc])
    cases rest <;> simp [joinWith, hc]

theorem simplifyChars_eq_spell (text : List Char) :
    simplifyChars text = spell (text.head? == some '/')
      (simplifySegments (text.head? == some '/') (splitOn '/' text)) := by
  simp only [simplifyChars, spell, joinWith_eq_nil_iff (isSegment_of_mem_simplifySegments text)]

/-- The components of a simplified text: the root or a dot if one stands there, and the segments. -/
theorem componentsOf_spell (h : ∀ s ∈ segments, IsSegment s) :
    componentsOf (spell absolute segments) =
      (if absolute then [.root] else if segments = [] then [.current] else []) ++
        segments.map Component.ofSegment := by
  have hsplit : (splitOn '/' (joinWith '/' segments)).filterMap Component.ofPiece? =
      segments.map Component.ofSegment := by
    by_cases hne : segments = []
    · subst hne
      rfl
    · rw [splitOn_joinWith hne fun s hs => (h s hs).2.2, filterMap_ofPiece? h]
  cases absolute with
  | true => simp [spell, componentsOf, hsplit]
  | false =>
    cases segments with
    | nil => simp [spell, componentsOf, splitOn]
    | cons s rest =>
      have hne : s :: rest ≠ [] := by simp
      have hhead := head?_joinWith_ne h
      simp only [spell, Bool.false_eq_true, if_false, hne, List.nil_append]
      unfold componentsOf
      split
      · next text r heq => simp [heq] at hhead
      · rw [splitOn_joinWith hne fun s hs => (h s hs).2.2]
        split
        · next pieces heq =>
          have := (h s (by simp)).2.1
          simp_all
        · exact filterMap_ofPiece? h

/-- The simplified text that has the given components. -/
def textOf : List Component → List Char
  | .root :: cs => '/' :: joinWith '/' (cs.map Component.segment)
  | [.current] => ['.']
  | cs => joinWith '/' (cs.map Component.segment)

/-- The components of a simplified text tell the text. -/
theorem textOf_componentsOf_spell (h : ∀ s ∈ segments, IsSegment s) :
    textOf (componentsOf (spell absolute segments)) = spell absolute segments := by
  have hmap : (segments.map Component.ofSegment).map Component.segment = segments := by
    simp [Function.comp_def, Component.segment_ofSegment]
  rw [componentsOf_spell h]
  cases absolute with
  | true => simp only [spell, if_true, List.singleton_append, textOf, hmap]
  | false =>
    cases segments with
    | nil => rfl
    | cons s rest =>
      have hroot : Component.ofSegment s ≠ .root := by unfold Component.ofSegment; split <;> simp
      have hdot : Component.ofSegment s ≠ .current := by unfold Component.ofSegment; split <;> simp
      simp only [spell, Bool.false_eq_true, if_false, List.cons_ne_nil, List.nil_append]
      unfold textOf
      split
      · next heq => exact absurd (List.cons.inj heq).1 hroot
      · next heq => exact absurd (List.cons.inj heq).1 hdot
      · rw [hmap]

theorem textOf_componentsOf_simplifyChars (text : List Char) :
    textOf (componentsOf (simplifyChars text)) = simplifyChars text := by
  rw [simplifyChars_eq_spell]
  exact textOf_componentsOf_spell (isSegment_of_mem_simplifySegments text)

/-- A path in its normal spelling. -/
def IsNormal (p : Path) : Prop := ∃ q : Path, q.normalize = p

theorem isNormal_normalize (p : Path) : p.normalize.IsNormal := ⟨p, rfl⟩

/-- Normal spellings with the same components are the same. -/
theorem IsNormal.eq_of_components_eq (hp : p.IsNormal) (hq : q.IsNormal)
    (h : p.components = q.components) : p = q := by
  obtain ⟨p, rfl⟩ := hp
  obtain ⟨q, rfl⟩ := hq
  have ht := congrArg textOf h
  simp only [components, normalize, normalText, String.toList_ofList,
    textOf_componentsOf_simplifyChars] at ht
  simp [normalize, normalText, ht]

theorem IsNormal.eq_of_same (hp : p.IsNormal) (hq : q.IsNormal) (h : p.same q = true) : p = q :=
  hp.eq_of_components_eq hq (same_iff.mp h)

end Path

end MacroSweep
