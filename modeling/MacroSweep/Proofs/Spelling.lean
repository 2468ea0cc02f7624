import MacroSweep.Proofs.FileTree
import MacroSweep.Proofs.Path
import Mathlib.Data.List.Induction

/-! Where normal spellings lead. In a tree whose nodes all stand in directories, a path in normal
spelling reads the file at its place. -/
namespace MacroSweep

open Text FileTree

namespace Path

/-- The segment that leads up. -/
abbrev dots : List Char := ['.', '.']

variable {absolute : Bool} {segment : List Char} {kept segments : List (List Char)} {p : Path}

/-- Whether segments, last first, are file names after double dots. -/
def Tidy (kept : List (List Char)) : Prop :=
  ∃ names k, kept = names ++ List.replicate k dots ∧ ∀ n ∈ names, IsFileName n

theorem tidy_pushSegment (h : Tidy kept) (hslash : '/' ∉ segment) :
    Tidy (pushSegment absolute kept segment) := by
  obtain ⟨names, k, rfl, hnames⟩ := h
  unfold pushSegment
  split
  · exact ⟨names, k, rfl, hnames⟩
  · next hvoid =>
    obtain ⟨hne, hdot⟩ := not_or.mp hvoid
    split
    · next hdots =>
      cases names with
      | cons last more =>
        have hlast : last ≠ dots := (hnames last List.mem_cons_self).2.2.1
        simp only [List.cons_append, ne_eq, hlast, not_false_eq_true, if_true]
        exact ⟨more, k, rfl, fun n hn => hnames n (List.mem_cons_of_mem _ hn)⟩
      | nil =>
        have hpush : Tidy (segment :: List.replicate k dots) :=
          ⟨[], k + 1, by rw [hdots, List.nil_append, List.replicate_succ], by simp⟩
        cases k with
        | zero =>
          simp only [List.nil_append, List.replicate_zero]
          split
          · exact ⟨[], 0, rfl, by simp⟩
          · exact hpush
        | succ k =>
          simp only [List.nil_append, List.replicate_succ, ne_eq, not_true_eq_false, if_false]
          split
          · exact ⟨[], k + 1, rfl, by simp⟩
          · exact hpush
    · next hdots =>
      refine ⟨segment :: names, k, rfl, fun n hn => ?_⟩
      rcases List.mem_cons.mp hn with rfl | hn
      · exact ⟨hne, hdot, hdots, hslash⟩
      · exact hnames n hn

theorem tidy_foldl_pushSegment (h : Tidy kept) (hslash : ∀ s ∈ segments, '/' ∉ s) :
    Tidy (segments.foldl (pushSegment absolute) kept) := by
  induction segments generalizing kept with
  | nil => exact h
  | cons segment segments ih =>
    apply ih (tidy_pushSegment h (hslash segment List.mem_cons_self))
    intro s hs
    exact hslash s (List.mem_cons_of_mem _ hs)

/-- A simplified path leads up first and then into directories. -/
theorem simplifySegments_eq (absolute : Bool) (text : List Char) : ∃ k names,
    simplifySegments absolute (splitOn '/' text) = List.replicate k dots ++ names ∧
      ∀ n ∈ names, IsFileName n := by
  have hempty : Tidy [] := ⟨[], 0, rfl, by simp⟩
  obtain ⟨names, k, heq, hnames⟩ : Tidy ((splitOn '/' text).foldl (pushSegment absolute) []) :=
    tidy_foldl_pushSegment hempty fun s hs => sep_notMem_of_mem_splitOn hs
  refine ⟨k, names.reverse, ?_, fun n hn => hnames n (List.mem_reverse.mp hn)⟩
  rw [simplifySegments, heq, List.reverse_append, List.reverse_replicate]

/-- The steps of a simplified text. -/
theorem steps_spell (h : ∀ s ∈ segments, IsSegment s)
    (hp : p.text.toList = spell absolute segments) :
    p.isAbsolute = absolute ∧
      p.steps = if segments = [] then [.stay] else segments.map Step.ofPiece := by
  have hsplit : (splitOn '/' (joinWith '/' segments)).map Step.ofPiece =
      if segments = [] then [.stay] else segments.map Step.ofPiece := by
    split
    · next hnil =>
      subst hnil
      rfl
    · next hne => rw [splitOn_joinWith hne fun s hs => (h s hs).2.2]
  cases absolute with
  | true =>
    have habsolute : p.isAbsolute = true := by simp [isAbsolute, hp, spell]
    refine ⟨habsolute, ?_⟩
    rw [steps, habsolute, hp]
    exact hsplit
  | false =>
    have hrelative : p.isAbsolute = false := by
      refine beq_eq_false_iff_ne.mpr ?_
      rw [hp, spell]
      split
      · next habsurd => cases habsurd
      · split
        · simp
        · exact head?_joinWith_ne h
    refine ⟨hrelative, ?_⟩
    rw [steps, hrelative, hp, ← hsplit]
    simp only [Bool.false_eq_true, if_false, spell]
    split
    · next hnil =>
      subst hnil
      rfl
    · rfl

theorem map_ofPiece (k : Nat) {names : List (List Char)} (h : ∀ n ∈ names, IsFileName n) :
    (List.replicate k dots ++ names).map Step.ofPiece =
      List.replicate k .up ++ (names.map String.ofList).map .into := by
  have hnames : names.map Step.ofPiece = (names.map String.ofList).map .into := by
    rw [List.map_map]
    refine List.map_congr_left fun n hn => ?_
    rw [Step.ofPiece, if_neg (not_or.mpr ⟨(h n hn).1, (h n hn).2.1⟩), if_neg (h n hn).2.2.1]
    rfl
  have hup : Step.ofPiece dots = .up := rfl
  rw [List.map_append, List.map_replicate, hup, hnames]

theorem isSegment_of_mem_spelled {k : Nat} {names : List (List Char)}
    (hnames : ∀ n ∈ names, IsFileName n) : ∀ s ∈ List.replicate k dots ++ names, IsSegment s := by
  intro s hs
  rcases List.mem_append.mp hs with hs | hs
  · rw [(List.mem_replicate.mp hs).2]
    exact ⟨by decide, by decide, by decide⟩
  · have h := hnames s hs
    exact ⟨h.1, h.2.1, h.2.2.2⟩

/-- A path in normal spelling is written with double dots first and then names. -/
theorem IsNormal.text_eq (h : p.IsNormal) : ∃ absolute k names, (∀ n ∈ names, IsFileName n) ∧
    p.text.toList = spell absolute (List.replicate k dots ++ names) := by
  obtain ⟨p, rfl⟩ := h
  let text := slashed p.text.toList
  obtain ⟨k, names, heq, hnames⟩ := simplifySegments_eq (text.head? == some '/') text
  refine ⟨text.head? == some '/', k, names, hnames, ?_⟩
  rw [← heq, ← simplifyChars_eq_spell]
  exact String.toList_ofList

/-- A path in normal spelling stays where it is, or leads up first and then into directories. -/
theorem IsNormal.steps_eq (h : p.IsNormal) : p.text ≠ "" ∧ (p.steps = [.stay] ∨
    ∃ (k : Nat) (names : List String), p.steps = List.replicate k .up ++ names.map .into) := by
  obtain ⟨absolute, k, names, hnames, htext⟩ := h.text_eq
  have hsegments := isSegment_of_mem_spelled (k := k) hnames
  obtain ⟨-, hsteps⟩ := steps_spell hsegments htext
  constructor
  · intro hempty
    rw [hempty, spell] at htext
    split at htext
    · cases htext
    · split at htext
      · cases htext
      · next hne => exact hne ((joinWith_eq_nil_iff hsegments).mp htext.symm)
  · split at hsteps
    · exact .inl hsteps
    · rw [map_ofPiece k hnames] at hsteps
      exact .inr ⟨k, _, hsteps⟩

end Path

namespace FileTree

variable {tree : FileTree} {start q : Place} {names : List String} {node : Node} {p : Path}
  {bytes : List UInt8}

/-- Whether all that stands in a tree stands in directories, under names of files, and relative
paths start from a directory. -/
structure WellFormed (tree : FileTree) : Prop where
  base : tree.node? tree.base = some .directory
  entries : ∀ q name node, tree.node? (q ++ [name]) = some node →
    tree.node? q = some .directory ∧ IsFileName name.toList

namespace WellFormed

theorem directory_of_append (h : tree.WellFormed) (hnode : tree.node? (q ++ names) = some node)
    (hne : names ≠ []) : tree.node? q = some .directory := by
  induction names using List.reverseRecOn generalizing node with
  | nil => exact absurd rfl hne
  | append_singleton names name ih =>
    rw [← List.append_assoc] at hnode
    have hparent := (h.entries _ _ _ hnode).1
    by_cases hnames : names = []
    · rwa [hnames, List.append_nil] at hparent
    · exact ih hparent hnames

/-- What stands below a place is reached from there. -/
theorem walk_into (h : tree.WellFormed) (hnode : tree.node? (start ++ names) = some node) :
    tree.walk start (names.map .into) = .ok (start ++ names) := by
  induction names generalizing start with
  | nil => simp [walk]
  | cons name names ih =>
    have hdirectory := h.directory_of_append hnode (List.cons_ne_nil name names)
    rw [List.append_cons] at hnode ⊢
    rw [List.map_cons, walk, hdirectory]
    exact ih hnode

end WellFormed

/-- Steps up lead to the top and no further. -/
theorem placeFrom_up (start : Place) (k : Nat) (steps : List Step) :
    placeFrom start (List.replicate k .up ++ steps) =
      placeFrom (start.take (start.length - k)) steps := by
  induction k generalizing start with
  | zero => simp
  | succ k ih =>
    have hcons : placeFrom start (List.replicate (k + 1) .up ++ steps) =
        placeFrom start.dropLast (List.replicate k .up ++ steps) := rfl
    rw [hcons, ih, List.length_dropLast, List.dropLast_eq_take, List.take_take]
    congr 2
    omega

theorem placeFrom_into (start : Place) (names : List String) :
    placeFrom start (names.map .into) = start ++ names := by
  induction names generalizing start with
  | nil => rw [List.append_nil]; rfl
  | cons name names ih =>
    rw [List.append_cons, ← ih]
    rfl

/-- Leading up from a directory passes directories. -/
theorem WellFormed.walk_up (h : tree.WellFormed) (hstart : tree.node? start = some .directory)
    (k : Nat) (steps : List Step) :
    tree.walk start (List.replicate k .up ++ steps) =
      tree.walk (start.take (start.length - k)) steps := by
  induction k generalizing start with
  | zero => simp
  | succ k ih =>
    have hnext : tree.walk start (List.replicate (k + 1) .up ++ steps) =
        tree.walk start.dropLast (List.replicate k .up ++ steps) := by
      rw [List.replicate_succ, List.cons_append, walk, hstart]
      rfl
    have hdirectory : tree.node? start.dropLast = some .directory := by
      cases start using List.reverseRecOn with
      | nil => rfl
      | append_singleton start name =>
        rw [List.dropLast_concat]
        exact (h.entries _ _ _ hstart).1
    rw [hnext, ih hdirectory, List.length_dropLast, List.dropLast_eq_take, List.take_take]
    congr 2
    omega

/-- A path in normal spelling that is not too long reads the file at its place. -/
theorem WellFormed.readable_of_isNormal (h : tree.WellFormed) (hp : p.IsNormal)
    (hshort : p.isTooLong = false) : tree.Readable p := by
  intro bytes hfile
  obtain ⟨htext, hsteps⟩ := hp.steps_eq
  have horigin : tree.node? (tree.origin p) = some .directory := by
    rw [origin]
    split
    · rfl
    · exact h.base
  refine read_eq_ok_iff.mpr ⟨_, locate_eq_ok_iff.mpr ⟨htext, hshort, ?_⟩, hfile⟩
  rw [placeOf] at hfile ⊢
  rcases hsteps with hsteps | ⟨k, names, hsteps⟩
  · have hstay : placeFrom (tree.origin p) p.steps = tree.origin p := by
      rw [hsteps]
      rfl
    rw [hstay, horigin] at hfile
    cases hfile
  · rw [hsteps, placeFrom_up, placeFrom_into] at hfile ⊢
    rw [h.walk_up horigin, h.walk_into hfile]

end FileTree

end MacroSweep
