import MacroSweep.Proofs.Spelling

/-! Simplified paths. Simplifying leaves a path in normal form as it is, so it may be done in parts:
a path that starts with a simplified one leads to the same normal form. -/
namespace MacroSweep.Path

open Text FileTree

variable {absolute : Bool} {segment text : List Char} {kept names segments : List (List Char)}
  {k : Nat}

/-- The segments of a path in normal form: double dots, which no absolute path has, and then file
names. -/
def IsResolved (absolute : Bool) (segments : List (List Char)) : Prop :=
  ∃ k names, segments = List.replicate k dots ++ names ∧ (∀ n ∈ names, IsFileName n) ∧
    (absolute = true → k = 0)

theorem IsResolved.isSegment (h : IsResolved absolute segments) : ∀ s ∈ segments, IsSegment s := by
  obtain ⟨k, names, rfl, hnames, -⟩ := h
  exact isSegment_of_mem_spelled hnames

/-- Double dots are dropped at the root, so an absolute path keeps none. -/
theorem dots_notMem_pushSegment (h : dots ∉ kept) : dots ∉ pushSegment true kept segment := by
  unfold pushSegment
  split
  · exact h
  · split
    · split
      · next last more =>
        split
        · exact fun hmem => h (List.mem_cons_of_mem _ hmem)
        · exact h
      · exact List.not_mem_nil
    · next hdots =>
      intro hmem
      rcases List.mem_cons.mp hmem with heq | hmem
      · exact hdots heq.symm
      · exact h hmem

theorem dots_notMem_foldl_pushSegment (h : dots ∉ kept) (segments : List (List Char)) :
    dots ∉ segments.foldl (pushSegment true) kept := by
  induction segments generalizing kept with
  | nil => exact h
  | cons segment segments ih => exact ih (dots_notMem_pushSegment h)

/-- Simplifying leads to a normal form. -/
theorem isResolved_simplifySegments (absolute : Bool) (text : List Char) :
    IsResolved absolute (simplifySegments absolute (splitOn '/' text)) := by
  obtain ⟨k, names, heq, hnames⟩ := simplifySegments_eq absolute text
  refine ⟨k, names, heq, hnames, ?_⟩
  rintro rfl
  have hdots : dots ∉ simplifySegments true (splitOn '/' text) := fun hmem =>
    dots_notMem_foldl_pushSegment List.not_mem_nil (splitOn '/' text) (List.mem_reverse.mp hmem)
  rw [heq] at hdots
  cases k with
  | zero => rfl
  | succ k => exact absurd (by simp [List.replicate_succ]) hdots

theorem foldl_pushSegment_names (h : ∀ n ∈ names, IsFileName n) (kept : List (List Char)) :
    names.foldl (pushSegment absolute) kept = names.reverse ++ kept := by
  induction names generalizing kept with
  | nil => rfl
  | cons n names ih =>
    obtain ⟨hne, hdot, hdots, -⟩ := h n List.mem_cons_self
    have hpush : pushSegment absolute kept n = n :: kept := by
      unfold pushSegment
      rw [if_neg (not_or.mpr ⟨hne, hdot⟩), if_neg hdots]
    rw [List.foldl_cons, hpush, ih fun m hm => h m (List.mem_cons_of_mem _ hm)]
    simp

theorem foldl_pushSegment_dots (j k : Nat) :
    (List.replicate k dots).foldl (pushSegment false) (List.replicate j dots) =
      List.replicate (j + k) dots := by
  induction k generalizing j with
  | zero => rfl
  | succ k ih =>
    have hpush : pushSegment false (List.replicate j dots) dots = List.replicate (j + 1) dots := by
      cases j <;> rfl
    rw [List.replicate_succ, List.foldl_cons, hpush, ih]
    congr 1
    omega

/-- Segments in normal form are all kept. -/
theorem foldl_pushSegment_of_isResolved (h : IsResolved absolute segments) :
    segments.foldl (pushSegment absolute) [] = segments.reverse := by
  obtain ⟨k, names, rfl, hnames, hroot⟩ := h
  have hdots : (List.replicate k dots).foldl (pushSegment absolute) [] = List.replicate k dots := by
    cases absolute with
    | true =>
      rw [hroot rfl]
      rfl
    | false => simpa using foldl_pushSegment_dots 0 k
  rw [List.foldl_append, hdots, foldl_pushSegment_names hnames, List.reverse_append,
    List.reverse_replicate]

theorem splitOn_spell (h : ∀ s ∈ segments, IsSegment s) (hne : segments ≠ []) :
    splitOn '/' (spell absolute segments) = (if absolute then [[]] else []) ++ segments := by
  have hsplit := splitOn_joinWith hne fun s hs => (h s hs).2.2
  cases absolute with
  | true => simp [spell, splitOn_sep_cons, hsplit]
  | false => simp [spell, hne, hsplit]

/-- Cutting a normal form at its slashes and simplifying gives its segments again. -/
theorem simplifySegments_spell (h : IsResolved absolute segments) :
    simplifySegments absolute (splitOn '/' (spell absolute segments)) = segments := by
  by_cases hne : segments = []
  · subst hne
    cases absolute <;> rfl
  · have hempty : pushSegment absolute [] [] = [] := rfl
    have hroot : (if absolute then [[]] else []).foldl (pushSegment absolute) [] = [] := by
      split <;> simp [hempty]
    rw [simplifySegments, splitOn_spell h.isSegment hne, List.foldl_append, hroot,
      foldl_pushSegment_of_isResolved h, List.reverse_reverse]

theorem head?_spell (h : ∀ s ∈ segments, IsSegment s) :
    ((spell absolute segments).head? == some '/') = absolute := by
  cases absolute with
  | true => rfl
  | false =>
    rw [beq_eq_false_iff_ne, spell, if_neg Bool.false_ne_true]
    split
    · decide
    · exact head?_joinWith_ne h

/-- A path is absolute if and only if its normal form is. -/
theorem head?_simplifyChars (text : List Char) :
    ((simplifyChars text).head? == some '/') = (text.head? == some '/') := by
  rw [simplifyChars_eq_spell]
  exact head?_spell (isSegment_of_mem_simplifySegments text)

theorem simplifySegments_simplifyChars (text : List Char) :
    simplifySegments (text.head? == some '/') (splitOn '/' (simplifyChars text)) =
      simplifySegments (text.head? == some '/') (splitOn '/' text) := by
  conv_lhs => rw [simplifyChars_eq_spell]
  exact simplifySegments_spell (isResolved_simplifySegments _ text)

theorem simplifyChars_ne_nil (text : List Char) : simplifyChars text ≠ [] := by
  rw [simplifyChars_eq_spell, spell]
  split
  · exact List.cons_ne_nil _ _
  · split
    · exact List.cons_ne_nil _ _
    · next hne =>
      rwa [ne_eq, joinWith_eq_nil_iff (isSegment_of_mem_simplifySegments text)]

/-- What a path starts with may be simplified first. -/
theorem simplifyChars_append (h : text ≠ []) (rest : List Char) :
    simplifyChars (text ++ '/' :: rest) = simplifyChars (simplifyChars text ++ '/' :: rest) := by
  have hhead : ∀ start : List Char, start ≠ [] →
      (start ++ '/' :: rest).head? = start.head? := by
    intro start hne
    obtain ⟨c, cs, rfl⟩ := List.exists_cons_of_ne_nil hne
    rfl
  have hkept : (splitOn '/' (simplifyChars text)).foldl (pushSegment (text.head? == some '/')) [] =
      (splitOn '/' text).foldl (pushSegment (text.head? == some '/')) [] :=
    List.reverse_injective (simplifySegments_simplifyChars text)
  rw [simplifyChars_eq_spell, simplifyChars_eq_spell, hhead text h,
    hhead _ (simplifyChars_ne_nil text), head?_simplifyChars]
  simp only [simplifySegments, splitOn_append_cons, List.foldl_append, hkept]

/-- A path in normal form: a single dot, the root, or segments between slashes. None of these is
empty or a single dot, and double dots only lead a relative path. -/
def IsSimple (t : String) : Prop :=
  t = "." ∨ t = "/" ∨ ∃ k names,
    splitOn '/' t.toList =
      (if (⟨t⟩ : Path).isAbsolute then [[]] else []) ++ (List.replicate k dots ++ names) ∧
    (∀ n ∈ names, n ≠ [] ∧ n ≠ ['.'] ∧ n ≠ dots) ∧ ((⟨t⟩ : Path).isAbsolute = true → k = 0)

theorem isAbsolute_simplifyText (t : String) :
    (⟨simplifyText t⟩ : Path).isAbsolute = (⟨t⟩ : Path).isAbsolute := by
  simpa [isAbsolute, simplifyText] using head?_simplifyChars t.toList

theorem isSimple_simplifyText (t : String) : IsSimple (simplifyText t) := by
  have hresolved := isResolved_simplifySegments (t.toList.head? == some '/') t.toList
  have hsegment := hresolved.isSegment
  obtain ⟨k, names, heq, hnames, hroot⟩ := hresolved
  have hspell := simplifyChars_eq_spell t.toList
  by_cases hnil : simplifySegments (t.toList.head? == some '/') (splitOn '/' t.toList) = []
  · rw [hnil] at hspell
    rw [simplifyText, hspell]
    cases t.toList.head? == some '/' with
    | true => exact .inr (.inl rfl)
    | false => exact .inl rfl
  · rw [IsSimple, isAbsolute_simplifyText]
    refine .inr (.inr ⟨k, names, ?_, fun n hn => ?_, hroot⟩)
    · rw [simplifyText, String.toList_ofList, hspell, splitOn_spell hsegment hnil, heq]
      rfl
    · obtain ⟨hne, hdot, hdots, -⟩ := hnames n hn
      exact ⟨hne, hdot, hdots⟩

/-- A text is spelled with the segments between its slashes. -/
theorem spell_of_splitOn
    (h : splitOn '/' text = (if text.head? == some '/' then [[]] else []) ++ segments) :
    spell (text.head? == some '/') segments = text := by
  cases hroot : text.head? == some '/' with
  | true =>
    obtain ⟨rest, rfl⟩ := List.head?_eq_some_iff.mp (beq_iff_eq.mp hroot)
    rw [splitOn_sep_cons] at h
    obtain rfl : splitOn '/' rest = segments := (List.cons.inj h).2
    rw [spell, if_pos rfl, joinWith_splitOn]
  | false =>
    obtain rfl : splitOn '/' text = segments := by simpa [hroot] using h
    rw [spell, if_neg Bool.false_ne_true, if_neg (splitOn_ne_nil '/' text), joinWith_splitOn]

theorem simplifyText_of_isSimple {t : String} (h : IsSimple t) : simplifyText t = t := by
  obtain rfl | rfl | ⟨k, names, hsplit, hnames, hroot⟩ := h
  · decide
  · decide
  · have hslash : ∀ n ∈ names, '/' ∉ n := by
      intro n hn
      have hmem : n ∈ splitOn '/' t.toList := by
        rw [hsplit]
        exact List.mem_append_right _ (List.mem_append_right _ hn)
      exact sep_notMem_of_mem_splitOn hmem
    have hresolved : IsResolved (t.toList.head? == some '/') (List.replicate k dots ++ names) := by
      refine ⟨k, names, rfl, fun n hn => ?_, hroot⟩
      obtain ⟨hne, hdot, hdots⟩ := hnames n hn
      exact ⟨hne, hdot, hdots, hslash n hn⟩
    have htext := spell_of_splitOn hsplit
    have hsegments := simplifySegments_spell hresolved
    rw [htext] at hsegments
    rw [simplifyText, simplifyChars_eq_spell, hsegments, htext, String.ofList_toList]

/-- Simplified paths are canonical and can be simplified in parts: simplifying again changes
nothing, and neither does simplifying what a path starts with. A path is absolute exactly if its
normal form is. What comes out is in normal form, what is in normal form stays as it is, and normal
forms with the same components are the same text. -/
theorem simplifyText_canonical :
    (∀ t, simplifyText (simplifyText t) = simplifyText t) ∧
    (∀ a b, a ≠ "" → simplifyText (a ++ "/" ++ b) = simplifyText (simplifyText a ++ "/" ++ b)) ∧
    (∀ t, (⟨simplifyText t⟩ : Path).isAbsolute = (⟨t⟩ : Path).isAbsolute) ∧
    (∀ t, IsSimple (simplifyText t)) ∧
    (∀ t, IsSimple t → simplifyText t = t) ∧
    (∀ t u, (⟨simplifyText t⟩ : Path).same ⟨simplifyText u⟩ = true →
      simplifyText t = simplifyText u) := by
  refine ⟨fun t => ?_, fun a b hne => ?_, isAbsolute_simplifyText, isSimple_simplifyText,
    fun t => simplifyText_of_isSimple, fun t u h => ?_⟩
  · exact simplifyText_of_isSimple (isSimple_simplifyText t)
  · have hchars : a.toList ≠ [] := by simpa using hne
    have happend := simplifyChars_append hchars b.toList
    simp [simplifyText, happend]
  · have htext := congrArg textOf (same_iff.mp h)
    simp only [components, simplifyText, String.toList_ofList,
      textOf_componentsOf_simplifyChars] at htext
    rw [simplifyText, simplifyText, htext]

/-- A directory that is entered and left again, and two spellings of one path. -/
theorem simplifyText_of_detour :
    ("a/.." ≠ "" ∧ simplifyText ("a/.." ++ "/" ++ "../b") =
      simplifyText (simplifyText "a/.." ++ "/" ++ "../b")) ∧
    (IsSimple "../b" ∧ simplifyText "../b" = "../b") ∧
    (⟨simplifyText "x//y"⟩ : Path).same ⟨simplifyText "x/./y"⟩ = true ∧
      simplifyText "x//y" = simplifyText "x/./y" := by
  have hsimple : IsSimple "../b" := .inr (.inr ⟨1, [['b']], by decide, by decide, by decide⟩)
  have hsame : (⟨simplifyText "x//y"⟩ : Path).same ⟨simplifyText "x/./y"⟩ = true := by
    decide +kernel
  obtain ⟨-, hparts, -, -, hfixed, htext⟩ := simplifyText_canonical
  exact ⟨⟨by decide, hparts "a/.." "../b" (by decide)⟩, ⟨hsimple, hfixed "../b" hsimple⟩, hsame,
    htext "x//y" "x/./y" hsame⟩

end MacroSweep.Path
