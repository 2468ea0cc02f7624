import MacroSweep.Proofs.Text
import MacroSweep.Walk.File
import Mathlib.Data.List.TakeWhile

/-! Which directives of a file the walk acts on: all up to the first that stands below a line which
goes on. From there on the walk waits for a line it has left out. -/
namespace MacroSweep.Walk

open Source Text

variable {ls : List Line} {d : Directive} {ds : List Directive} {cs text : List Char}

/-- The directives of a file that the walk acts on, in order. -/
def dispatched (ls : List Line) : List Directive :=
  (dispatch false ls (directives ls)).filterMap (·.2)

/-- Whether the line above a directive goes on in the line of the directive. -/
def isOverrun (ls : List Line) (d : Directive) : Bool :=
  ls.any fun l => l.number + 1 == d.line && isContinued l

/-- Each line has a greater number than those above it. -/
def Numbered (ls : List Line) : Prop := ls.Pairwise fun l m => l.number < m.number

/-- Whether the line with a number continues the one above it. The flag `continued` says so of the
first line. -/
def continuesAt (continued : Bool) : List Line → Nat → Bool
  | [], _ => false
  | l :: ls, n => if n = l.number then continued else continuesAt (isContinued l) ls n

theorem getLast?_trimEnd_cons {c : Char} (hc : isBlank c = false) (hb : c ≠ '\\') :
    (trimEnd (c :: cs)).getLast? = some '\\' ↔ (trimEnd cs).getLast? = some '\\' := by
  rw [trimEnd_cons]
  by_cases he : trimEnd cs = []
  · simp [he, hc, hb]
  · simp [he, List.getLast?_cons_of_ne_nil]

/-- A directive goes on if and only if its line does. -/
theorem isContinued_iff_of_sharp {l : Line} {body : List Char}
    (h : trimStart l.code = '#' :: body) :
    isContinued l = ((trim body).getLast? == some '\\') := by
  have hl : (trimEnd l.code).getLast? = (trimEnd ('#' :: body)).getLast? := by
    rw [← getLast?_trim, trim, h]
  have hb : (trimEnd ('#' :: body)).getLast? = some '\\' ↔ (trimEnd body).getLast? = some '\\' :=
    getLast?_trimEnd_cons (by decide) (by decide)
  rw [Bool.eq_iff_iff]
  simp only [isContinued, beq_iff_eq, hl, getLast?_trim, hb]

/-- Joined text goes on if and only if the line joined last does. -/
theorem isContinued_iff_of_joined (l : Line) (text : List Char) :
    isContinued l = ((text ++ ' ' :: trim l.code).getLast? == some '\\') := by
  rw [Bool.eq_iff_iff]
  simp only [isContinued, ← getLast?_trim, beq_iff_eq, List.getLast?_append, List.getLast?_cons]
  cases (trim l.code).getLast? <;> simp

theorem joinContinued_suffix (text : List Char) (ls : List Line) :
    (joinContinued text ls).2 <:+ ls := by
  induction ls generalizing text with
  | nil => simp [joinContinued]
  | cons l ls ih =>
    unfold joinContinued
    split
    · exact (ih _).trans (List.suffix_cons _ _)
    · exact List.suffix_rfl

/-- The walk leaves out the lines that a directive joins, and no other. -/
theorem dispatch_joinContinued (text : List Char) (ls : List Line) (ds : List Directive) :
    dispatch (text.getLast? == some '\\') ls ds = dispatch false (joinContinued text ls).2 ds := by
  induction ls generalizing text with
  | nil => simp [joinContinued, dispatch]
  | cons l ls ih =>
    unfold joinContinued
    split
    · next ht =>
      rw [← ih, ← isContinued_iff_of_joined, ht]
      simp [dispatch]
    · next ht => simp [beq_eq_false_iff_ne.mpr ht]

theorem continuesAt_joinContinued {n : Nat} (hl : Numbered ls)
    (hn : ∃ l ∈ (joinContinued text ls).2, l.number = n) :
    continuesAt (text.getLast? == some '\\') ls n =
      continuesAt false (joinContinued text ls).2 n := by
  induction ls generalizing text with
  | nil => simp [joinContinued, continuesAt]
  | cons l ls ih =>
    unfold joinContinued at hn ⊢
    split
    · next ht =>
      simp only [ht, if_true] at hn
      have hne : n ≠ l.number := by
        obtain ⟨m, hm, rfl⟩ := hn
        have := List.rel_of_pairwise_cons hl ((joinContinued_suffix _ _).subset hm)
        omega
      rw [← ih (List.Pairwise.of_cons hl) hn, ← isContinued_iff_of_joined, ht]
      simp [continuesAt, hne]
    · next ht => simp [beq_eq_false_iff_ne.mpr ht]

/-- Every directive starts on a line. -/
theorem exists_line_of_mem_directives (h : d ∈ directives ls) : ∃ l ∈ ls, l.number = d.line := by
  fun_induction directives ls with
  | case1 => simp at h
  | case2 l ls body hb ih =>
    rcases List.mem_cons.mp h with rfl | h
    · exact ⟨l, by simp, rfl⟩
    · obtain ⟨m, hm, he⟩ := ih h
      exact ⟨m, List.mem_cons_of_mem _ ((joinContinued_suffix _ _).subset hm), he⟩
  | case3 l ls hb ih =>
    obtain ⟨m, hm, he⟩ := ih h
    exact ⟨m, List.mem_cons_of_mem _ hm, he⟩

theorem line_ne_of_mem_directives {l : Line} (hl : Numbered (l :: ls)) (h : d ∈ directives ls) :
    d.line ≠ l.number := by
  obtain ⟨m, hm, he⟩ := exists_line_of_mem_directives h
  have := List.rel_of_pairwise_cons hl hm
  omega

/-- A directive whose line has been passed is waited for to the end. -/
theorem dispatch_stalled (continued : Bool) (hd : ∀ l ∈ ls, d.line < l.number) :
    (dispatch continued ls (d :: ds)).filterMap (·.2) = [] := by
  induction ls generalizing continued with
  | nil => simp [dispatch]
  | cons l ls ih =>
    have hne : d.line ≠ l.number := Nat.ne_of_lt (hd l (by simp))
    have hrest := fun continued => ih continued fun m hm => hd m (List.mem_cons_of_mem _ hm)
    cases continued <;> simp [dispatch, hne, hrest]

/-- A line that starts no directive gives the walk none. -/
theorem dispatch_cons_none {l : Line} (hne : ∀ d ∈ ds, d.line ≠ l.number) (continued : Bool) :
    (dispatch continued (l :: ls) ds).filterMap (·.2) =
      (dispatch (isContinued l) ls ds).filterMap (·.2) := by
  cases continued with
  | true => simp [dispatch]
  | false =>
    cases ds with
    | nil => simp [dispatch]
    | cons d ds => simp [dispatch, hne d (by simp)]

theorem takeWhile_congr_mem {p q : Directive → Bool} (h : ∀ d ∈ ds, p d = q d) :
    ds.takeWhile p = ds.takeWhile q := by
  induction ds with
  | nil => rfl
  | cons d ds ih =>
    simp only [List.takeWhile_cons, h d (by simp)]
    rw [ih fun e he => h e (List.mem_cons_of_mem _ he)]

/-- The induction follows the directives: a line, or a directive with all lines it joins. -/
theorem dispatch_directives (hl : Numbered ls) (continued : Bool) :
    (dispatch continued ls (directives ls)).filterMap (·.2) =
      (directives ls).takeWhile fun d => !continuesAt continued ls d.line := by
  fun_induction directives ls generalizing continued with
  | case1 => simp [dispatch]
  | case2 l ls body hb ih =>
    have hrest : Numbered ls := List.Pairwise.of_cons hl
    have hsuffix := joinContinued_suffix (trim body) ls
    have hline : (Directive.ofText l.number (joinContinued (trim body) ls).1).line = l.number := rfl
    cases continued with
    | true =>
      have hlt : ∀ m ∈ ls, l.number < m.number := fun m hm => List.rel_of_pairwise_cons hl hm
      rw [List.takeWhile_cons_of_neg (by simp [continuesAt, hline])]
      simpa [dispatch] using dispatch_stalled _ hlt
    | false =>
      rw [List.takeWhile_cons_of_pos (by simp [continuesAt, hline])]
      simp only [dispatch, hline, Bool.false_eq_true, if_false, if_true, List.filterMap_cons,
        isContinued_iff_of_sharp hb, dispatch_joinContinued]
      rw [ih (hrest.sublist hsuffix.sublist)]
      congr 1
      apply takeWhile_congr_mem
      intro d hd
      have hne := line_ne_of_mem_directives
        (hl.sublist (hsuffix.sublist.cons_cons l)) hd
      obtain ⟨m, hm, he⟩ := exists_line_of_mem_directives hd
      rw [← continuesAt_joinContinued hrest ⟨m, hm, he⟩, ← isContinued_iff_of_sharp hb]
      simp [continuesAt, hne]
  | case3 l ls hb ih =>
    have hne := fun d hd => line_ne_of_mem_directives (d := d) hl hd
    rw [dispatch_cons_none hne, ih (List.Pairwise.of_cons hl)]
    apply takeWhile_congr_mem
    intro d hd
    simp [continuesAt, hne d hd]

/-- The lines of a text are numbered from one. -/
theorem number_sourceLines (content : List Char) :
    (sourceLines content).map (·.number) = List.range' 1 (sourceLines content).length := by
  simp only [sourceLines, List.map_map, List.length_map, List.length_zipIdx]
  apply List.ext_getElem
  · simp
  · intro i h₁ h₂
    simp [Nat.add_comm]

theorem numbered_sourceLines (content : List Char) : Numbered (sourceLines content) := by
  have h := List.pairwise_lt_range' (s := 1) (n := (sourceLines content).length)
  rw [← number_sourceLines, List.pairwise_map] at h
  exact h

/-- Where lines are numbered without gaps, the line above decides. -/
theorem continuesAt_eq_any {k n : Nat} (continued : Bool)
    (hl : ls.map (·.number) = List.range' k ls.length) (hn : ∃ l ∈ ls, l.number = n) :
    continuesAt continued ls n =
      ((n == k && continued) || ls.any fun l => l.number + 1 == n && isContinued l) := by
  induction ls generalizing continued k with
  | nil => simp at hn
  | cons l ls ih =>
    simp only [List.map_cons, List.length_cons, List.range'_succ, List.cons.injEq] at hl
    obtain ⟨rfl, hl⟩ := hl
    have hge : ∀ m ∈ ls, l.number < m.number := by
      intro m hm
      have := List.mem_map_of_mem (f := (·.number)) hm
      rw [hl, List.mem_range'_1] at this
      omega
    simp only [continuesAt, List.any_cons]
    by_cases he : n = l.number
    · have hany : ls.any (fun m => m.number + 1 == n && isContinued m) = false := by
        rw [List.any_eq_false]
        intro m hm
        have := hge m hm
        have hne : m.number + 1 ≠ n := by omega
        simp [hne]
      have hself : (l.number + 1 == n) = false := by simp [he]
      have hk : (n == l.number) = true := by simp [he]
      rw [if_pos he, hany, hself, hk]
      simp
    · obtain ⟨m, hm, hmn⟩ := hn
      have hm : m ∈ ls := by
        rcases List.mem_cons.mp hm with rfl | hm
        · exact absurd hmn.symm he
        · exact hm
      have hk : (n == l.number) = false := by simp [he]
      rw [if_neg he, ih (isContinued l) hl ⟨m, hm, hmn⟩, hk, Bool.beq_comm]
      simp

theorem continuesAt_eq_isOverrun {content : List Char}
    (hd : d ∈ directives (sourceLines content)) :
    continuesAt false (sourceLines content) d.line = isOverrun (sourceLines content) d := by
  rw [continuesAt_eq_any false (number_sourceLines content) (exists_line_of_mem_directives hd)]
  simp [isOverrun]

/-- The walk acts on the directives of a file up to the first that stands below a line which goes
on, and on none from there on. So it acts on all directives if and only if no directive stands below
such a line. -/
theorem dispatched_eq_directives_iff (content : List Char) :
    dispatched (sourceLines content) =
        (directives (sourceLines content)).takeWhile (!isOverrun (sourceLines content) ·) ∧
      (dispatched (sourceLines content) = directives (sourceLines content) ↔
        ∀ d ∈ directives (sourceLines content), isOverrun (sourceLines content) d = false) := by
  have h : dispatched (sourceLines content) =
      (directives (sourceLines content)).takeWhile (!isOverrun (sourceLines content) ·) := by
    rw [dispatched, dispatch_directives (numbered_sourceLines content)]
    apply takeWhile_congr_mem
    intro d hd
    rw [continuesAt_eq_isOverrun hd]
  refine ⟨h, ?_⟩
  rw [h, List.takeWhile_eq_self_iff]
  simp

/-- A definition below a line of code that goes on: neither it nor the error directive after it is
acted on. -/
theorem dispatched_ne_directives_below_backslash :
    dispatched (sourceLines "x \\\n#define A\n#error e\n".toList) ≠
      directives (sourceLines "x \\\n#define A\n#error e\n".toList) := by
  decide +kernel

end MacroSweep.Walk
