import MacroSweep.Proofs.Journey
import MacroSweep.Proofs.LiteralNames
import MacroSweep.Proofs.Selection
import MacroSweep.Proofs.Sites

/-! The names that the walk records as used. An active line of code has its names recorded when the
walk comes to it, and no step forgets a name, so at the end of the walk they are known and their
macros are not reported as unused. -/
namespace MacroSweep.Program.Facts

/-- Facts that others are joined with, on either side and any number of times. -/
inductive Joined (f : Facts) : Facts → Prop where
  | self : Joined f f
  | left {g : Facts} (h : Joined f g) (other : Facts) : Joined f (g.merge other)
  | right {g : Facts} (other : Facts) (h : Joined f g) : Joined f (other.merge g)

theorem Joined.uses {f g : Facts} {name : String} (h : Joined f g)
    (hf : f.uses.contains name = true) : g.uses.contains name = true := by
  induction h with
  | self => exact hf
  | @left g _ other ih =>
    have hmerge := tells_merge g other (.use name)
    rwa [tells, tells, ih, Bool.true_or] at hmerge
  | @right g other _ ih =>
    have hmerge := tells_merge other g (.use name)
    rwa [tells, tells, tells, ih, Bool.or_true] at hmerge

theorem unusedMacro_notMem {facts : Facts} {name : String} (h : facts.uses.contains name = true)
    (place : Location) : unusedMacro name place ∉ facts.unusedMacros := by
  intro hmem
  obtain ⟨e, he, hmem⟩ := List.mem_flatMap.mp hmem
  obtain ⟨site, -, hsite⟩ := List.mem_map.mp hmem
  obtain rfl : e.1 = name := Option.some.inj (congrArg Finding.symbol hsite)
  simp [h] at he

end MacroSweep.Program.Facts

namespace MacroSweep.Walk

open Checker Program Source

variable {pass : Pass} {enter : Path → State → Except Failure State} {path : Path} {p q : Position}
  {s s' : State} {d : Directive} {location : Location} {name : String} {item : Item}

/-- Whether a state has recorded the use of a name. -/
def State.knows (s : State) (name : String) : Bool := s.facts.uses.contains name

theorem knows_reference (s : State) (names : List String) (name : String) :
    (s.reference names).knows name = true ↔ name ∈ names ∨ s.knows name = true := by
  unfold State.knows State.reference
  generalize s.facts = facts
  induction names generalizing facts with
  | nil => simp
  | cons a names ih =>
    rw [List.foldl_cons, ih, Facts.reference, SortedSet.contains_insert]
    simp [or_assoc, or_left_comm]

theorem knows_actDefine (h : s.knows name = true) : (actDefine s d location).knows name = true := by
  unfold actDefine
  split
  · exact h
  · exact (knows_reference s _ name).mpr (.inr h)

theorem knows_openGroup (settings : Settings) (h : p.state.knows name = true) :
    (p.openGroup settings d location).state.knows name = true := by
  have h' := (knows_reference p.state (conditionUses d) name).mpr (.inr h)
  simp only [Position.openGroup]
  split <;> simpa [State.knows, facts_decideCondition, facts_noteLimit] using h'

theorem knows_nextBranch (h : p.state.knows name = true) :
    (p.nextBranch d location).state.knows name = true := by
  have h' := (knows_reference p.state (conditionUses d) name).mpr (.inr h)
  simp only [Position.nextBranch]
  split
  · exact h'
  · split
    · exact h'
    · split <;> simpa [State.knows, facts_decideCondition] using h'

/-- A step forgets no name, if the files that are entered do not. -/
theorem knows_step (henter : ∀ target s s', enter target s = .ok s' → s.knows name = true →
      s'.knows name = true) (h : p.step pass enter path item = .ok q)
    (hp : p.state.knows name = true) : q.state.knows name = true := by
  obtain ⟨line, directive⟩ := item
  cases directive with
  | none =>
    cases h
    split
    · exact (knows_reference _ _ _).mpr (.inr hp)
    · exact hp
  | some d =>
    simp only [Position.step, Position.act] at h
    split at h
    · cases h
      exact knows_openGroup _ hp
    · cases h
      exact knows_nextBranch hp
    · cases h
      rwa [State.knows, facts_lastBranch]
    · cases h
      rwa [State.knows, facts_closeGroup]
    · split at h
      · split at h
        · cases h
          exact knows_actDefine hp
        · cases h
          unfold actUndef
          split <;> exact hp
        · cases h
          exact hp
        · split at h
          · next target hfound =>
            cases hs : enter target p.state with
            | error e => simp [hs, bind, Except.bind] at h
            | ok s =>
              simp only [hs, bind, Except.bind, pure, Except.pure, Except.ok.injEq] at h
              subst h
              exact henter target p.state s hs hp
          · cases h
            exact hp
        · cases h
          exact hp
      · cases h
        exact hp

namespace Journey

variable {j k : Journey} {n : Nat}

theorem state_openFile (h : j.openFile pass path = .ok k) : k.state = j.state := by
  unfold openFile at h
  split at h
  · cases h
    rfl
  · cases hread : pass.read path with
    | error e => simp [hread, bind, Except.bind] at h
    | ok content =>
      rw [hread] at h
      cases h
      rfl

theorem knows_next (h : j.next pass = .ok k) (hj : j.state.knows name = true) :
    k.state.knows name = true := by
  obtain ⟨frames, s⟩ := j
  match frames with
  | [] =>
    cases h
    exact hj
  | ⟨path, [], groups, opened, limited⟩ :: outer =>
    cases h
    rwa [State.knows, facts_finish]
  | ⟨path, item :: items, groups, opened, limited⟩ :: outer =>
    cases htarget : Position.target? pass path ⟨groups, opened, limited, s⟩ item with
    | none =>
      obtain ⟨q, hq⟩ := exists_step_of_target? htarget
      have hnext := next_of_no_target htarget hq items outer
      obtain rfl := Except.ok.inj (h.symm.trans hnext)
      refine knows_step (fun _ s s' hs hknows => ?_) (hq fun _ => .ok) hj
      cases hs
      exact hknows
    | some target =>
      have hnext := next_of_target? htarget items outer
      rw [state_openFile (hnext.symm.trans h)]
      exact hj

/-- What every step keeps, so does the walk. -/
theorem run_preserves {P : Journey → Prop} (hnext : ∀ i k, i.next pass = .ok k → P i → P k)
    (h : run pass n j = .ok k) (hj : P j) : P k := by
  induction n generalizing j with
  | zero =>
    cases h
    exact hj
  | succ n ih =>
    rw [run] at h
    cases hstep : j.next pass with
    | error e => simp [hstep, bind, Except.bind] at h
    | ok i => exact ih (by rwa [hstep] at h) (hnext j i hstep hj)

/-- The active line of code that the walk comes to. -/
def codeLine? (j : Journey) : Option Line :=
  match j.frames with
  | frame :: _ =>
    match frame.items with
    | (line, none) :: _ => if (frame.position j.state).isActive then some line else none
    | _ => none
  | [] => none

theorem knows_of_codeLine? {line : Line} (hline : j.codeLine? = some line)
    (hname : name ∈ codeNames line.code) (h : j.next pass = .ok k) : k.state.knows name = true := by
  obtain ⟨frames, s⟩ := j
  match frames with
  | [] => cases hline
  | ⟨path, [], groups, opened, limited⟩ :: outer => cases hline
  | ⟨path, (line', some d) :: items, groups, opened, limited⟩ :: outer => cases hline
  | ⟨path, (line', none) :: items, groups, opened, limited⟩ :: outer =>
    simp only [codeLine?] at hline
    split at hline
    · next hactive =>
      obtain rfl := Option.some.inj hline
      cases h
      rw [if_pos hactive]
      exact (knows_reference s _ name).mpr (.inl hname)
    · cases hline

/-- The lines still to come are lines of the files that are open. -/
def Faithful (pass : Pass) (j : Journey) : Prop :=
  ∀ frame ∈ j.frames, ∃ content, pass.read frame.path = .ok content ∧
    frame.items <:+ dispatch false (sourceLines content) (directives (sourceLines content))

theorem Faithful.openFile (hj : j.Faithful pass) (h : j.openFile pass path = .ok k) :
    k.Faithful pass := by
  unfold Journey.openFile at h
  split at h
  · cases h
    exact hj
  · cases hread : pass.read path with
    | error e => simp [hread, bind, Except.bind] at h
    | ok content =>
      rw [hread] at h
      cases h
      exact List.forall_mem_cons.mpr ⟨⟨content, hread, List.suffix_rfl⟩, hj⟩

theorem Faithful.next (hj : j.Faithful pass) (h : j.next pass = .ok k) : k.Faithful pass := by
  obtain ⟨frames, s⟩ := j
  match frames with
  | [] =>
    cases h
    exact hj
  | ⟨path, [], groups, opened, limited⟩ :: outer =>
    cases h
    exact (List.forall_mem_cons.mp hj).2
  | ⟨path, item :: items, groups, opened, limited⟩ :: outer =>
    obtain ⟨⟨content, hread, hitems⟩, houter⟩ := List.forall_mem_cons.mp hj
    have hrest := (List.suffix_cons item items).trans hitems
    cases htarget : Position.target? pass path ⟨groups, opened, limited, s⟩ item with
    | none =>
      obtain ⟨q, hq⟩ := exists_step_of_target? htarget
      have hnext := next_of_no_target htarget hq items outer
      obtain rfl := Except.ok.inj (h.symm.trans hnext)
      exact List.forall_mem_cons.mpr ⟨⟨content, hread, hrest⟩, houter⟩
    | some target =>
      have hnext := next_of_target? htarget items outer
      have hframes : Faithful pass ⟨⟨path, items, groups, opened, limited⟩ :: outer, s⟩ :=
        List.forall_mem_cons.mpr ⟨⟨content, hread, hrest⟩, houter⟩
      exact hframes.openFile (hnext.symm.trans h)

theorem faithful_after (h : after pass n = .ok j) : j.Faithful pass := by
  rw [after] at h
  cases hopen : Journey.openFile pass ⟨[], { macros := initialMacros pass.configuration }⟩
      pass.unit.path with
  | error e => simp [hopen, bind, Except.bind] at h
  | ok k =>
    rw [hopen] at h
    have hstart :
        (⟨[], { macros := initialMacros pass.configuration }⟩ : Journey).Faithful pass := by
      simp [Faithful]
    exact run_preserves (fun _ _ hnext hi => Faithful.next hi hnext) h (hstart.openFile hopen)

/-- From every moment the walk comes to its end. -/
theorem exists_run_of_after (h : after pass n = .ok j) (hwalk : walkUnit pass = .ok s) :
    ∃ m, run pass m j = .ok ⟨[], s⟩ := by
  obtain ⟨m, hm⟩ : ∃ m, after pass m = (⟨[], ·⟩) <$> walkUnit pass :=
    exists_run_openFile ⟨[], _⟩ pass.unit.path
  rw [hwalk] at hm
  obtain hle | hle := Nat.le_total n m
  · obtain ⟨r, rfl⟩ := Nat.exists_eq_add_of_le hle
    rw [after_add, h] at hm
    exact ⟨r, hm⟩
  · obtain ⟨r, rfl⟩ := Nat.exists_eq_add_of_le hle
    rw [after_add, hm] at h
    obtain rfl := Except.ok.inj (h.symm.trans (run_of_no_frames r s))
    exact ⟨0, rfl⟩

end Journey

/-- Every line of a text has its place in the layout, with the same code. -/
theorem exists_laid {content : List Char} {line : Line} (h : line ∈ sourceLines content) :
    ∃ laid, (line, laid) ∈ (sourceLines content).zip (layout content) ∧ line.code = laid.code := by
  have hcode := code_sourceLines content
  have hlength : (sourceLines content).length = (layout content).length := by
    simpa using congrArg List.length hcode
  obtain ⟨i, hi, rfl⟩ := List.getElem_of_mem h
  have hi' : i < (layout content).length := hlength ▸ hi
  refine ⟨(layout content)[i], ?_, ?_⟩
  · rw [← List.getElem_zip (h := by simp [hi, hi'])]
    exact List.getElem_mem _
  · have := List.getElem_of_eq hcode (i := i) (by simpa using hi)
    simpa using this

/-- What is recorded of an active line of code stays recorded to the end of the walk. -/
theorem Journey.knows_of_walkUnit {n : Nat} {j : Journey} {line : Line}
    (h : Journey.after pass n = .ok j) (hline : j.codeLine? = some line)
    (hwalk : walkUnit pass = .ok s) (hname : name ∈ codeNames line.code) : s.knows name = true := by
  obtain ⟨m, hm⟩ := exists_run_of_after h hwalk
  cases m with
  | zero =>
    cases hm
    cases hline
  | succ m =>
    rw [run] at hm
    cases hnext : j.next pass with
    | error e => simp [hnext, bind, Except.bind] at hm
    | ok k =>
      rw [hnext] at hm
      exact run_preserves (P := fun i => i.state.knows name = true) (fun _ _ => knows_next) hm
        (knows_of_codeLine? hline hname hnext)

theorem Journey.exists_source {n : Nat} {j : Journey} {line : Line}
    (h : Journey.after pass n = .ok j) (hline : j.codeLine? = some line) :
    ∃ path content, j.stack.head? = some path ∧ pass.read path = .ok content ∧
      line ∈ sourceLines content := by
  have hfaithful := faithful_after h
  obtain ⟨frames, s⟩ := j
  match frames with
  | [] => cases hline
  | ⟨path, [], groups, opened, limited⟩ :: outer => cases hline
  | ⟨path, (line', some d) :: items, groups, opened, limited⟩ :: outer => cases hline
  | ⟨path, (line', none) :: items, groups, opened, limited⟩ :: outer =>
    obtain ⟨content, hread, hitems⟩ := hfaithful _ List.mem_cons_self
    refine ⟨path, content, rfl, hread, ?_⟩
    simp only [codeLine?] at hline
    split at hline
    · obtain rfl := Option.some.inj hline
      have hmem : (line', none) ∈ dispatch false (sourceLines content)
        (Source.directives (sourceLines content)) := hitems.subset List.mem_cons_self
      exact (dispatch_map_sublist _ _ _).subset (List.mem_map_of_mem hmem)
    · cases hline

/-- Where no apostrophe is stray, the names of a line of code are the identifiers outside of its
literals, in order. A stray apostrophe opens a literal for them: behind it they go on where the next
apostrophe closes that literal. Whenever the walk comes to an active line of code, the identifiers
outside of literals before a stray apostrophe are recorded as used when it ends, and are reported as
unused from no facts that these are joined into. -/
theorem namesOutside_recorded (pass : Pass) :
    (∀ content, written (layout content) = content ∧
      (sourceLines content).map (·.code) = (layout content).map LaidLine.code ∧
      ∀ laid ∈ layout content,
        ((∀ q ∈ laid.parts, isStray q = false) →
          codeNames laid.code = namesOutside laid.parts) ∧
        ∀ before q after, laid.parts = before ++ q :: after → (∀ r ∈ before, isStray r = false) →
          isStray q = true → codeNames laid.code =
            namesOutside before ++ codeNames (afterLiteral '\'' (after.flatMap Part.coded))) ∧
    ∀ n j line, Journey.after pass n = .ok j → j.codeLine? = some line →
      ∃ path content laid, j.stack.head? = some path ∧ pass.read path = .ok content ∧
        (line, laid) ∈ (sourceLines content).zip (layout content) ∧
        ∀ s, walkUnit pass = .ok s →
          ∀ name ∈ namesOutside (laid.parts.takeWhile (!isStray ·)),
            s.facts.uses.contains name = true ∧
            ∀ facts, s.facts.Joined facts →
              ∀ place, Facts.unusedMacro name place ∉ Checker.directives.conclude facts := by
  constructor
  · intro content
    refine ⟨written_layout content, code_sourceLines content, fun laid hlaid => ?_⟩
    exact ⟨codeNames_of_plain hlaid, fun before q after => codeNames_of_stray hlaid⟩
  · intro n j line h hline
    obtain ⟨path, content, hpath, hread, hmem⟩ := Journey.exists_source h hline
    obtain ⟨laid, hlaid, hcode⟩ := exists_laid hmem
    refine ⟨path, content, laid, hpath, hread, hlaid, fun s hwalk name hname => ?_⟩
    have hrecorded : name ∈ codeNames line.code := by
      rw [hcode, codeNames_code (List.of_mem_zip hlaid).2]
      exact List.mem_append_left _ hname
    have huses : s.facts.uses.contains name = true :=
      Journey.knows_of_walkUnit h hline hwalk hrecorded
    exact ⟨huses, fun facts hjoined => Facts.unusedMacro_notMem (hjoined.uses huses)⟩

/-- A unit of one file with the given text. -/
def singleFile (text : String) : Pass where
  tree := { nodes := .ofList [(["a.c"], .file (Text.encode text.toList))] }
  unit := ⟨⟨"a.c"⟩, "", [], ∅⟩
  configuration := {}
  settings := {}

/-- A macro is used behind a character literal of an apostrophe and a string with one. -/
def quotedApostrophes : String := "#define X 1\nchar c = '\\'', *s = \"Y'\"; int n = X;\n"

theorem namesOutside_of_quotedApostrophes :
    ∃ j line s, Journey.after (singleFile quotedApostrophes) 1 = .ok j ∧
      j.codeLine? = some line ∧ walkUnit (singleFile quotedApostrophes) = .ok s ∧
      s.facts.uses.contains "X" = true ∧
      ∀ facts, s.facts.Joined facts →
        ∀ place, Facts.unusedMacro "X" place ∉ Checker.directives.conclude facts := by
  have hmoment : (Journey.after (singleFile quotedApostrophes) 1).toOption.map (fun j =>
      (j.stack, j.codeLine?.map (·.number))) = some ([⟨"a.c"⟩], some 2) := by decide +kernel
  have hwalk : (walkUnit (singleFile quotedApostrophes)).toOption.isSome = true := by decide +kernel
  have hread : ((singleFile quotedApostrophes).read ⟨"a.c"⟩).toOption =
      some quotedApostrophes.toList := by decide +kernel
  have hnames : ((sourceLines quotedApostrophes.toList).zip (layout quotedApostrophes.toList)).all
      (fun x => x.1.number != 2 ||
        (namesOutside (x.2.parts.takeWhile (!isStray ·))).contains "X") = true := by decide +kernel
  obtain ⟨-, hrecords⟩ := namesOutside_recorded (singleFile quotedApostrophes)
  cases hj : Journey.after (singleFile quotedApostrophes) 1 with
  | error e => simp [hj, Except.toOption] at hmoment
  | ok j =>
    simp only [hj, Except.toOption, Option.map_some, Option.some.injEq, Prod.mk.injEq] at hmoment
    obtain ⟨hstack, hnumber⟩ := hmoment
    obtain ⟨line, hline, hnumber⟩ := Option.map_eq_some_iff.mp hnumber
    cases hs : walkUnit (singleFile quotedApostrophes) with
    | error e => simp [hs, Except.toOption] at hwalk
    | ok s =>
      obtain ⟨path, content, laid, hpath, hcontent, hlaid, hknown⟩ := hrecords 1 j line hj hline
      obtain rfl : path = ⟨"a.c"⟩ := by simpa [hstack, eq_comm] using hpath
      obtain rfl : content = quotedApostrophes.toList := by
        simpa [hcontent, Except.toOption] using hread
      have hX := List.all_eq_true.mp hnames _ hlaid
      simp only [hnumber, bne_self_eq_false, Bool.false_or, List.contains_iff_mem] at hX
      exact ⟨j, line, s, rfl, hline, rfl, hknown s hs "X" hX⟩

theorem unusedMacro_behind_digit_separator :
    let text := "#define X 1\nint n = 1'000 + X;\n"
    (layout text.toList).map (fun l => namesOutside l.parts) =
      [["define", "X"], ["int", "n", "X"]] ∧
    (sourceLines text.toList).map (fun l => codeNames l.code) = [["define", "X"], ["int", "n"]] ∧
    (walkUnit (singleFile text)).toOption.map (fun s => (s.facts.uses.contains "X",
      Checker.directives.conclude s.facts)) =
        some (false, [Facts.unusedMacro "X" ⟨⟨"a.c"⟩, 1, 1⟩]) := by
  decide +kernel

end MacroSweep.Walk
