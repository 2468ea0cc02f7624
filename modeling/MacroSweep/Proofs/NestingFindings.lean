import MacroSweep.Proofs.Brackets
import MacroSweep.Proofs.Journey
import MacroSweep.Proofs.Selection
import Mathlib.Data.List.Forall2

/-! What the walk of a file reports about nesting: exactly the misplaced directives and the groups
left unclosed, each once. Which branches are taken does not matter, since the stack of groups moves
the same way in all of them. -/
namespace MacroSweep.Walk

open Checker Source

/-- The finding for directives that do not nest. -/
def nestingFinding (location : Location) (e : NestingError) : Finding where
  id := "syntaxError"
  severity := .error
  location
  message := e.message

/-- All that is said about directives that do not nest. -/
def nestingMessages : List String :=
  ([.elifWithoutIf, .elifAfterElse, .elseWithoutIf, .elseAfterElse, .endifWithoutIf,
    .unterminated "if", .unterminated "ifdef", .unterminated "ifndef"] : List NestingError).map
      NestingError.message

/-- Whether a finding is about nesting in a file. -/
def isNesting (path : Path) (f : Finding) : Bool :=
  f.location.file == path && f.id == "syntaxError" && nestingMessages.contains f.message

/-- The keyword of the directive of a line. -/
def keywordOf (item : Item) : String := item.2.elim "" (·.keyword)

/-- A fault in how the directives of a file nest, with the finding that tells of it: at the
misplaced directive, or at the opening of a group that is not closed. -/
inductive NestingFault (path : Path) (items : List Item) : Finding → Prop where
  | misplaced {before after : List Item} {item : Item} {e : NestingError} :
      items = before ++ item :: after → Misplaced before (actionOf item) e →
      NestingFault path items (nestingFinding ⟨path, item.1.number, column item.1⟩ e)
  | unclosed {before after : List Item} {opening : Item} :
      items = before ++ opening :: after → actionOf opening = .opening → ¬Closes after →
      NestingFault path items
        (nestingFinding ⟨path, opening.1.number, 1⟩ (.unterminated (keywordOf opening)))

/-- The findings about nesting, in the order in which they are made. -/
def nestingFindings (path : Path) (items : List Item) : List Finding :=
  (misplacedIn [] items).map (fun m =>
    nestingFinding ⟨path, m.1.1.number, column m.1.1⟩ m.2) ++
  (items.foldl openAfter []).reverse.map (fun g =>
    nestingFinding ⟨path, g.item.1.number, 1⟩ (.unterminated (keywordOf g.item)))

section

variable {path : Path} {items : List Item} {item : Item} {f : Finding}

theorem mem_nestingFindings_iff : f ∈ nestingFindings path items ↔ NestingFault path items f := by
  rw [nestingFindings, List.mem_append]
  constructor
  · rintro (hf | hf)
    · obtain ⟨⟨item, e⟩, hmem, rfl⟩ := List.mem_map.mp hf
      obtain ⟨before, after, heq, herror⟩ := mem_misplacedIn_iff.mp hmem
      exact .misplaced heq (errorOf_eq_some_iff.mp herror)
    · obtain ⟨g, hmem, rfl⟩ := List.mem_map.mp hf
      obtain ⟨before, after, heq, hopening, hopen⟩ :=
        exists_mem_foldl_iff.mp ⟨g.seenElse, List.mem_reverse.mp hmem⟩
      exact .unclosed heq hopening hopen
  · intro h
    cases h with
    | misplaced heq herror =>
      refine .inl (List.mem_map.mpr ⟨(_, _), ?_, rfl⟩)
      exact mem_misplacedIn_iff.mpr ⟨_, _, heq, errorOf_eq_some_iff.mpr herror⟩
    | unclosed heq hopening hopen =>
      obtain ⟨reached, hmem⟩ := exists_mem_foldl_iff.mpr ⟨_, _, heq, hopening, hopen⟩
      exact .inr (List.mem_map.mpr ⟨_, List.mem_reverse.mpr hmem, rfl⟩)

theorem nestingFindings_eq_nil_iff :
    nestingFindings path items = [] ↔ ∃ block : Block, block.items = items := by
  rw [← passes_iff_exists_block, Passes, nestingFindings, List.append_eq_nil_iff,
    List.map_eq_nil_iff, List.map_eq_nil_iff, List.reverse_eq_nil_iff]

/-- Lines with different numbers are reported at different lines. -/
theorem nodup_nestingFindings (h : (items.map (·.1.number)).Nodup) :
    ((nestingFindings path items).map (·.location.line)).Nodup := by
  have hreported := nodup_reported (List.Nodup.of_map _ h)
  have hlines : (nestingFindings path items).map (·.location.line) =
      ((misplacedIn [] items).map Prod.fst ++
        (items.foldl openAfter []).reverse.map Opened.item).map (·.1.number) := by
    simp [nestingFindings, nestingFinding, Function.comp_def]
  have hsubset : ∀ x ∈ (misplacedIn [] items).map Prod.fst ++
      (items.foldl openAfter []).reverse.map Opened.item, x ∈ items := by
    intro x hx
    rcases List.mem_append.mp hx with hx | hx
    · exact (misplacedIn_sublist [] items).subset hx
    · exact (stacked_foldl items).sublist.subset hx
  rw [hlines]
  refine List.Nodup.map_on (fun x hx y hy heq => ?_) hreported
  exact List.inj_on_of_nodup_map h (hsubset x hx) (hsubset y hy) heq

theorem keyword_of_opening (h : actionOf item = .opening) :
    keywordOf item ∈ ["if", "ifdef", "ifndef"] := by
  obtain ⟨line, directive⟩ := item
  cases directive with
  | none => cases h
  | some d =>
    change Action.ofKeyword d.keyword = .opening at h
    change d.keyword ∈ _
    unfold Action.ofKeyword at h
    split at h <;> simp_all

end

/-- From one state to another only findings are added, none of them in a file of the stack, and
those about nesting in the file itself are the given ones. -/
def Adds (path : Path) (stack : List Path) (s t : State) (faults : List Finding) : Prop :=
  ∃ added, t.findings = s.findings ++ added ∧
    (∀ f ∈ added, stack.any f.location.file.same = false) ∧ added.filter (isNesting path) = faults

section

variable {path outer : Path} {stack : List Path} {s t u : State} {faults more : List Finding}
  {location : Location}

theorem adds_of_findings_eq (h : t.findings = s.findings) : Adds path stack s t [] :=
  ⟨[], by simp [h], by simp, rfl⟩

theorem Adds.trans (h : Adds path stack s t faults) (h' : Adds path stack t u more) :
    Adds path stack s u (faults ++ more) := by
  obtain ⟨added, heq, hout, rfl⟩ := h
  obtain ⟨added', heq', hout', rfl⟩ := h'
  refine ⟨added ++ added', by rw [heq', heq, List.append_assoc], ?_, List.filter_append ..⟩
  intro f hf
  rcases List.mem_append.mp hf with hf | hf
  · exact hout f hf
  · exact hout' f hf

/-- What is added for a file within others counts for none of those. -/
theorem Adds.within (h : Adds path (outer :: stack) s t faults) : Adds outer stack s t [] := by
  obtain ⟨added, heq, hout, -⟩ := h
  have hapart : ∀ f ∈ added, f.location.file ≠ outer ∧ stack.any f.location.file.same = false := by
    intro f hf
    have hf := hout f hf
    rw [List.any_cons, Bool.or_eq_false_iff] at hf
    refine ⟨fun hfile => ?_, hf.2⟩
    rw [hfile, Path.same_iff.mpr rfl] at hf
    cases hf.1
  refine ⟨added, heq, fun f hf => (hapart f hf).2, List.filter_eq_nil_iff.mpr fun f hf => ?_⟩
  simp [isNesting, (hapart f hf).1]

/-- A finding in the file itself. -/
theorem adds_report {f : Finding} (hnew : stack.any path.same = false) (hf : f.location.file = path)
    (s : State) : Adds path stack s (s.report f) ([f].filter (isNesting path)) := by
  refine ⟨[f], rfl, fun g hg => ?_, rfl⟩
  rw [List.mem_singleton.mp hg, hf]
  exact hnew

theorem adds_of_not_isNesting {f : Finding} (hnew : stack.any path.same = false)
    (hf : f.location.file = path) (hother : isNesting path f = false) (s : State) :
    Adds path stack s (s.report f) [] := by
  have h := adds_report hnew hf s
  rwa [List.filter_cons_of_neg (by simp [hother])] at h

theorem adds_nestingFinding {e : NestingError} (hnew : stack.any path.same = false)
    (hfile : location.file = path) (he : e.message ∈ nestingMessages) (s : State) :
    Adds path stack s (s.syntaxError location e.message) [nestingFinding location e] := by
  have hnesting : isNesting path (nestingFinding location e) = true := by
    simp [isNesting, nestingFinding, hfile, he]
  have h := adds_report (f := nestingFinding location e) hnew hfile s
  rwa [List.filter_cons_of_pos hnesting] at h

/-- A syntax error with another message is not about nesting. -/
theorem adds_syntaxError {message : String} (hnew : stack.any path.same = false)
    (hfile : location.file = path) (hmessage : message ∉ nestingMessages) (s : State) :
    Adds path stack s (s.syntaxError location message) [] :=
  adds_of_not_isNesting hnew hfile (by simp [isNesting, hmessage]) s

/-- Some letters tell other messages from those about nesting. -/
theorem letters_of_mem_nestingMessages : ∀ m ∈ nestingMessages,
    m.toList.head? ≠ some 'f' ∧ m.toList[1]? ≠ some 'd' ∧ m.toList[13]? ≠ some 'p' := by
  decide

theorem adds_decideCondition (hnew : stack.any path.same = false) (hfile : location.file = path)
    (s : State) (d : Directive) : Adds path stack s (decideCondition s d location).2 [] := by
  unfold decideCondition
  split
  · exact adds_of_findings_eq rfl
  · refine adds_syntaxError hnew hfile (fun hmem => (letters_of_mem_nestingMessages _ hmem).1 ?_) s
    simp [toString]

theorem adds_actDefine (hnew : stack.any path.same = false) (hfile : location.file = path)
    (s : State) (d : Directive) : Adds path stack s (actDefine s d location) [] := by
  unfold actDefine
  split
  · next e _ =>
    refine adds_syntaxError hnew hfile (fun hmem => ?_) s
    obtain ⟨-, hname, hparameters⟩ := letters_of_mem_nestingMessages _ hmem
    cases e with
    | noName => exact hname (by decide)
    | openParameters name =>
      apply hparameters
      have happend : (DefinitionError.openParameters name).message =
          "unterminated parameter list of " ++ name := rfl
      rw [happend, String.toList_append, List.getElem?_append_left (by decide)]
      decide
  · exact adds_of_findings_eq rfl

theorem adds_actUndef (s : State) (d : Directive) : Adds path stack s (actUndef s d) [] := by
  unfold actUndef
  split <;> exact adds_of_findings_eq rfl

theorem adds_actError (hnew : stack.any path.same = false) (hfile : location.file = path)
    (s : State) (d : Directive) : Adds path stack s (actError s d location) [] :=
  adds_of_not_isNesting hnew hfile (by simp [isNesting]) s

theorem adds_noteLimit (hnew : stack.any path.same = false) (p : Position) (beyond : Bool)
    (location : Location) (hfile : location.file = path) :
    Adds path stack p.state (p.noteLimit beyond location).state [] ∧
      (p.noteLimit beyond location).groups = p.groups := by
  unfold Position.noteLimit
  split
  · exact ⟨adds_of_not_isNesting hnew hfile (by simp [isNesting, Position.limitFinding]) p.state,
      rfl⟩
  · exact ⟨adds_of_findings_eq rfl, rfl⟩

end

/-- A group of the walk and what nesting sees of it. -/
def Shows (g : Group) (o : Opened) : Prop :=
  g.keyword = keywordOf o.item ∧ g.line = o.item.1.number ∧ g.seenElse = o.seenElse

section

variable {pass : Pass} {enter : Path → State → Except Failure State} {path : Path}
  {stack : List Path} {p q : Position} {groups : List Opened} {line : Line} {d : Directive}
  {item : Item} {items : List Item}

/-- What a line does to the groups of the walk and to what it reports about nesting. -/
def Moves (path : Path) (stack : List Path) (groups : List Opened) (item : Item)
    (p q : Position) : Prop :=
  List.Forall₂ Shows q.groups (openAfter groups item) ∧
    Adds path stack p.state q.state ((errorOf groups item).toList.map
      (nestingFinding ⟨path, item.1.number, column item.1⟩))

theorem moves_openGroup (hnew : stack.any path.same = false)
    (hgroups : List.Forall₂ Shows p.groups groups) (settings : Settings)
    (haction : Action.ofKeyword d.keyword = .opening) :
    Moves path stack groups (line, some d) p
      (p.openGroup settings d ⟨path, line.number, column line⟩) := by
  have hopening : actionOf (line, some d) = .opening := haction
  have hlimit := adds_noteLimit hnew
    { p with opened := p.opened + 1, state := p.state.reference (conditionUses d) }
    (Position.isBeyond settings (p.opened + 1)) ⟨path, line.number, column line⟩ rfl
  rw [Moves, openAfter_opening hopening, errorOf.eq_def, hopening]
  simp only [Position.openGroup]
  generalize Position.noteLimit _ _ _ = q at hlimit ⊢
  obtain ⟨hlimit, hsame⟩ := hlimit
  rw [hsame]
  refine ⟨.cons ⟨rfl, rfl, rfl⟩ hgroups, ?_⟩
  have hreference : Adds path stack p.state (p.state.reference (conditionUses d)) [] :=
    adds_of_findings_eq rfl
  -- the condition is decided only in a group that is reached, but the group opens either way
  split
  · exact (hreference.trans hlimit).trans (adds_decideCondition hnew rfl q.state d)
  · exact hreference.trans hlimit

theorem moves_nextBranch (hnew : stack.any path.same = false)
    (hgroups : List.Forall₂ Shows p.groups groups)
    (haction : Action.ofKeyword d.keyword = .elif) :
    Moves path stack groups (line, some d) p
      (p.nextBranch d ⟨path, line.number, column line⟩) := by
  have helif : actionOf (line, some d) = .elif := haction
  have hreference : Adds path stack p.state (p.state.reference (conditionUses d)) [] :=
    adds_of_findings_eq rfl
  rw [Moves, openAfter_other (by simp [helif]) (by simp [helif]) (by simp [helif]), errorOf.eq_def,
    helif]
  obtain ⟨groups', opened, limited, state⟩ := p
  simp only [Position.nextBranch]
  cases hgroups with
  | nil =>
    exact ⟨.nil, hreference.trans (adds_nestingFinding hnew rfl (by decide) _)⟩
  | @cons g o _ _ hshows hgroups =>
    simp only [hshows.2.2]
    cases hseen : o.seenElse with
    | true =>
      exact ⟨.cons hshows hgroups, hreference.trans (adds_nestingFinding hnew rfl (by decide) _)⟩
    | false =>
      refine ⟨.cons hshows hgroups, ?_⟩
      simp only [Bool.false_eq_true, if_false]
      split
      · exact hreference.trans (adds_decideCondition hnew rfl _ d)
      · exact hreference

theorem moves_lastBranch (hnew : stack.any path.same = false)
    (hgroups : List.Forall₂ Shows p.groups groups)
    (haction : Action.ofKeyword d.keyword = .otherwise) :
    Moves path stack groups (line, some d) p
      (p.lastBranch ⟨path, line.number, column line⟩) := by
  have hotherwise : actionOf (line, some d) = .otherwise := haction
  rw [Moves, errorOf.eq_def, hotherwise]
  obtain ⟨groups', opened, limited, state⟩ := p
  simp only [Position.lastBranch]
  cases hgroups with
  | nil =>
    rw [openAfter.eq_def, hotherwise]
    exact ⟨.nil, adds_nestingFinding hnew rfl (by decide) _⟩
  | @cons g o _ _ hshows hgroups =>
    obtain ⟨hkeyword, hline, hlast⟩ := hshows
    rw [openAfter_otherwise hotherwise]
    simp only [hlast]
    cases hseen : o.seenElse with
    | true =>
      exact ⟨.cons ⟨hkeyword, hline, hlast.trans hseen⟩ hgroups,
        adds_nestingFinding hnew rfl (by decide) _⟩
    | false => exact ⟨.cons ⟨hkeyword, hline, rfl⟩ hgroups, adds_of_findings_eq rfl⟩

theorem moves_closeGroup (hnew : stack.any path.same = false)
    (hgroups : List.Forall₂ Shows p.groups groups)
    (haction : Action.ofKeyword d.keyword = .endif) :
    Moves path stack groups (line, some d) p
      (p.closeGroup ⟨path, line.number, column line⟩) := by
  have hendif : actionOf (line, some d) = .endif := haction
  rw [Moves, openAfter_endif hendif, errorOf.eq_def, hendif]
  obtain ⟨groups', opened, limited, state⟩ := p
  simp only [Position.closeGroup]
  cases hgroups with
  | nil => exact ⟨.nil, adds_nestingFinding hnew rfl (by decide) _⟩
  | cons hshows hgroups => exact ⟨hgroups, adds_of_findings_eq rfl⟩

theorem moves_of_unconditional (h : (actionOf item).isConditional = false)
    (hgroups : List.Forall₂ Shows p.groups groups) (hsame : q.groups = p.groups)
    (hadds : Adds path stack p.state q.state []) : Moves path stack groups item p q := by
  obtain ⟨herror, hopen⟩ := of_not_isConditional h groups
  rw [Moves, herror, hopen, hsame]
  exact ⟨hgroups, hadds⟩

/-- Where a branch is not taken, only conditional lines do anything. -/
theorem step_of_inactive (hplain : (actionOf item).isConditional = false)
    (hactive : p.isActive = false) : p.step pass enter path item = .ok p := by
  obtain ⟨line, directive⟩ := item
  cases directive with
  | none => simp [Position.step, hactive]
  | some d =>
    cases haction : Action.ofKeyword d.keyword with
    | opening | elif | otherwise | endif =>
      simp [actionOf, haction, Action.isConditional] at hplain
    | define | undef | error | enter | other =>
      simp [Position.step, Position.act, haction, hactive]

/-- A line that is not conditional reports nothing about nesting in the file, if the files that are
entered do not. -/
theorem adds_step_of_unconditional (hnew : stack.any path.same = false)
    (henter : ∀ target s t, enter target s = .ok t → Adds path stack s t [])
    (hplain : (actionOf item).isConditional = false) (h : p.step pass enter path item = .ok q) :
    q.groups = p.groups ∧ Adds path stack p.state q.state [] := by
  cases hactive : p.isActive with
  | false =>
    rw [step_of_inactive hplain hactive] at h
    cases h
    exact ⟨rfl, adds_of_findings_eq rfl⟩
  | true =>
    obtain ⟨line, directive⟩ := item
    cases directive with
    | none =>
      simp only [Position.step, hactive, if_true] at h
      cases h
      exact ⟨rfl, adds_of_findings_eq rfl⟩
    | some d =>
      simp only [Position.step, Position.act, hactive, if_true] at h
      cases haction : Action.ofKeyword d.keyword with
      | opening | elif | otherwise | endif =>
        simp [actionOf, haction, Action.isConditional] at hplain
      | define =>
        simp only [haction] at h
        cases h
        exact ⟨rfl, adds_actDefine hnew rfl p.state d⟩
      | undef =>
        simp only [haction] at h
        cases h
        exact ⟨rfl, adds_actUndef p.state d⟩
      | error =>
        simp only [haction] at h
        cases h
        exact ⟨rfl, adds_actError hnew rfl p.state d⟩
      | other =>
        simp only [haction] at h
        cases h
        exact ⟨rfl, adds_of_findings_eq rfl⟩
      | enter =>
        simp only [haction] at h
        split at h
        · next target _ =>
          cases hs : enter target p.state with
          | error e => simp [hs, bind, Except.bind] at h
          | ok s =>
            rw [hs] at h
            cases h
            exact ⟨rfl, henter target p.state s hs⟩
        · cases h
          exact ⟨rfl, adds_of_findings_eq rfl⟩

/-- What a step does to nesting, whatever is active and whatever conditions come to. -/
theorem moves_step (hnew : stack.any path.same = false)
    (henter : ∀ target s t, enter target s = .ok t → Adds path stack s t [])
    (hgroups : List.Forall₂ Shows p.groups groups) (h : p.step pass enter path item = .ok q) :
    Moves path stack groups item p q := by
  by_cases hplain : (actionOf item).isConditional = false
  · obtain ⟨hsame, hadds⟩ := adds_step_of_unconditional hnew henter hplain h
    exact moves_of_unconditional hplain hgroups hsame hadds
  · obtain ⟨line, directive⟩ := item
    cases directive with
    | none => exact absurd rfl hplain
    | some d =>
      cases haction : Action.ofKeyword d.keyword with
      | opening =>
        simp only [Position.step, Position.act, haction] at h
        cases h
        exact moves_openGroup hnew hgroups pass.settings haction
      | elif =>
        simp only [Position.step, Position.act, haction] at h
        cases h
        exact moves_nextBranch hnew hgroups haction
      | otherwise =>
        simp only [Position.step, Position.act, haction] at h
        cases h
        exact moves_lastBranch hnew hgroups haction
      | endif =>
        simp only [Position.step, Position.act, haction] at h
        cases h
        exact moves_closeGroup hnew hgroups haction
      | define | undef | error | enter | other =>
        exact absurd (by simp [actionOf, haction, Action.isConditional]) hplain

/-- What the lines of a file do to nesting. -/
theorem adds_foldlM_step (hnew : stack.any path.same = false)
    (henter : ∀ target s t, enter target s = .ok t → Adds path stack s t [])
    (hgroups : List.Forall₂ Shows p.groups groups)
    (h : items.foldlM (Position.step pass enter path) p = .ok q) :
    List.Forall₂ Shows q.groups (items.foldl openAfter groups) ∧
      Adds path stack p.state q.state ((misplacedIn groups items).map fun m =>
        nestingFinding ⟨path, m.1.1.number, column m.1.1⟩ m.2) := by
  induction items generalizing p groups with
  | nil =>
    cases h
    exact ⟨hgroups, adds_of_findings_eq rfl⟩
  | cons item items ih =>
    rw [List.foldlM_cons] at h
    cases hstep : p.step pass enter path item with
    | error e => simp [hstep, bind, Except.bind] at h
    | ok r =>
      obtain ⟨hmoved, hadds⟩ := moves_step hnew henter hgroups hstep
      obtain ⟨hend, hrest⟩ := ih hmoved (by rwa [hstep] at h)
      refine ⟨hend, ?_⟩
      rw [misplacedIn, List.map_append, List.map_map]
      exact hadds.trans hrest

theorem findings_finish (path : Path) (p : Position) :
    (p.finish path).findings = p.state.findings ++ p.groups.reverse.map fun g =>
      nestingFinding ⟨path, g.line, 1⟩ (.unterminated g.keyword) := by
  unfold Position.finish
  generalize p.groups.reverse = groups
  generalize p.state = s
  induction groups generalizing s with
  | nil => simp
  | cons g groups ih =>
    rw [List.foldl_cons, ih]
    simp [State.syntaxError, State.report, nestingFinding]

/-- At its end a file reports the groups that are still open. -/
theorem adds_finish (hnew : stack.any path.same = false)
    (hgroups : List.Forall₂ Shows p.groups groups)
    (hopenings : ∀ g ∈ groups, actionOf g.item = .opening) :
    Adds path stack p.state (p.finish path) (groups.reverse.map fun g =>
      nestingFinding ⟨path, g.item.1.number, 1⟩ (.unterminated (keywordOf g.item))) := by
  have hsame : (p.groups.map fun g => nestingFinding ⟨path, g.line, 1⟩ (.unterminated g.keyword)) =
      groups.map fun g =>
        nestingFinding ⟨path, g.item.1.number, 1⟩ (.unterminated (keywordOf g.item)) := by
    rw [← List.forall₂_eq_eq_eq, List.forall₂_map_left_iff, List.forall₂_map_right_iff]
    refine hgroups.imp fun g o hshows => ?_
    rw [hshows.1, hshows.2.1]
  refine ⟨_, by rw [findings_finish, List.map_reverse, hsame, ← List.map_reverse], ?_, ?_⟩
  · intro f hf
    obtain ⟨g, -, rfl⟩ := List.mem_map.mp hf
    exact hnew
  · refine List.filter_eq_self.mpr fun f hf => ?_
    obtain ⟨g, hg, rfl⟩ := List.mem_map.mp hf
    have hkeyword := keyword_of_opening (hopenings g (List.mem_reverse.mp hg))
    have hmessage : (NestingError.unterminated (keywordOf g.item)).message ∈ nestingMessages := by
      simp only [List.mem_cons, List.not_mem_nil, or_false] at hkeyword
      rcases hkeyword with h | h | h <;> rw [h] <;> decide
    simp [isNesting, nestingFinding, hmessage]

end

section

variable {pass : Pass} {enter : Path → State → Except Failure State} {path : Path}
  {stack : List Path} {s t : State} {content : List Char} {room : Nat} {e : Failure}

/-- What the walk of a file adds, if the files that are entered add nothing about its nesting. -/
theorem adds_walkFile_of_enter
    (henter : ∀ target s t, walkFile pass room (path :: stack) target s = .ok t →
      Adds path stack s t [])
    (hread : pass.read path = .ok content) (hnew : stack.any path.same = false)
    (h : walkFile pass (room + 1) stack path s = .ok t) :
    Adds path stack s t (nestingFindings path
      (dispatch false (sourceLines content) (directives (sourceLines content)))) := by
  rw [walkFile_of_read hread hnew] at h
  generalize dispatch false (sourceLines content) (directives (sourceLines content)) = items at h ⊢
  cases hitems : items.foldlM (Position.step pass (walkFile pass room (path :: stack)) path)
      { state := s } with
  | error e => simp [hitems] at h
  | ok q =>
    rw [hitems] at h
    cases h
    obtain ⟨hgroups, hadds⟩ := adds_foldlM_step hnew henter .nil hitems
    refine hadds.trans (adds_finish hnew hgroups fun g hg => ?_)
    obtain ⟨_, _, -, hopening, -⟩ := (stacked_foldl items).exists_of_mem hg
    exact hopening

/-- A file that is entered adds nothing about the nesting of the file that enters it. The induction
is on the room for open files. -/
theorem adds_of_enter (path target : Path)
    (h : walkFile pass room (path :: stack) target s = .ok t) : Adds path stack s t [] := by
  induction room generalizing path stack target s t with
  | zero =>
    cases h
    exact adds_of_findings_eq rfl
  | succ room ih =>
    by_cases hopen : (path :: stack).any target.same = true
    · rw [walkFile, if_pos hopen] at h
      cases h
      exact adds_of_findings_eq rfl
    · have hnew := Bool.eq_false_iff.mpr hopen
      cases hread : pass.read target with
      | error e =>
        rw [walkFile, if_neg hopen, hread] at h
        cases h
      | ok content =>
        -- the file is none of the open ones, so all it reports is outside them
        exact (adds_walkFile_of_enter (fun inner s t => ih target inner) hread hnew h).within

/-- The lines of a file can fail only where they enter another. -/
theorem exists_enter_of_foldlM_step {items : List Item} {p : Position}
    (h : items.foldlM (Position.step pass enter path) p = .error e) :
    ∃ target ∈ pass.unit.dependencies.map (·.path), ∃ s, enter target s = .error e := by
  induction items generalizing p with
  | nil => cases h
  | cons item items ih =>
    rw [List.foldlM_cons] at h
    cases htarget : p.target? pass path item with
    | none =>
      obtain ⟨q, hq⟩ := exists_step_of_target? htarget
      exact ih (by rwa [hq] at h)
    | some target =>
      rw [step_of_target? htarget] at h
      cases hs : enter target p.state with
      | error e' =>
        rw [hs] at h
        cases h
        exact ⟨target, mem_of_target? htarget, p.state, hs⟩
      | ok s => exact ih (by rwa [hs] at h)

/-- The walk of a file fails only because that file or a dependency cannot be read. -/
theorem read_of_walkFile_error (h : walkFile pass room stack path s = .error e) :
    ∃ unread ∈ path :: pass.unit.dependencies.map (·.path), pass.read unread = .error e := by
  induction room generalizing stack path s with
  | zero => cases h
  | succ room ih =>
    by_cases hopen : stack.any path.same = true
    · rw [walkFile, if_pos hopen] at h
      cases h
    · cases hread : pass.read path with
      | error e' =>
        rw [walkFile, if_neg hopen, hread] at h
        cases h
        exact ⟨path, List.mem_cons_self, hread⟩
      | ok content =>
        rw [walkFile_of_read hread (Bool.eq_false_iff.mpr hopen)] at h
        cases hitems : (dispatch false (sourceLines content)
            (directives (sourceLines content))).foldlM
              (Position.step pass (walkFile pass room (path :: stack)) path) { state := s } with
        | ok q => simp [hitems] at h
        | error e' =>
          rw [hitems] at h
          cases h
          obtain ⟨target, hmem, s', henter⟩ := exists_enter_of_foldlM_step hitems
          obtain ⟨unread, hunread, hfail⟩ := ih henter
          refine ⟨unread, List.mem_cons_of_mem _ ?_, hfail⟩
          rcases List.mem_cons.mp hunread with rfl | hunread
          · exact hmem
          · exact hunread

/-- The walk of a file that can be read, and is not open yet, fails only because a dependency cannot
be read. Otherwise what it reports about nesting in the file are the faults in how the lines nest
that it acts on, all at different lines, whatever the settings, the macros and the files it enters.
It reports none exactly if these are the lines of a block. -/
theorem walkFile_reports_nesting (s : State) (room : Nat) (hread : pass.read path = .ok content)
    (hnew : stack.any path.same = false) :
    let items := dispatch false (sourceLines content) (directives (sourceLines content))
    (∃ d ∈ pass.unit.dependencies, ∃ e, pass.read d.path = .error e ∧
      walkFile pass (room + 1) stack path s = .error e) ∨
    ∃ t added, walkFile pass (room + 1) stack path s = .ok t ∧ t.findings = s.findings ++ added ∧
      (∀ f, f ∈ added.filter (isNesting path) ↔ NestingFault path items f) ∧
      ((added.filter (isNesting path)).map (·.location.line)).Nodup ∧
      (added.filter (isNesting path) = [] ↔ ∃ block : Block, block.items = items) := by
  intro items
  cases hwalk : walkFile pass (room + 1) stack path s with
  | error e =>
    obtain ⟨unread, hmem, hfail⟩ := read_of_walkFile_error hwalk
    rcases List.mem_cons.mp hmem with rfl | hmem
    · rw [hread] at hfail
      cases hfail
    · obtain ⟨d, hd, rfl⟩ := List.mem_map.mp hmem
      exact .inl ⟨d, hd, e, hfail, rfl⟩
  | ok t =>
    obtain ⟨added, hadded, -, hfound⟩ :=
      adds_walkFile_of_enter (fun target _ _ => adds_of_enter path target) hread hnew hwalk
    refine .inr ⟨t, added, rfl, hadded, ?_⟩
    rw [hfound]
    exact ⟨fun f => mem_nestingFindings_iff, nodup_nestingFindings (nodup_dispatch_numbers content),
      nestingFindings_eq_nil_iff⟩

end

/-- Lines that do not nest, in branches that are taken and in branches that are not. -/
def strayBranchesText : List Char :=
  ("#endif\n#ifdef A\n#ifdef B\n#elif 1\n#else\n#else\n#endif\n#else\n#elif 1\n" ++
    "#ifndef B\n").toList

def strayBranches : Pass where
  tree := { nodes := .ofList [(["a.c"], .file (Text.encode strayBranchesText))] }
  unit := ⟨⟨"a.c"⟩, "", [], ∅⟩
  configuration := {}
  settings := {}

/-- Three directives of these lines are misplaced, and two groups are left open. -/
theorem walkFile_strayBranches :
    strayBranches.read ⟨"a.c"⟩ = .ok strayBranchesText ∧
    ([] : List Path).any (⟨"a.c"⟩ : Path).same = false ∧
    ∃ t added, walkFile strayBranches 1 [] ⟨"a.c"⟩ {} = .ok t ∧ t.findings = added ∧
      added = [nestingFinding ⟨⟨"a.c"⟩, 1, 1⟩ .endifWithoutIf,
        nestingFinding ⟨⟨"a.c"⟩, 6, 1⟩ .elseAfterElse,
        nestingFinding ⟨⟨"a.c"⟩, 9, 1⟩ .elifAfterElse,
        nestingFinding ⟨⟨"a.c"⟩, 2, 1⟩ (.unterminated "ifdef"),
        nestingFinding ⟨⟨"a.c"⟩, 10, 1⟩ (.unterminated "ifndef")] ∧
      (∀ f ∈ added, NestingFault ⟨"a.c"⟩ (dispatch false (sourceLines strayBranchesText)
        (directives (sourceLines strayBranchesText))) f) ∧
      ¬∃ block : Block, block.items = dispatch false (sourceLines strayBranchesText)
        (directives (sourceLines strayBranchesText)) := by
  have hread : strayBranches.read ⟨"a.c"⟩ = .ok strayBranchesText := by decide +kernel
  have hnew : ([] : List Path).any (⟨"a.c"⟩ : Path).same = false := rfl
  have hfindings : (walkFile strayBranches 1 [] ⟨"a.c"⟩ {}).toOption.map State.findings =
      some [nestingFinding ⟨⟨"a.c"⟩, 1, 1⟩ .endifWithoutIf,
        nestingFinding ⟨⟨"a.c"⟩, 6, 1⟩ .elseAfterElse,
        nestingFinding ⟨⟨"a.c"⟩, 9, 1⟩ .elifAfterElse,
        nestingFinding ⟨⟨"a.c"⟩, 2, 1⟩ (.unterminated "ifdef"),
        nestingFinding ⟨⟨"a.c"⟩, 10, 1⟩ (.unterminated "ifndef")] := by decide +kernel
  obtain ⟨d, hd, -⟩ | ⟨t, added, hwalk, hadded, hfaults, -, hblock⟩ :=
    walkFile_reports_nesting {} 0 hread hnew
  · exact absurd hd List.not_mem_nil
  · rw [hwalk, Except.toOption, Option.map_some, Option.some.injEq, hadded] at hfindings
    obtain rfl : added = _ := hfindings
    rw [List.filter_eq_self.mpr (by decide)] at hfaults hblock
    exact ⟨hread, hnew, t, _, hwalk, hadded, rfl, fun f => (hfaults f).mp,
      fun h => absurd (hblock.mpr h) (List.cons_ne_nil _ _)⟩

end MacroSweep.Walk
