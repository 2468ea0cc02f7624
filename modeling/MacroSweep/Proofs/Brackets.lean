import MacroSweep.Proofs.Nesting
import Mathlib.Data.List.Induction

/-! Where conditional directives fail to nest. What stands between an opening and its end is whole:
the groups in it are closed in it. A directive that divides or ends a group is misplaced if no group
is open there, or if the group is past its last branch, and an opening without an end is left
unclosed. Reading from left to right with a stack of open groups finds exactly these, and finds none
exactly in the lines of a block. -/
namespace MacroSweep.Walk

open Source

variable {item opening : Item} {items before inside : List Item}

/-- What the directive of a line does. -/
def actionOf (item : Item) : Action := item.2.elim .other fun d => Action.ofKeyword d.keyword

/-- Lines in which every group that is opened is closed, and no other is. -/
inductive Whole : List Item → Prop where
  | nil : Whole []
  | line {item : Item} {items : List Item} : actionOf item ≠ .opening → actionOf item ≠ .endif →
      Whole items → Whole (item :: items)
  | group {opening endif : Item} {body rest : List Item} : actionOf opening = .opening →
      actionOf endif = .endif → Whole body → Whole rest →
      Whole (opening :: (body ++ endif :: rest))

/-- Lines of a group that have reached its last branch. -/
def HasElse (inside : List Item) : Prop :=
  ∃ branches otherwise past, inside = branches ++ otherwise :: past ∧
    actionOf otherwise = .otherwise ∧ Whole branches ∧ Whole past

/-- A group is open after these lines. -/
def InGroup (before : List Item) : Prop :=
  ∃ outer opening inside, before = outer ++ opening :: inside ∧ actionOf opening = .opening ∧
    Whole inside

/-- The innermost group that is open after these lines is in its last branch. -/
def PastElse (before : List Item) : Prop :=
  ∃ outer opening inside, before = outer ++ opening :: inside ∧ actionOf opening = .opening ∧
    HasElse inside

/-- These lines close the group that was opened right before them. -/
def Closes (after : List Item) : Prop :=
  ∃ inside endif rest, after = inside ++ endif :: rest ∧ actionOf endif = .endif ∧ Whole inside

/-- How a directive is misplaced after the lines before it. -/
inductive Misplaced (before : List Item) : Action → NestingError → Prop where
  | elifWithoutIf : ¬InGroup before → Misplaced before .elif .elifWithoutIf
  | elifAfterElse : PastElse before → Misplaced before .elif .elifAfterElse
  | elseWithoutIf : ¬InGroup before → Misplaced before .otherwise .elseWithoutIf
  | elseAfterElse : PastElse before → Misplaced before .otherwise .elseAfterElse
  | endifWithoutIf : ¬InGroup before → Misplaced before .endif .endifWithoutIf

namespace Whole

theorem append {w : List Item} (h : Whole items) (hw : Whole w) : Whole (items ++ w) := by
  induction h with
  | nil => exact hw
  | line hopening hendif _ ih => exact .line hopening hendif ih
  | group hopening hendif hbody _ _ ih =>
    rw [List.cons_append, List.append_assoc, List.cons_append]
    exact .group hopening hendif hbody ih

end Whole

theorem HasElse.append {w : List Item} (h : HasElse inside) (hw : Whole w) :
    HasElse (inside ++ w) := by
  obtain ⟨branches, otherwise, past, rfl, haction, hbranches, hpast⟩ := h
  exact ⟨branches, otherwise, past ++ w, by simp, haction, hbranches, hpast.append hw⟩

theorem HasElse.prepend {w : List Item} (h : HasElse inside) (hw : Whole w) :
    HasElse (w ++ inside) := by
  obtain ⟨branches, otherwise, past, rfl, haction, hbranches, hpast⟩ := h
  exact ⟨w ++ branches, otherwise, past, by simp, haction, hw.append hbranches, hpast⟩

/-- A group that is open: the line that opened it, and whether its last branch was reached. -/
structure Opened where
  item : Item
  seenElse : Bool

/-- The groups that are open after a line, the innermost first. -/
def openAfter (groups : List Opened) (item : Item) : List Opened :=
  match actionOf item, groups with
  | .opening, groups => ⟨item, false⟩ :: groups
  | .otherwise, g :: outer => ⟨g.item, true⟩ :: outer
  | .endif, _ :: outer => outer
  | _, groups => groups

/-- What is wrong with a line within open groups. -/
def errorOf (groups : List Opened) (item : Item) : Option NestingError :=
  match actionOf item, groups with
  | .elif, [] => some .elifWithoutIf
  | .elif, g :: _ => if g.seenElse then some .elifAfterElse else none
  | .otherwise, [] => some .elseWithoutIf
  | .otherwise, g :: _ => if g.seenElse then some .elseAfterElse else none
  | .endif, [] => some .endifWithoutIf
  | _, _ => none

section

variable {g : Opened} {groups : List Opened}

theorem openAfter_opening (h : actionOf item = .opening) (groups : List Opened) :
    openAfter groups item = ⟨item, false⟩ :: groups := by
  rw [openAfter.eq_def, h]

theorem openAfter_otherwise (h : actionOf item = .otherwise) (g : Opened) (groups : List Opened) :
    openAfter (g :: groups) item = ⟨g.item, true⟩ :: groups := by
  rw [openAfter.eq_def, h]

theorem openAfter_endif (h : actionOf item = .endif) (groups : List Opened) :
    openAfter groups item = groups.tail := by
  rw [openAfter.eq_def, h]
  cases groups <;> rfl

/-- Other lines leave the open groups as they are. -/
theorem openAfter_other (hopening : actionOf item ≠ .opening) (hendif : actionOf item ≠ .endif)
    (hotherwise : actionOf item ≠ .otherwise) (groups : List Opened) :
    openAfter groups item = groups := by
  rw [openAfter.eq_def]
  split
  · exact absurd ‹_› hopening
  · exact absurd ‹_› hotherwise
  · exact absurd ‹_› hendif
  · rfl

/-- Whole lines leave the open groups, and the innermost may reach its last branch in them. -/
theorem Whole.exists_foldl_openAfter (h : Whole items) :
    ∃ reached : Bool, (reached = true → HasElse items) ∧ ∀ g groups,
      items.foldl openAfter (g :: groups) = ⟨g.item, g.seenElse || reached⟩ :: groups := by
  induction h with
  | nil => exact ⟨false, by simp, fun g groups => by simp⟩
  | @line item items hopening hendif hitems ih =>
    obtain ⟨reached, helse, hfold⟩ := ih
    by_cases hotherwise : actionOf item = .otherwise
    · refine ⟨true, fun _ => ⟨[], item, items, rfl, hotherwise, .nil, hitems⟩, fun g groups => ?_⟩
      rw [List.foldl_cons, openAfter_otherwise hotherwise, hfold]
      simp
    · have hline : Whole [item] := .line hopening hendif .nil
      refine ⟨reached, fun hr => (helse hr).prepend hline, fun g groups => ?_⟩
      rw [List.foldl_cons, openAfter_other hopening hendif hotherwise, hfold]
  | @group opening endif body rest hopening hendif hbody hrest ihbody ihrest =>
    obtain ⟨_, -, hinner⟩ := ihbody
    obtain ⟨reached, helse, hfold⟩ := ihrest
    refine ⟨reached, fun hr => ?_, fun g groups => ?_⟩
    · have hgroup := (helse hr).prepend (.group hopening hendif hbody .nil)
      simpa using hgroup
    · rw [List.foldl_cons, openAfter_opening hopening, List.foldl_append, hinner, List.foldl_cons,
        openAfter_endif hendif, List.tail_cons, hfold]

/-- What the open groups say of the lines read: each was opened by its line, and what follows in it
is whole, up to the next group that is open. -/
inductive Stacked : List Item → List Opened → Prop where
  | base (items : List Item) : Stacked items []
  | opened {outer inside : List Item} {opening : Item} {reached : Bool} {groups : List Opened} :
      Stacked outer groups → actionOf opening = .opening → Whole inside →
      (reached = true → HasElse inside) →
      Stacked (outer ++ opening :: inside) (⟨opening, reached⟩ :: groups)

namespace Stacked

theorem extend {w : List Item} (h : Stacked items groups) (hw : Whole w) :
    Stacked (items ++ w) groups := by
  cases h with
  | base => exact .base _
  | opened houter hopening hinside helse =>
    rw [List.append_assoc, List.cons_append]
    exact .opened houter hopening (hinside.append hw) fun hr => (helse hr).append hw

/-- One line more. -/
theorem snoc (h : Stacked items groups) (item : Item) :
    Stacked (items ++ [item]) (openAfter groups item) := by
  by_cases hopening : actionOf item = .opening
  · rw [openAfter_opening hopening]
    exact .opened h hopening .nil (by simp)
  by_cases hendif : actionOf item = .endif
  · rw [openAfter_endif hendif]
    cases h with
    | base => exact .base _
    | opened houter hopening hinside helse =>
      have hgroup := houter.extend (.group hopening hendif hinside .nil)
      simpa using hgroup
  have hline : Whole [item] := .line hopening hendif .nil
  by_cases hotherwise : actionOf item = .otherwise
  · cases h with
    | base =>
      rw [openAfter.eq_def, hotherwise]
      exact .base _
    | @opened _ inside _ _ _ houter hopened hinside helse =>
      rw [openAfter_otherwise hotherwise, List.append_assoc, List.cons_append]
      exact .opened houter hopened (hinside.append hline) fun _ =>
        ⟨inside, item, [], rfl, hotherwise, hinside, .nil⟩
  · rw [openAfter_other hopening hendif hotherwise]
    exact h.extend hline

end Stacked

theorem stacked_foldl (items : List Item) : Stacked items (items.foldl openAfter []) := by
  induction items using List.reverseRecOn with
  | nil => exact .base _
  | append_singleton items item ih =>
    rw [List.foldl_append]
    exact ih.snoc item

/-- A group is open exactly if the stack says so. -/
theorem inGroup_iff : InGroup before ↔ before.foldl openAfter [] ≠ [] := by
  constructor
  · rintro ⟨outer, opening, inside, rfl, hopening, hinside⟩
    obtain ⟨reached, -, hfold⟩ := hinside.exists_foldl_openAfter
    rw [List.foldl_append, List.foldl_cons, openAfter_opening hopening, hfold]
    exact List.cons_ne_nil _ _
  · intro hne
    have hstacked := stacked_foldl before
    generalize before.foldl openAfter [] = groups at hne hstacked
    cases hstacked with
    | base => exact absurd rfl hne
    | @opened outer inside opening _ _ _ hopening hinside _ =>
      exact ⟨outer, opening, inside, rfl, hopening, hinside⟩

theorem pastElse_iff :
    PastElse before ↔ ∃ g groups, before.foldl openAfter [] = g :: groups ∧ g.seenElse = true := by
  constructor
  · rintro ⟨outer, opening, inside, rfl, hopening, branches, otherwise, past, rfl, hotherwise,
      hbranches, hpast⟩
    obtain ⟨_, -, hfirst⟩ := hbranches.exists_foldl_openAfter
    obtain ⟨_, -, hlast⟩ := hpast.exists_foldl_openAfter
    rw [List.foldl_append, List.foldl_cons, openAfter_opening hopening, List.foldl_append, hfirst,
      List.foldl_cons, openAfter_otherwise hotherwise, hlast]
    exact ⟨_, _, rfl, rfl⟩
  · rintro ⟨g, groups, heq, hseen⟩
    have hstacked := stacked_foldl before
    rw [heq] at hstacked
    cases hstacked with
    | @opened outer inside opening _ _ _ hopening _ helse =>
      exact ⟨outer, opening, inside, rfl, hopening, helse hseen⟩

/-- The stack tells which directives are misplaced. -/
theorem errorOf_eq_some_iff {e : NestingError} :
    errorOf (before.foldl openAfter []) item = some e ↔ Misplaced before (actionOf item) e := by
  have hin : InGroup before ↔ before.foldl openAfter [] ≠ [] := inGroup_iff
  have hpast : PastElse before ↔
      ∃ g groups, before.foldl openAfter [] = g :: groups ∧ g.seenElse = true := pastElse_iff
  rw [errorOf.eq_def]
  generalize before.foldl openAfter [] = groups at hin hpast
  generalize actionOf item = action
  have hnil : ¬InGroup before → groups = [] := fun hout => not_not.mp fun hne => hout (hin.mpr hne)
  constructor
  · intro h
    split at h
    · cases h
      exact .elifWithoutIf fun hgroup => hin.mp hgroup rfl
    · split at h
      · next hseen =>
        cases h
        exact .elifAfterElse (hpast.mpr ⟨_, _, rfl, hseen⟩)
      · cases h
    · cases h
      exact .elseWithoutIf fun hgroup => hin.mp hgroup rfl
    · split at h
      · next hseen =>
        cases h
        exact .elseAfterElse (hpast.mpr ⟨_, _, rfl, hseen⟩)
      · cases h
    · cases h
      exact .endifWithoutIf fun hgroup => hin.mp hgroup rfl
    · cases h
  · intro h
    cases h with
    | elifWithoutIf hout | elseWithoutIf hout | endifWithoutIf hout =>
      rw [hnil hout]
    | elifAfterElse hseen | elseAfterElse hseen =>
      obtain ⟨g, outer, rfl, hseen⟩ := hpast.mp hseen
      exact if_pos hseen

/-- Lines that close no group opened before them: whole lines, and openings that stay open. -/
inductive Lasting : List Item → Prop where
  | whole {items : List Item} : Whole items → Lasting items
  | opening {before after : List Item} {opening : Item} : Whole before →
      actionOf opening = .opening → Lasting after → Lasting (before ++ opening :: after)

namespace Lasting

theorem prepend {w : List Item} (h : Lasting items) (hw : Whole w) : Lasting (w ++ items) := by
  cases h with
  | whole hitems => exact .whole (hw.append hitems)
  | opening hbefore hopening hafter =>
    rw [← List.append_assoc]
    exact .opening (hw.append hbefore) hopening hafter

theorem append_opening (h : Lasting before) (hopening : actionOf opening = .opening)
    (hinside : Whole inside) : Lasting (before ++ opening :: inside) := by
  induction h with
  | whole hbefore => exact .opening hbefore hopening (.whole hinside)
  | opening hbefore hfirst _ ih =>
    rw [List.append_assoc, List.cons_append]
    exact .opening hbefore hfirst ih

/-- A group that such lines follow stays open. -/
theorem exists_foldl_openAfter (h : Lasting items) (g : Opened) (groups : List Opened) :
    ∃ inner reached,
      items.foldl openAfter (g :: groups) = inner ++ ⟨g.item, reached⟩ :: groups := by
  induction h generalizing g groups with
  | whole hitems =>
    obtain ⟨_, -, hfold⟩ := hitems.exists_foldl_openAfter
    exact ⟨[], _, hfold g groups⟩
  | @opening before after opening hbefore hopening _ ih =>
    obtain ⟨passed, -, hfold⟩ := hbefore.exists_foldl_openAfter
    obtain ⟨inner, reached, hinner⟩ := ih ⟨opening, false⟩
      (⟨g.item, g.seenElse || passed⟩ :: groups)
    refine ⟨inner ++ [⟨opening, reached⟩], g.seenElse || passed, ?_⟩
    rw [List.foldl_append, hfold, List.foldl_cons, openAfter_opening hopening, hinner]
    simp

/-- Such lines do not close a group: after its end nothing would be left of it, and it stays. -/
theorem not_closes (h : Lasting items) : ¬Closes items := by
  rintro ⟨inside, endif, rest, rfl, hendif, hinside⟩
  obtain ⟨_, -, hfold⟩ := hinside.exists_foldl_openAfter
  have hgone : ∀ g, (inside ++ endif :: rest).foldl openAfter [g] = rest.foldl openAfter [] := by
    intro g
    rw [List.foldl_append, hfold, List.foldl_cons, openAfter_endif hendif]
    rfl
  have hstays : ∀ i : Item, (rest.foldl openAfter []).getLast?.map Opened.item = some i := by
    intro i
    obtain ⟨inner, reached, hinner⟩ := h.exists_foldl_openAfter ⟨i, false⟩ []
    rw [← hgone ⟨i, false⟩, hinner]
    simp
  have hfirst := hstays (⟨0, [], []⟩, none)
  rw [hstays (⟨1, [], []⟩, none)] at hfirst
  simp at hfirst

end Lasting

/-- Lines close the group before them, or they let it last. -/
theorem closes_or_lasting (items : List Item) : Closes items ∨ Lasting items := by
  match items with
  | [] => exact .inr (.whole .nil)
  | item :: items =>
    by_cases hendif : actionOf item = .endif
    · exact .inl ⟨[], item, items, rfl, hendif, .nil⟩
    by_cases hopening : actionOf item = .opening
    · obtain ⟨inside, endif, rest, rfl, hend, hinside⟩ | hlasts := closes_or_lasting items
      · have hgroup : Whole (item :: (inside ++ [endif])) := .group hopening hend hinside .nil
        obtain ⟨body, endif', rest, rfl, hend', hbody⟩ | hlasts := closes_or_lasting rest
        · exact .inl ⟨item :: (inside ++ [endif]) ++ body, endif', rest, by simp, hend',
            hgroup.append hbody⟩
        · have hlong := hlasts.prepend hgroup
          exact .inr (by simpa using hlong)
      · exact .inr (.opening .nil hopening hlasts)
    · have hline : Whole [item] := .line hopening hendif .nil
      obtain ⟨inside, endif, rest, rfl, hend, hinside⟩ | hlasts := closes_or_lasting items
      · exact .inl ⟨item :: inside, endif, rest, rfl, hend, hline.append hinside⟩
      · exact .inr (hlasts.prepend hline)
termination_by items.length
decreasing_by all_goals simp_all <;> omega

theorem Stacked.exists_of_mem (h : Stacked items groups) (hg : g ∈ groups) :
    ∃ before after, items = before ++ g.item :: after ∧ actionOf g.item = .opening ∧
      Lasting after := by
  induction h with
  | base => exact absurd hg List.not_mem_nil
  | @opened outer inside opening _ _ _ hopening hinside _ ih =>
    rcases List.mem_cons.mp hg with rfl | hg
    · exact ⟨outer, inside, rfl, hopening, .whole hinside⟩
    · obtain ⟨before, after, rfl, haction, hlasts⟩ := ih hg
      exact ⟨before, after ++ opening :: inside, by simp, haction,
        hlasts.append_opening hopening hinside⟩

/-- The groups that are open at the end are those that were opened and never closed. -/
theorem exists_mem_foldl_iff :
    (∃ reached, ⟨opening, reached⟩ ∈ items.foldl openAfter []) ↔
      ∃ before after, items = before ++ opening :: after ∧ actionOf opening = .opening ∧
        ¬Closes after := by
  constructor
  · rintro ⟨reached, hmem⟩
    obtain ⟨before, after, heq, hopening, hlasts⟩ := (stacked_foldl items).exists_of_mem hmem
    exact ⟨before, after, heq, hopening, hlasts.not_closes⟩
  · rintro ⟨before, after, rfl, hopening, hopen⟩
    have hlasts := (closes_or_lasting after).resolve_left hopen
    obtain ⟨inner, reached, hfold⟩ := hlasts.exists_foldl_openAfter ⟨opening, false⟩
      (before.foldl openAfter [])
    refine ⟨reached, ?_⟩
    rw [List.foldl_append, List.foldl_cons, openAfter_opening hopening, hfold]
    simp

/-- The misplaced lines with what is wrong with them, in order. -/
def misplacedIn (groups : List Opened) : List Item → List (Item × NestingError)
  | [] => []
  | item :: items =>
    (errorOf groups item).toList.map (item, ·) ++ misplacedIn (openAfter groups item) items

theorem misplacedIn_append (groups : List Opened) (items rest : List Item) :
    misplacedIn groups (items ++ rest) =
      misplacedIn groups items ++ misplacedIn (items.foldl openAfter groups) rest := by
  induction items generalizing groups with
  | nil => rfl
  | cons item items ih =>
    rw [List.cons_append, misplacedIn, misplacedIn, ih, List.append_assoc, List.foldl_cons]

theorem mem_misplacedIn_iff {e : NestingError} :
    (item, e) ∈ misplacedIn groups items ↔ ∃ before after, items = before ++ item :: after ∧
      errorOf (before.foldl openAfter groups) item = some e := by
  constructor
  · intro hmem
    induction items generalizing groups with
    | nil => exact absurd hmem List.not_mem_nil
    | cons first items ih =>
      rcases List.mem_append.mp hmem with hmem | hmem
      · obtain ⟨_, herror, heq⟩ := List.mem_map.mp hmem
        cases heq
        exact ⟨[], items, rfl, Option.mem_toList.mp herror⟩
      · obtain ⟨before, after, rfl, herror⟩ := ih hmem
        exact ⟨first :: before, after, rfl, herror⟩
  · rintro ⟨before, after, rfl, herror⟩
    rw [misplacedIn_append, misplacedIn, herror]
    simp

theorem misplacedIn_sublist (groups : List Opened) (items : List Item) :
    ((misplacedIn groups items).map Prod.fst).Sublist items := by
  induction items generalizing groups with
  | nil => exact .slnil
  | cons item items ih =>
    rw [misplacedIn, List.map_append]
    cases errorOf groups item with
    | none => exact (ih _).cons _
    | some e => exact (ih _).cons_cons _

theorem Stacked.sublist (h : Stacked items groups) :
    (groups.reverse.map Opened.item).Sublist items := by
  induction h with
  | base => exact List.nil_sublist _
  | opened _ _ _ _ ih =>
    rw [List.reverse_cons, List.map_append]
    exact ih.append (.cons_cons _ (List.nil_sublist _))

/-- Where the lines are all distinct, no line is reported twice. -/
theorem nodup_reported (h : items.Nodup) :
    ((misplacedIn [] items).map Prod.fst ++
      (items.foldl openAfter []).reverse.map Opened.item).Nodup := by
  refine List.nodup_append.mpr ⟨(misplacedIn_sublist [] items).nodup h,
    (stacked_foldl items).sublist.nodup h, ?_⟩
  rintro item hmisplaced other hopen rfl
  obtain ⟨⟨_, e⟩, hmem, rfl⟩ := List.mem_map.mp hmisplaced
  obtain ⟨before, after, -, herror⟩ := mem_misplacedIn_iff.mp hmem
  obtain ⟨g, hg, hitem⟩ := List.mem_map.mp hopen
  obtain ⟨-, -, -, hopening, -⟩ := (stacked_foldl items).exists_of_mem (List.mem_reverse.mp hg)
  have hkind := errorOf_eq_some_iff.mp herror
  have hsame : actionOf _ = .opening := hitem ▸ hopening
  rw [hsame] at hkind
  cases hkind

/-- Lines of which none is misplaced, with the groups that are open before and after them. -/
def Passes (groups : List Opened) (items : List Item) (groups' : List Opened) : Prop :=
  misplacedIn groups items = [] ∧ items.foldl openAfter groups = groups'

theorem passes_cons {groups' : List Opened} : Passes groups (item :: items) groups' ↔
    errorOf groups item = none ∧ Passes (openAfter groups item) items groups' := by
  rw [Passes, Passes, misplacedIn, List.foldl_cons, List.append_eq_nil_iff, List.map_eq_nil_iff,
    Option.toList_eq_nil_iff, and_assoc]

theorem Passes.append {groups' groups'' : List Opened} {rest : List Item}
    (h : Passes groups items groups') (h' : Passes groups' rest groups'') :
    Passes groups (items ++ rest) groups'' := by
  obtain ⟨hitems, rfl⟩ := h
  obtain ⟨hrest, rfl⟩ := h'
  exact ⟨by rw [misplacedIn_append, hitems, hrest, List.nil_append], List.foldl_append⟩

theorem actionOf_mark {action : Action} (m : Mark action) : actionOf m.item = action := m.kind

theorem exists_mark {action : Action} (h : actionOf item = action)
    (hconditional : action.isConditional = true) : ∃ m : Mark action, m.item = item := by
  obtain ⟨line, directive⟩ := item
  cases directive with
  | none =>
    subst h
    cases hconditional
  | some d => exact ⟨⟨line, d, h⟩, rfl⟩

theorem isConditional_plain (p : Plain) : (actionOf p.item).isConditional = false := by
  obtain ⟨line, directive, hplain⟩ := p
  cases directive with
  | none => rfl
  | some d => exact hplain d rfl

theorem exists_plain (h : (actionOf item).isConditional = false) : ∃ p : Plain, p.item = item := by
  obtain ⟨line, directive⟩ := item
  refine ⟨⟨line, directive, ?_⟩, rfl⟩
  rintro d rfl
  exact h

theorem of_not_isConditional (h : (actionOf item).isConditional = false) (groups : List Opened) :
    errorOf groups item = none ∧ openAfter groups item = groups := by
  rw [errorOf.eq_def, openAfter.eq_def]
  generalize actionOf item = action at h
  cases action with
  | opening | elif | otherwise | endif => cases h
  | define | undef | error | enter | other => exact ⟨rfl, rfl⟩

end

mutual

/-- Nothing is misplaced in a block, and it leaves the open groups as they are. -/
theorem Block.passes (b : Block) (groups : List Opened) : Passes groups b.items groups := by
  match b with
  | .done => exact ⟨rfl, rfl⟩
  | .plain line rest =>
    obtain ⟨herror, hsame⟩ := of_not_isConditional (isConditional_plain line) groups
    exact passes_cons.mpr ⟨herror, by rw [hsame]; exact rest.passes groups⟩
  | .group opening body others rest =>
    have hopening := actionOf_mark opening
    refine passes_cons.mpr ⟨by rw [errorOf.eq_def, hopening], ?_⟩
    rw [openAfter_opening hopening]
    exact (body.passes _).append ((others.passes opening.item groups).append (rest.passes groups))

/-- Nor is it in the further branches of a group, and they close it. -/
theorem Branches.passes (b : Branches) (opening : Item) (groups : List Opened) :
    Passes (⟨opening, false⟩ :: groups) b.items groups := by
  match b with
  | .close endif =>
    have hendif := actionOf_mark endif
    refine passes_cons.mpr ⟨by rw [errorOf.eq_def, hendif], ?_⟩
    rw [openAfter_endif hendif]
    exact ⟨rfl, rfl⟩
  | .elif elif body others =>
    have helif := actionOf_mark elif
    refine passes_cons.mpr ⟨by rw [errorOf.eq_def, helif]; rfl, ?_⟩
    rw [openAfter_other (by simp [helif]) (by simp [helif]) (by simp [helif])]
    exact (body.passes _).append (others.passes opening groups)
  | .otherwise otherwise body endif =>
    have hotherwise := actionOf_mark otherwise
    have hendif := actionOf_mark endif
    refine passes_cons.mpr ⟨by rw [errorOf.eq_def, hotherwise]; rfl, ?_⟩
    rw [openAfter_otherwise hotherwise]
    refine (body.passes _).append (passes_cons.mpr ⟨by rw [errorOf.eq_def, hendif], ?_⟩)
    rw [openAfter_endif hendif]
    exact ⟨rfl, rfl⟩

end

/-- What may end a group: further branches, or after the last branch its end alone. -/
inductive Ends : Bool → List Item → Prop where
  | others (b : Branches) : Ends false b.items
  | last (endif : Mark .endif) : Ends true [endif.item]

/-- Lines that complete open groups to a block: after a block of its own each of the groups ends. -/
def Completes : List Opened → List Item → Prop
  | [], items => ∃ block : Block, items = block.items
  | g :: groups, items => ∃ (block : Block) (ending rest : List Item),
      items = block.items ++ (ending ++ rest) ∧ Ends g.seenElse ending ∧ Completes groups rest

section

variable {g : Opened} {groups : List Opened}

/-- The block in front may be exchanged. -/
theorem Completes.exists_block (h : Completes groups items) :
    ∃ (block : Block) (rest : List Item), items = block.items ++ rest ∧
      ∀ block' : Block, Completes groups (block'.items ++ rest) := by
  cases groups with
  | nil =>
    obtain ⟨block, rfl⟩ := h
    exact ⟨block, [], by simp, fun block' => ⟨block', by simp⟩⟩
  | cons g groups =>
    obtain ⟨block, ending, rest, rfl, hends, hrest⟩ := h
    exact ⟨block, ending ++ rest, rfl, fun block' => ⟨block', ending, rest, rfl, hends, hrest⟩⟩

theorem Completes.plain (h : Completes groups items) (p : Plain) :
    Completes groups (p.item :: items) := by
  obtain ⟨block, rest, rfl, hblock⟩ := h.exists_block
  exact hblock (.plain p block)

theorem Completes.group (m : Mark .opening) (h : Completes (⟨m.item, false⟩ :: groups) items) :
    Completes groups (m.item :: items) := by
  obtain ⟨body, ending, rest, rfl, hends, hrest⟩ := h
  obtain ⟨block, rest, rfl, hblock⟩ := hrest.exists_block
  cases hends with
  | others others =>
    have hgroup := hblock (.group m body others block)
    simpa [Block.items] using hgroup

theorem Completes.elif (m : Mark .elif) (hg : g.seenElse = false)
    (h : Completes (g :: groups) items) : Completes (g :: groups) (m.item :: items) := by
  obtain ⟨body, ending, rest, rfl, hends, hrest⟩ := h
  rw [hg] at hends
  cases hends with
  | others others =>
    refine ⟨.done, (Branches.elif m body others).items, rest, by simp [Block.items, Branches.items],
      ?_, hrest⟩
    rw [hg]
    exact .others _

theorem Completes.otherwise (m : Mark .otherwise) (hg : g.seenElse = false)
    (h : Completes (⟨g.item, true⟩ :: groups) items) :
    Completes (g :: groups) (m.item :: items) := by
  obtain ⟨body, ending, rest, rfl, hends, hrest⟩ := h
  cases hends with
  | last endif =>
    refine ⟨.done, (Branches.otherwise m body endif).items, rest,
      by simp [Block.items, Branches.items], ?_, hrest⟩
    rw [hg]
    exact .others _

theorem Completes.endif (m : Mark .endif) (h : Completes groups items) (g : Opened) :
    Completes (g :: groups) (m.item :: items) := by
  refine ⟨.done, [m.item], items, rfl, ?_, h⟩
  cases g.seenElse with
  | true => exact .last m
  | false => exact .others (.close m)

/-- Lines of which none is misplaced complete the groups that they close. The induction is on the
lines, from the last to the first. -/
theorem Passes.completes (h : Passes groups items []) : Completes groups items := by
  induction items generalizing groups with
  | nil =>
    obtain ⟨-, rfl⟩ := h
    exact ⟨.done, rfl⟩
  | cons item items ih =>
    obtain ⟨herror, hrest⟩ := passes_cons.mp h
    have hcompletes := ih hrest
    cases haction : actionOf item with
    | opening =>
      obtain ⟨m, rfl⟩ := exists_mark haction rfl
      rw [openAfter_opening haction] at hcompletes
      exact hcompletes.group m
    | elif =>
      obtain ⟨m, rfl⟩ := exists_mark haction rfl
      rw [openAfter_other (by simp [haction]) (by simp [haction]) (by simp [haction])]
        at hcompletes
      cases groups with
      | nil => simp [errorOf, haction] at herror
      | cons g groups => exact hcompletes.elif m (by simpa [errorOf, haction] using herror)
    | otherwise =>
      obtain ⟨m, rfl⟩ := exists_mark haction rfl
      cases groups with
      | nil => simp [errorOf, haction] at herror
      | cons g groups =>
        rw [openAfter_otherwise haction] at hcompletes
        exact hcompletes.otherwise m (by simpa [errorOf, haction] using herror)
    | endif =>
      obtain ⟨m, rfl⟩ := exists_mark haction rfl
      cases groups with
      | nil => simp [errorOf, haction] at herror
      | cons g groups =>
        rw [openAfter_endif haction] at hcompletes
        exact hcompletes.endif m g
    | define | undef | error | enter | other =>
      have hplain : (actionOf item).isConditional = false := by rw [haction]; rfl
      obtain ⟨p, rfl⟩ := exists_plain hplain
      rw [(of_not_isConditional hplain groups).2] at hcompletes
      exact hcompletes.plain p

/-- No line is misplaced and no group is left open exactly in the lines of a block. -/
theorem passes_iff_exists_block :
    Passes [] items [] ↔ ∃ block : Block, block.items = items := by
  constructor
  · intro h
    obtain ⟨block, rfl⟩ := h.completes
    exact ⟨block, rfl⟩
  · rintro ⟨block, rfl⟩
    exact block.passes []

end

end MacroSweep.Walk
