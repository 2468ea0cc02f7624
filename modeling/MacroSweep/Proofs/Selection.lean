import MacroSweep.Proofs.Dispatch
import MacroSweep.Proofs.Trace

/-! What well nested groups mean: each selects at most one branch, and a line is acted on if it lies
in the selected branch of every group around it. The walk, which knows only a stack of groups, does
what the tree of groups means. -/
namespace MacroSweep.Walk

open Checker Source

open Traced

/-- Whether a group, given how many groups of its file have opened up to it, is one too many: an
exhaustive check takes any number of them. -/
def tooMany (settings : Settings) (number : Nat) : Bool :=
  settings.level ≠ .exhaustive ∧ settings.maxIfCount < number

theorem isBeyond_eq_tooMany (settings : Settings) (number : Nat) :
    Position.isBeyond settings number = tooMany settings number := by
  rw [Bool.eq_iff_iff, tooMany, decide_eq_true_iff, Position.isBeyond, Bool.and_eq_true,
    decide_eq_true_iff, bne_iff_ne, and_comm]

/-- What the walk carries along within a file, the stack of groups apart. -/
structure Passage where
  opened : Nat := 0
  limited : Bool := false
  state : State

namespace Passage

/-- The walk with the given stack of groups. -/
def within (x : Passage) (groups : List Group) : Position :=
  { groups, opened := x.opened, limited := x.limited, state := x.state }

def reference (x : Passage) (names : List String) : Passage :=
  { x with state := x.state.reference names }

/-- Counts a group; the first active one beyond the limit is reported. -/
def countGroup (settings : Settings) (x : Passage) (active : Bool) (location : Location) :
    Passage :=
  if tooMany settings (x.opened + 1) && !x.limited && active then
    ⟨x.opened + 1, true, x.state.report (Position.limitFinding location)⟩
  else ⟨x.opened + 1, x.limited, x.state⟩

/-- Looks at the condition of a branch if it counts: the condition is decided under the macros
defined at this point, and one without a value is reported. -/
def select (x : Passage) (counts : Bool) (d : Directive) (location : Location) : Bool × Passage :=
  if counts then
    ((decideCondition x.state d location).1,
      { x with state := (decideCondition x.state d location).2 })
  else (false, x)

/-- Acts on a line that is not conditional. -/
def actOn (pass : Pass) (enter : Path → State → Except Failure State) (path : Path) (s : State)
    (line : Plain) : Except Failure State :=
  let location : Location := ⟨path, line.line.number, column line.line⟩
  match line.directive with
  | none => .ok (s.reference (codeNames line.line.code))
  | some d =>
    match Action.ofKeyword d.keyword with
    | .define => .ok (actDefine s d location)
    | .undef => .ok (actUndef s d)
    | .error => .ok (actError s d location)
    | .enter =>
      match if pass.settings.level = .reduced then none
        else resolve? pass.unit.dependencies path d with
      | some target => enter target s
      | none => .ok s
    | _ => .ok s

/-- Goes through a line that is not conditional, and acts on it if it counts. -/
def visit (pass : Pass) (enter : Path → State → Except Failure State) (path : Path) (x : Passage)
    (counts : Bool) (line : Plain) : Traced Passage := do
  note (.line line.line.number counts)
  let s ← attempt (if counts then actOn pass enter path x.state line else .ok x.state)
  return { x with state := s }

end Passage

section

variable (pass : Pass) (enter : Path → State → Except Failure State) (path : Path)

/-- Where the directive of a mark stands. -/
def Mark.location {action : Action} (m : Mark action) : Location :=
  ⟨path, m.line.number, column m.line⟩

mutual

/-- What a block means within groups; `around` says of each group around it, the innermost first,
whether the block lies in the branch that the group selects. -/
def Block.meaning (around : List Bool) : Block → Passage → Traced Passage
  | .done, x => return x
  | .plain line rest, x => do
    let x ← x.visit pass enter path (around.all id) line
    rest.meaning around x
  | .group opening body others rest, x => do
    let x := (x.reference (conditionUses opening.directive)).countGroup pass.settings
      (around.all id) (opening.location path)
    let counts := around.all id && !tooMany pass.settings x.opened
    let choice := x.select counts opening.directive (opening.location path)
    note (.branch opening.line.number choice.1)
    let x ← body.meaning (choice.1 :: around) choice.2
    let x ← others.meaning around opening.line.number (counts && !choice.1) x
    rest.meaning around x

/-- What further branches of a group mean; `waiting` says whether the group counts and has selected
none of its branches so far. -/
def Branches.meaning (around : List Bool) (group : Nat) (waiting : Bool) :
    Branches → Passage → Traced Passage
  | .close _, x => return x
  | .elif elif body others, x => do
    let choice := (x.reference (conditionUses elif.directive)).select waiting elif.directive
      (elif.location path)
    note (.branch group choice.1)
    let x ← body.meaning (choice.1 :: around) choice.2
    others.meaning around group (waiting && !choice.1) x
  | .otherwise _ body _, x => do
    note (.branch group waiting)
    body.meaning (waiting :: around) x

end

variable {pass enter path} {groups : List Group} {around : List Bool} {x : Passage}

/-- Acting on a plain line leaves the groups. -/
theorem step_plain (line : Plain) (x : Passage) (groups : List Group) :
    (x.within groups).step pass enter path line.item =
      if Group.allActive groups then
        (fun s => Passage.within { x with state := s } groups) <$>
          Passage.actOn pass enter path x.state line
      else .ok (x.within groups) := by
  obtain ⟨line, directive, hplain⟩ := line
  cases directive with
  | none =>
    cases hact : Group.allActive groups <;>
      simp [Plain.item, Position.step, Position.isActive, Passage.within, Passage.actOn, hact]
  | some d =>
    have hd := hplain d rfl
    by_cases hact : Group.allActive groups = true
    · cases hk : Action.ofKeyword d.keyword with
      | opening | elif | otherwise | endif => simp [hk, Action.isConditional] at hd
      | define | undef | error | other =>
        simp [Plain.item, Position.step, Position.act, Position.isActive, Passage.within,
          Passage.actOn, hact, hk]
      | enter =>
        simp only [Plain.item, Position.step, Position.act, Position.isActive, Passage.within,
          Passage.actOn, hact, hk, if_true]
        generalize (if pass.settings.level = .reduced then none
          else resolve? pass.unit.dependencies path d) = found
        cases found <;> rfl
    · cases hk : Action.ofKeyword d.keyword <;>
        simp_all [Plain.item, Position.step, Position.act, Position.isActive, Passage.within,
          Action.isConditional]

theorem tracedStep_plain (line : Plain) (x : Passage) (h : Group.allActive groups = around.all id) :
    (x.within groups).tracedStep pass enter path line.item =
      (fun y => Passage.within y groups) <$> x.visit pass enter path (around.all id) line := by
  have hkind : (x.within groups).tracedStep pass enter path line.item = (do
      note (.line line.line.number (Group.allActive groups))
      attempt ((x.within groups).step pass enter path line.item)) := by
    obtain ⟨line, directive, hplain⟩ := line
    cases directive with
    | none => rfl
    | some d =>
      have hd := hplain d rfl
      cases hk : Action.ofKeyword d.keyword <;>
        simp_all [Position.tracedStep, Plain.item, Action.isConditional, Position.isActive,
          Passage.within]
  rw [hkind, step_plain, h, Passage.visit]
  cases around.all id with
  | false => simp [attempt_ok]
  | true => simp [attempt_map]

/-- Counting a group leaves the groups. -/
theorem noteLimit_within (settings : Settings) (x : Passage) (location : Location)
    (h : Group.allActive groups = around.all id) :
    Position.noteLimit (Passage.within { x with opened := x.opened + 1 } groups)
        (Position.isBeyond settings (x.opened + 1)) location =
      (x.countGroup settings (around.all id) location).within groups := by
  simp only [Position.noteLimit, Position.isActive, Passage.countGroup, Passage.within, h,
    isBeyond_eq_tooMany]
  split <;> rfl

theorem countGroup_opened (settings : Settings) (x : Passage) (active : Bool)
    (location : Location) : (x.countGroup settings active location).opened = x.opened + 1 := by
  rw [Passage.countGroup]
  split <;> rfl

theorem openGroup_within (m : Mark .opening) (x : Passage)
    (h : Group.allActive groups = around.all id) :
    (x.within groups).openGroup pass.settings m.directive (m.location path) =
      let y := (x.reference (conditionUses m.directive)).countGroup pass.settings (around.all id)
        (m.location path)
      let counts := around.all id && !tooMany pass.settings y.opened
      let choice := y.select counts m.directive (m.location path)
      choice.2.within (.start m.directive.keyword m.line.number counts choice.1 :: groups) := by
  have hcount : Position.noteLimit { x.within groups with
      opened := (x.within groups).opened + 1
      state := (x.within groups).state.reference (conditionUses m.directive) }
      (Position.isBeyond pass.settings ((x.within groups).opened + 1)) (m.location path) =
      ((x.reference (conditionUses m.directive)).countGroup pass.settings (around.all id)
        (m.location path)).within groups :=
    noteLimit_within pass.settings (x.reference (conditionUses m.directive)) (m.location path) h
  simp only [Position.openGroup, hcount, countGroup_opened]
  simp only [Passage.within, Position.isActive, h, Passage.reference, Passage.select,
    isBeyond_eq_tooMany]
  by_cases hcounts : (around.all id && !tooMany pass.settings (x.opened + 1)) = true
  · simp only [hcounts, if_true, Mark.location]
  · simp only [hcounts, Bool.false_eq_true, if_false, Mark.location]

theorem tracedStep_opening (m : Mark .opening) (x : Passage)
    (h : Group.allActive groups = around.all id) :
    (x.within groups).tracedStep pass enter path m.item =
      let y := (x.reference (conditionUses m.directive)).countGroup pass.settings (around.all id)
        (m.location path)
      let counts := around.all id && !tooMany pass.settings y.opened
      let choice := y.select counts m.directive (m.location path)
      (do
        note (.branch m.line.number choice.1)
        return choice.2.within
          (.start m.directive.keyword m.line.number counts choice.1 :: groups)) := by
  have hstep : (x.within groups).step pass enter path m.item =
      .ok ((x.within groups).openGroup pass.settings m.directive (m.location path)) := by
    simp [Mark.item, Position.step, Position.act, m.kind, Mark.location]
  simp only [Position.tracedStep, hstep, openGroup_within m x h]
  simp [Mark.item, m.kind, attempt_ok, branchEvent, Passage.within, Group.start]

theorem tracedStep_elif (m : Mark .elif) (x : Passage) (g : Group) (hg : g.seenElse = false) :
    (x.within (g :: groups)).tracedStep pass enter path m.item =
      let choice := (x.reference (conditionUses m.directive)).select g.awaits m.directive
        (m.location path)
      (do
        note (.branch g.line choice.1)
        return choice.2.within (g.branch choice.1 :: groups)) := by
  have hstep : (x.within (g :: groups)).step pass enter path m.item =
      let choice := (x.reference (conditionUses m.directive)).select g.awaits m.directive
        (m.location path)
      .ok (choice.2.within (g.branch choice.1 :: groups)) := by
    simp only [Mark.item, Position.step, Position.act, m.kind, Position.nextBranch, Passage.within,
      Passage.reference, Passage.select, hg, Mark.location]
    cases g.awaits <;> rfl
  simp only [Position.tracedStep, hstep]
  simp [Mark.item, m.kind, attempt_ok, branchEvent, Passage.within, Group.branch]

theorem tracedStep_otherwise (m : Mark .otherwise) (x : Passage) (g : Group)
    (hg : g.seenElse = false) :
    (x.within (g :: groups)).tracedStep pass enter path m.item = (do
      note (.branch g.line g.awaits)
      return x.within (g.otherwise :: groups)) := by
  have hstep : (x.within (g :: groups)).step pass enter path m.item =
      .ok (x.within (g.otherwise :: groups)) := by
    simp [Mark.item, Position.step, Position.act, m.kind, Position.lastBranch, Passage.within, hg]
  simp only [Position.tracedStep, hstep]
  simp [Mark.item, m.kind, attempt_ok, branchEvent, Passage.within, Group.otherwise]

theorem tracedStep_endif (m : Mark .endif) (x : Passage) (g : Group) :
    (x.within (g :: groups)).tracedStep pass enter path m.item = return x.within groups := by
  have hstep : (x.within (g :: groups)).step pass enter path m.item = .ok (x.within groups) := by
    simp [Mark.item, Position.step, Position.act, m.kind, Position.closeGroup, Passage.within]
  simp only [Position.tracedStep, hstep]
  simp [Mark.item, m.kind, attempt_ok]

/-- A branch is selected only if its condition is looked at. -/
theorem counts_of_select {counts : Bool} {d : Directive} {location : Location}
    (h : (x.select counts d location).1 = true) : counts = true := by
  cases counts with
  | false => exact h
  | true => rfl

/-- The group of a selected branch is the innermost of groups that all select theirs. -/
theorem allActive_cons {g : Group} (h : g.active = true → around.all id = true) :
    Group.allActive (g :: groups) = (g.active :: around).all id := by
  cases hg : g.active with
  | false => simp [Group.allActive, hg]
  | true => simpa [Group.allActive, hg] using h hg

mutual

/-- The walk within a block does what the block means, if the innermost group tells whether the
block lies in the selected branch of every group around it. -/
theorem Block.foldlM_tracedStep (b : Block) (groups : List Group) (around : List Bool) (x : Passage)
    (h : Group.allActive groups = around.all id) :
    b.items.foldlM (Position.tracedStep pass enter path) (x.within groups) =
      (fun y => Passage.within y groups) <$> b.meaning pass enter path around x := by
  match b with
  | .done => simp [Block.items, Block.meaning]
  | .plain line rest =>
    simp only [Block.items, Block.meaning, List.foldlM_cons, tracedStep_plain line x h,
      bind_map_left, map_bind]
    exact bind_congr fun y => rest.foldlM_tracedStep groups around y h
  | .group opening body others rest =>
    simp only [Block.items, Block.meaning, List.foldlM_cons, List.foldlM_append,
      tracedStep_opening opening x h, bind_assoc, pure_bind, map_bind]
    generalize Passage.countGroup _ _ _ _ = y
    generalize hcounts : (around.all id && _) = counts
    generalize hselect : y.select counts opening.directive (opening.location path) = choice
    have haround : counts = true → around.all id = true := by
      intro hc
      rw [← hcounts, Bool.and_eq_true] at hc
      exact hc.1
    have htaken : choice.1 = true → counts = true := by
      rw [← hselect]
      exact counts_of_select
    rw [body.foldlM_tracedStep _ (choice.1 :: around) choice.2
      (allActive_cons fun hc => haround (htaken hc))]
    simp only [bind_map_left]
    refine bind_congr fun _ => bind_congr fun y => ?_
    rw [others.foldlM_tracedStep _ groups around y rfl fun hw =>
      haround (by simp_all [Group.awaits, Group.start])]
    simp only [bind_map_left]
    exact bind_congr fun y => rest.foldlM_tracedStep groups around y h

/-- The walk through further branches does what they mean, if no last branch came yet and a group
that still waits for a branch counts. -/
theorem Branches.foldlM_tracedStep (b : Branches) (g : Group) (groups : List Group)
    (around : List Bool) (x : Passage) (hlast : g.seenElse = false)
    (hwaits : g.awaits = true → around.all id = true) :
    b.items.foldlM (Position.tracedStep pass enter path) (x.within (g :: groups)) =
      (fun y => Passage.within y groups) <$>
        b.meaning pass enter path around g.line g.awaits x := by
  match b with
  | .close endif =>
    simp [Branches.items, Branches.meaning, tracedStep_endif]
  | .elif elif body others =>
    simp only [Branches.items, Branches.meaning, List.foldlM_cons, List.foldlM_append,
      tracedStep_elif elif x g hlast, bind_assoc, pure_bind, map_bind]
    generalize hselect : (x.reference (conditionUses elif.directive)).select g.awaits elif.directive
      (elif.location path) = choice
    have htaken : choice.1 = true → around.all id = true := by
      rw [← hselect]
      exact fun hc => hwaits (counts_of_select hc)
    rw [body.foldlM_tracedStep _ (choice.1 :: around) choice.2 (allActive_cons htaken)]
    simp only [bind_map_left]
    refine bind_congr fun _ => bind_congr fun y => ?_
    have hnext : (g.branch choice.1).awaits = (g.awaits && !choice.1) := by
      simp [Group.awaits, Group.branch, Bool.and_assoc]
    rw [← hnext]
    refine others.foldlM_tracedStep _ groups around y hlast fun hw => hwaits ?_
    rw [hnext, Bool.and_eq_true] at hw
    exact hw.1
  | .otherwise otherwise body endif =>
    simp only [Branches.items, Branches.meaning, List.foldlM_cons, List.foldlM_append,
      tracedStep_otherwise otherwise x g hlast, bind_assoc, pure_bind, map_bind]
    rw [body.foldlM_tracedStep _ (g.awaits :: around) x (allActive_cons hwaits)]
    simp [tracedStep_endif]

end

theorem takesAtMost_visit (line : Plain) (counts : Bool) (group : Nat) :
    (x.visit pass enter path counts line).TakesAtMost group 0 := by
  exact (takesAtMost_note (.line line.line.number counts) group).bind fun _ =>
    (takesAtMost_attempt _).bind fun _ => takesAtMost_pure _

mutual

/-- Within a block a group takes at most as many branches as there are lines in it that open the
group. -/
theorem Block.takesAtMost_meaning (b : Block) (around : List Bool) (x : Passage) (group : Nat) :
    (b.meaning pass enter path around x).TakesAtMost group (b.openings.count group) := by
  match b with
  | .done => exact takesAtMost_pure x
  | .plain line rest =>
    rw [Block.meaning, Block.openings]
    exact ((takesAtMost_visit line _ group).bind fun y =>
      rest.takesAtMost_meaning around y group).mono (Nat.zero_add _).le
  | .group opening body others rest =>
    rw [Block.meaning, Block.openings]
    refine ((takesAtMost_note _ group).bind fun _ =>
      (body.takesAtMost_meaning _ _ group).bind fun y =>
        (others.takesAtMost_meaning around _ _ y group).bind fun z =>
          rest.takesAtMost_meaning around z group).mono ?_
    simp only [List.count_cons, List.count_append, Event.branch.injEq, beq_iff_eq]
    split_ifs <;> simp_all <;> omega

/-- Further branches of a group: the group takes none of them unless it waits. -/
theorem Branches.takesAtMost_meaning (b : Branches) (around : List Bool) (opened : Nat)
    (waiting : Bool) (x : Passage) (group : Nat) :
    (b.meaning pass enter path around opened waiting x).TakesAtMost group
      ((if opened = group ∧ waiting = true then 1 else 0) + b.openings.count group) := by
  match b with
  | .close endif => exact (takesAtMost_pure x).mono (Nat.zero_le _)
  | .elif elif body others =>
    simp only [Branches.meaning, Branches.openings]
    generalize hselect : (x.reference (conditionUses elif.directive)).select waiting elif.directive
      (elif.location path) = choice
    have htaken : choice.1 = true → waiting = true := by
      rw [← hselect]
      exact counts_of_select
    refine ((takesAtMost_note _ group).bind fun _ =>
      (body.takesAtMost_meaning _ _ group).bind fun y =>
        others.takesAtMost_meaning around opened _ y group).mono ?_
    simp only [List.count_append, Event.branch.injEq]
    split_ifs <;> simp_all
    omega
  | .otherwise otherwise body endif =>
    rw [Branches.meaning, Branches.openings]
    refine ((takesAtMost_note _ group).bind fun _ => body.takesAtMost_meaning _ x group).mono ?_
    simp only [Event.branch.injEq, le_refl]

end

end

/-- The lines acted on are lines of the file, in order. -/
theorem dispatch_map_sublist (continued : Bool) (lines : List Line) (ds : List Directive) :
    ((dispatch continued lines ds).map Prod.fst).Sublist lines := by
  induction lines generalizing continued ds with
  | nil => exact .slnil
  | cons line lines ih =>
    rw [dispatch.eq_def]
    dsimp only
    split
    · exact (ih _ _).cons _
    · split
      · split
        · exact (ih _ _).cons_cons _
        · exact (ih _ _).cons_cons _
      · exact (ih _ _).cons_cons _

/-- No two of them have the same number. -/
theorem nodup_dispatch_numbers (content : List Char) :
    ((dispatch false (sourceLines content) (directives (sourceLines content))).map
      (·.1.number)).Nodup := by
  have hlines := (dispatch_map_sublist false (sourceLines content)
    (directives (sourceLines content))).map fun l : Line => l.number
  rw [List.map_map] at hlines
  have hnumbers : ((sourceLines content).map (·.number)).Nodup := by
    rw [number_sourceLines]
    exact List.nodup_range'
  exact hlines.nodup hnumbers

/-- No two groups of a file open at the same line. -/
theorem nodup_openings {content : List Char} {block : Block}
    (h : block.items = dispatch false (sourceLines content) (directives (sourceLines content))) :
    block.openings.Nodup := by
  have hsub := block.openings_sublist
  rw [h] at hsub
  exact hsub.nodup (nodup_dispatch_numbers content)

/-- The walk through the lines of a file, traced. -/
def tracedWalk (pass : Pass) (enter : Path → State → Except Failure State) (path : Path)
    (content : List Char) (s : State) : Traced Position :=
  (dispatch false (sourceLines content) (directives (sourceLines content))).foldlM
    (Position.tracedStep pass enter path) { state := s }

section

variable {pass : Pass} {room : Nat} {stack : List Path} {path : Path} {content : List Char}

theorem walkFile_eq_result (s : State) (hread : pass.read path = .ok content)
    (hnew : stack.any path.same = false) :
    walkFile pass (room + 1) stack path s =
      Position.finish path <$>
        (tracedWalk pass (walkFile pass room (path :: stack)) path content s).result := by
  rw [tracedWalk, Traced.result, yields_foldlM_tracedStep, walkFile, hnew, hread]
  rfl

/-- A file in which conditional directives nest is walked as its groups mean: the same comes out,
the walk acts on the same lines and takes the same branches, and no group takes more than one. -/
theorem walkFile_eq_meaning {block : Block} (s : State) (hread : pass.read path = .ok content)
    (hnew : stack.any path.same = false)
    (hnested : block.items =
      dispatch false (sourceLines content) (directives (sourceLines content))) :
    let enter := walkFile pass room (path :: stack)
    let walk := tracedWalk pass enter path content s
    let meaning := block.meaning pass enter path [] { state := s }
    walkFile pass (room + 1) stack path s = Position.finish path <$> walk.result ∧
      walkFile pass (room + 1) stack path s = Passage.state <$> meaning.result ∧
      walk.events = meaning.events ∧
      ∀ group, walk.events.count (.branch group true) ≤ 1 := by
  intro enter walk meaning
  have hwalk : walk = (fun y => Passage.within y []) <$> meaning := by
    simp only [walk, tracedWalk, ← hnested]
    exact block.foldlM_tracedStep [] [] { state := s } rfl
  have hresult : walkFile pass (room + 1) stack path s = Position.finish path <$> walk.result :=
    walkFile_eq_result s hread hnew
  have hevents : walk.events = meaning.events := by
    rw [hwalk, events_map]
  refine ⟨hresult, ?_, hevents, ?_⟩
  · rw [hresult, hwalk, result_map, ← comp_map]
    rfl
  · intro group
    have hcount : meaning.TakesAtMost group (block.openings.count group) :=
      block.takesAtMost_meaning [] { state := s } group
    have hone := List.nodup_iff_count.mp (nodup_openings hnested) group
    rw [hevents]
    refine (hcount []).trans ?_
    simpa using hone

end

/-- A group whose last branch holds a group of its own. -/
def nestedGroupsText : List Char :=
  "#ifdef A\n#error a\n#else\n#ifndef A\n#error b\n#elif B\n#error c\n#endif\n#endif\n".toList

def nestedGroups : Pass where
  tree := { nodes := .ofList [(["a.c"], .file (Text.encode nestedGroupsText))] }
  unit := ⟨⟨"a.c"⟩, "", [], ∅⟩
  configuration := {}
  settings := {}

/-- The same file where one group is the limit. -/
def limitedGroups : Pass := { nestedGroups with settings := { maxIfCount := 1 } }

def nestedGroupsBlock : Block :=
  .group ⟨⟨1, "#ifdef A".toList, []⟩, ⟨1, "ifdef", ['A']⟩, rfl⟩
    (.plain ⟨⟨2, "#error a".toList, []⟩, some ⟨2, "error", ['a']⟩, by rintro _ ⟨⟩; rfl⟩ .done)
    (.otherwise ⟨⟨3, "#else".toList, []⟩, ⟨3, "else", []⟩, rfl⟩
      (.group ⟨⟨4, "#ifndef A".toList, []⟩, ⟨4, "ifndef", ['A']⟩, rfl⟩
        (.plain ⟨⟨5, "#error b".toList, []⟩, some ⟨5, "error", ['b']⟩, by rintro _ ⟨⟩; rfl⟩ .done)
        (.elif ⟨⟨6, "#elif B".toList, []⟩, ⟨6, "elif", ['B']⟩, rfl⟩
          (.plain ⟨⟨7, "#error c".toList, []⟩, some ⟨7, "error", ['c']⟩, by rintro _ ⟨⟩; rfl⟩ .done)
          (.close ⟨⟨8, "#endif".toList, []⟩, ⟨8, "endif", []⟩, rfl⟩))
        .done)
      ⟨⟨9, "#endif".toList, []⟩, ⟨9, "endif", []⟩, rfl⟩)
    .done

/-- The walk of that file acts on the error directive of the inner group's first branch only. Where
one group is the limit, the inner group takes no branch and is reported. -/
theorem walkFile_nestedGroups :
    nestedGroupsBlock.items = dispatch false (sourceLines nestedGroupsText)
        (directives (sourceLines nestedGroupsText)) ∧
      walkFile nestedGroups 1 [] ⟨"a.c"⟩ {} = Passage.state <$>
        (nestedGroupsBlock.meaning nestedGroups (walkFile nestedGroups 0 [⟨"a.c"⟩]) ⟨"a.c"⟩ []
          { state := {} }).result ∧
      (tracedWalk nestedGroups (walkFile nestedGroups 0 [⟨"a.c"⟩]) ⟨"a.c"⟩ nestedGroupsText
        {}).events = [.branch 1 false, .line 2 false, .branch 1 true, .branch 4 true, .line 5 true,
          .branch 4 false, .line 7 false] ∧
      (tracedWalk limitedGroups (walkFile limitedGroups 0 [⟨"a.c"⟩]) ⟨"a.c"⟩ nestedGroupsText
        {}).events = [.branch 1 false, .line 2 false, .branch 1 true, .branch 4 false,
          .line 5 false, .branch 4 false, .line 7 false] ∧
      (walkFile limitedGroups 1 [] ⟨"a.c"⟩ {}).toOption.map State.findings =
        some [Position.limitFinding ⟨⟨"a.c"⟩, 4, 1⟩] := by
  have hread : nestedGroups.read ⟨"a.c"⟩ = .ok nestedGroupsText := by decide +kernel
  have hlimited : limitedGroups.read ⟨"a.c"⟩ = .ok nestedGroupsText := hread
  have hnew : ([] : List Path).any (⟨"a.c"⟩ : Path).same = false := rfl
  have hnested : nestedGroupsBlock.items = dispatch false (sourceLines nestedGroupsText)
      (directives (sourceLines nestedGroupsText)) := by decide +kernel
  obtain ⟨-, hresult, hevents, -⟩ := walkFile_eq_meaning {} hread hnew hnested
  obtain ⟨-, hresult', hevents', -⟩ := walkFile_eq_meaning {} hlimited hnew hnested
  refine ⟨hnested, hresult, hevents.trans ?_, hevents'.trans ?_, ?_⟩
  · decide +kernel
  · decide +kernel
  · rw [hresult']
    decide +kernel

end MacroSweep.Walk
