import MacroSweep.Proofs.Agreement
import MacroSweep.Proofs.Nesting
import MacroSweep.Proofs.Path
import Mathlib.Data.List.Nodup
import Mathlib.Data.List.Perm.Subperm

/-! The walk of a unit one step at a time, with the files that are open at each moment. The files
that are open include one another, so they are distinct, and there are only as many as the unit
has. -/
namespace MacroSweep.Walk

open Checker Source

variable {pass : Pass} {enter : Path → State → Except Failure State} {path target : Path}
  {p : Position} {item : Item}

/-- The file that a line asks to enter. -/
def Position.target? (pass : Pass) (path : Path) (p : Position) (item : Item) : Option Path :=
  match item.2 with
  | none => none
  | some d =>
    if Action.ofKeyword d.keyword = .enter ∧ p.isActive = true ∧ pass.settings.level ≠ .reduced then
      resolve? pass.unit.dependencies path d
    else none

theorem mem_of_target? (h : p.target? pass path item = some target) :
    target ∈ pass.unit.dependencies.map (·.path) := by
  unfold Position.target? at h
  split at h
  · cases h
  · split at h
    · exact mem_of_resolve? h
    · cases h

/-- A line that asks for a file leaves all but the state to the walk of that file. -/
theorem step_of_target? (h : p.target? pass path item = some target) :
    p.step pass enter path item = (fun s => { p with state := s }) <$> enter target p.state := by
  obtain ⟨line, directive⟩ := item
  cases directive with
  | none => cases h
  | some d =>
    simp only [Position.target?] at h
    split at h
    · next hasks =>
      obtain ⟨henter, hactive, hlevel⟩ := hasks
      simp only [Position.step, Position.act, henter, hactive, if_true, hlevel, if_false, h]
      rfl
    · cases h

/-- Any other line does the same whatever the walk of other files does, and never fails. -/
theorem exists_step_of_target? (h : p.target? pass path item = none) :
    ∃ q, ∀ enter, p.step pass enter path item = .ok q := by
  obtain ⟨line, directive⟩ := item
  cases directive with
  | none => exact ⟨_, fun _ => rfl⟩
  | some d =>
    cases hkind : Action.ofKeyword d.keyword with
    | enter =>
      refine ⟨p, fun enter => ?_⟩
      simp only [Position.step, Position.act, hkind]
      split
      · next hactive =>
        have hfound : (if pass.settings.level = .reduced then none
            else resolve? pass.unit.dependencies path d) = none := by
          by_cases hlevel : pass.settings.level = .reduced
          · rw [if_pos hlevel]
          · simpa [Position.target?, hkind, hactive, hlevel] using h
        rw [hfound]
      · rfl
    | opening | elif | otherwise | endif =>
      simp only [Position.step, Position.act, hkind]
      exact ⟨_, fun _ => rfl⟩
    | define | undef | error | other =>
      simp only [Position.step, Position.act, hkind]
      cases p.isActive <;> exact ⟨_, fun _ => rfl⟩

/-- The walk of a file that is entered: its lines one after another, and then what is left open. -/
theorem walkFile_of_read {room : Nat} {stack : List Path} {content : List Char}
    (hread : pass.read path = .ok content) (hnew : stack.any path.same = false) (s : State) :
    walkFile pass (room + 1) stack path s = Position.finish path <$>
      (dispatch false (sourceLines content) (directives (sourceLines content))).foldlM
        (Position.step pass (walkFile pass room (path :: stack)) path) { state := s } := by
  rw [walkFile, hnew, hread]
  rfl

/-- A file that is being walked: the lines still to come, and where the walk stands among the groups
of the file. -/
structure Frame where
  path : Path
  items : List Item
  groups : List Group := []
  opened : Nat := 0
  limited : Bool := false

namespace Frame

/-- Where the walk stands in the file. -/
def position (frame : Frame) (s : State) : Position :=
  { groups := frame.groups, opened := frame.opened, limited := frame.limited, state := s }

/-- The file at a position, with the lines still to come. -/
def ofPosition (path : Path) (p : Position) (items : List Item) : Frame :=
  { path, items, groups := p.groups, opened := p.opened, limited := p.limited }

end Frame

/-- A moment of the walk: the files that are open, the innermost first, and the state. -/
structure Journey where
  frames : List Frame
  state : State

namespace Journey

/-- The files that are open. -/
def stack (j : Journey) : List Path := j.frames.map Frame.path

/-- Opens a file, unless it is open already or too many are. -/
def openFile (pass : Pass) (j : Journey) (path : Path) : Except Failure Journey :=
  if maxIncludes ≤ j.stack.length ∨ j.stack.any path.same then .ok j
  else do
    let lines := sourceLines (← pass.read path)
    let frame : Frame := { path, items := dispatch false lines (directives lines) }
    return { j with frames := frame :: j.frames }

/-- The file that the next step asks to enter. -/
def target? (pass : Pass) (j : Journey) : Option Path :=
  match j.frames with
  | { path, items := item :: _, groups, opened, limited } :: _ =>
    Position.target? pass path { groups, opened, limited, state := j.state } item
  | _ => none

/-- One step: a line of the innermost file, or the end of that file, which closes it. -/
def next (pass : Pass) (j : Journey) : Except Failure Journey :=
  match j.frames with
  | [] => .ok j
  | frame :: outer =>
    match frame.items with
    | [] => .ok ⟨outer, (frame.position j.state).finish frame.path⟩
    | item :: items =>
      match (frame.position j.state).target? pass frame.path item with
      | some target => openFile pass ⟨{ frame with items } :: outer, j.state⟩ target
      | none => do
        let p ← (frame.position j.state).step pass (fun _ => .ok) frame.path item
        return ⟨.ofPosition frame.path p items :: outer, p.state⟩

/-- So many steps. -/
def run (pass : Pass) : Nat → Journey → Except Failure Journey
  | 0, j => .ok j
  | n + 1, j => j.next pass >>= run pass n

/-- The walk of a unit after so many steps. -/
def after (pass : Pass) (n : Nat) : Except Failure Journey :=
  openFile pass ⟨[], { macros := initialMacros pass.configuration }⟩ pass.unit.path >>= run pass n

variable {j k : Journey} {outer : List Frame}

theorem run_add (m n : Nat) (j : Journey) : run pass (m + n) j = run pass m j >>= run pass n := by
  induction m generalizing j with
  | zero =>
    rw [Nat.zero_add]
    rfl
  | succ m ih =>
    rw [Nat.add_right_comm, run, run, bind_assoc]
    exact bind_congr ih

theorem after_add (m n : Nat) : after pass (m + n) = after pass m >>= run pass n := by
  rw [after, after, bind_assoc]
  exact bind_congr (run_add m n)

theorem run_of_no_frames (n : Nat) (s : State) : run pass n ⟨[], s⟩ = .ok ⟨[], s⟩ := by
  induction n with
  | zero => rfl
  | succ n ih => exact ih

theorem next_of_target? (h : p.target? pass path item = some target) (items : List Item)
    (outer : List Frame) :
    next pass ⟨.ofPosition path p (item :: items) :: outer, p.state⟩ =
      openFile pass ⟨.ofPosition path p items :: outer, p.state⟩ target := by
  have htarget : ((Frame.ofPosition path p (item :: items)).position p.state).target? pass path
      item = some target := h
  simp only [next, Frame.ofPosition, Frame.position] at htarget ⊢
  rw [htarget]

theorem next_of_no_target (h : p.target? pass path item = none) {q : Position}
    (hq : ∀ enter, p.step pass enter path item = .ok q) (items : List Item) (outer : List Frame) :
    next pass ⟨.ofPosition path p (item :: items) :: outer, p.state⟩ =
      .ok ⟨.ofPosition path q items :: outer, q.state⟩ := by
  have htarget : ((Frame.ofPosition path p (item :: items)).position p.state).target? pass path
      item = none := h
  have hstep : ((Frame.ofPosition path p (item :: items)).position p.state).step pass (fun _ => .ok)
      path item = .ok q := hq _
  simp only [next, Frame.ofPosition, Frame.position] at htarget hstep ⊢
  rw [htarget, hstep]
  rfl

/-- Walking the rest of a file step by step comes to what the walk of its lines comes to, and closes
the file, if that holds of the files it enters. The induction is on the lines still to come. -/
theorem exists_run_items
    (henter : ∀ frame : Frame, frame.path = path → ∀ target s, ∃ n,
      (openFile pass ⟨frame :: outer, s⟩ target >>= run pass n) =
        (⟨frame :: outer, ·⟩) <$> enter target s)
    (items : List Item) (p : Position) :
    ∃ n, run pass n ⟨.ofPosition path p items :: outer, p.state⟩ =
      (fun q => ⟨outer, Position.finish path q⟩) <$>
        items.foldlM (Position.step pass enter path) p := by
  induction items generalizing p with
  | nil => exact ⟨1, rfl⟩
  | cons item items ih =>
    rw [List.foldlM_cons]
    cases htarget : p.target? pass path item with
    | none =>
      obtain ⟨q, hq⟩ := exists_step_of_target? htarget
      obtain ⟨n, hn⟩ := ih q
      refine ⟨n + 1, ?_⟩
      rw [run, next_of_no_target htarget hq, hq]
      exact hn
    | some target =>
      obtain ⟨m, hm⟩ := henter (.ofPosition path p items) rfl target p.state
      rw [step_of_target? htarget]
      cases hs : enter target p.state with
      | error e =>
        refine ⟨m + 1, ?_⟩
        rw [run, next_of_target? htarget, hm, hs]
        rfl
      | ok s =>
        obtain ⟨n, hn⟩ := ih { p with state := s }
        refine ⟨m + 1 + n, ?_⟩
        rw [run_add, run, next_of_target? htarget, hm, hs]
        exact hn

/-- Entering a file and walking it step by step comes to what its walk comes to, and then the same
files are open as before. -/
theorem exists_run_openFile (j : Journey) (path : Path) :
    ∃ n, (j.openFile pass path >>= run pass n) = (fun s => { j with state := s }) <$>
      walkFile pass (maxIncludes - j.stack.length) j.stack path j.state := by
  generalize hroom : maxIncludes - j.stack.length = room
  induction room generalizing j path with
  | zero =>
    have hfull : maxIncludes ≤ j.stack.length := by omega
    refine ⟨0, ?_⟩
    rw [openFile, if_pos (.inl hfull)]
    rfl
  | succ room ih =>
    have hfree : ¬maxIncludes ≤ j.stack.length := by omega
    by_cases hopen : j.stack.any path.same = true
    · refine ⟨0, ?_⟩
      rw [openFile, if_pos (.inr hopen), walkFile, if_pos hopen]
      rfl
    · rw [openFile, if_neg (not_or.mpr ⟨hfree, hopen⟩)]
      cases hread : pass.read path with
      | error e =>
        refine ⟨0, ?_⟩
        rw [walkFile, if_neg hopen, hread]
        rfl
      | ok content =>
        have henter : ∀ frame : Frame, frame.path = path → ∀ target s, ∃ n,
            (openFile pass ⟨frame :: j.frames, s⟩ target >>= run pass n) =
              (⟨frame :: j.frames, ·⟩) <$> walkFile pass room (path :: j.stack) target s := by
          rintro frame rfl target s
          apply ih ⟨frame :: j.frames, s⟩ target
          simp only [stack, List.map_cons, List.length_cons] at hroom ⊢
          omega
        obtain ⟨n, hn⟩ := exists_run_items henter
          (dispatch false (sourceLines content) (directives (sourceLines content)))
          { state := j.state }
        refine ⟨n, hn.trans ?_⟩
        rw [walkFile_of_read hread (Bool.eq_false_iff.mpr hopen), ← comp_map]
        rfl

/-- A file is opened on top of those that are open, if it is none of them and there is room. -/
theorem stack_openFile (h : j.openFile pass path = .ok k) :
    k.stack = j.stack ∨ (j.stack.length < maxIncludes ∧ j.stack.any path.same = false ∧
      k.stack = path :: j.stack) := by
  unfold openFile at h
  split at h
  · cases h
    exact .inl rfl
  · next hnot =>
    obtain ⟨hroom, hnew⟩ := not_or.mp hnot
    cases hread : pass.read path with
    | error e => simp [hread, bind, Except.bind] at h
    | ok content =>
      rw [hread] at h
      cases h
      exact .inr ⟨Nat.lt_of_not_le hroom, Bool.eq_false_iff.mpr hnew, rfl⟩

/-- What a step can do to the files that are open: nothing, close the innermost, or open one. -/
theorem stack_next (h : j.next pass = .ok k) :
    k.stack = j.stack ∨ k.stack = j.stack.tail ∨ ∃ target, j.target? pass = some target ∧
      j.stack.length < maxIncludes ∧ j.stack.any target.same = false ∧
        k.stack = target :: j.stack := by
  obtain ⟨frames, s⟩ := j
  match frames with
  | [] =>
    cases h
    exact .inl rfl
  | ⟨path, [], groups, opened, limited⟩ :: outer =>
    cases h
    exact .inr (.inl rfl)
  | ⟨path, item :: items, groups, opened, limited⟩ :: outer =>
    cases htarget : Position.target? pass path ⟨groups, opened, limited, s⟩ item with
    | none =>
      obtain ⟨q, hq⟩ := exists_step_of_target? htarget
      have hnext := next_of_no_target htarget hq items outer
      obtain rfl := Except.ok.inj (h.symm.trans hnext)
      exact .inl rfl
    | some target =>
      have hnext := next_of_target? htarget items outer
      obtain hsame | ⟨hroom, hnew, hopened⟩ := stack_openFile (hnext.symm.trans h)
      · exact .inl hsame
      · exact .inr (.inr ⟨target, htarget, hroom, hnew, hopened⟩)

theorem mem_of_target? (h : j.target? pass = some target) :
    target ∈ pass.unit.dependencies.map (·.path) := by
  unfold target? at h
  split at h
  · exact Walk.mem_of_target? h
  · cases h

end Journey

/-- Files that may be open at once: distinct files of the unit, and not too many. -/
structure Sound (pass : Pass) (stack : List Path) : Prop where
  distinct : stack.Pairwise fun p q => p.same q = false
  bounded : stack.length ≤ maxIncludes
  known : ∀ p ∈ stack, p ∈ pass.unit.files

theorem sound_nil (pass : Pass) : Sound pass [] := ⟨.nil, Nat.zero_le _, by simp⟩

namespace Sound

variable {stack : List Path} {j k : Journey} {n : Nat}

theorem push (h : Sound pass stack) (hroom : stack.length < maxIncludes)
    (hnew : stack.any path.same = false) (hpath : path ∈ pass.unit.files) :
    Sound pass (path :: stack) where
  distinct := .cons (fun q hq => by simpa using List.any_eq_false.mp hnew q hq) h.distinct
  bounded := hroom
  known := List.forall_mem_cons.mpr ⟨hpath, h.known⟩

theorem tail (h : Sound pass stack) : Sound pass stack.tail where
  distinct := h.distinct.tail
  bounded := by
    have hbounded := h.bounded
    rw [List.length_tail]
    omega
  known p hp := h.known p (List.mem_of_mem_tail hp)

theorem openFile (h : Sound pass j.stack) (hpath : path ∈ pass.unit.files)
    (hopen : j.openFile pass path = .ok k) : Sound pass k.stack := by
  obtain hsame | ⟨hroom, hnew, hopened⟩ := Journey.stack_openFile hopen
  · exact hsame ▸ h
  · exact hopened ▸ h.push hroom hnew hpath

theorem next (h : Sound pass j.stack) (hnext : j.next pass = .ok k) : Sound pass k.stack := by
  obtain hsame | hclosed | ⟨target, htarget, hroom, hnew, hopened⟩ := Journey.stack_next hnext
  · exact hsame ▸ h
  · exact hclosed ▸ h.tail
  · have hmem := Journey.mem_of_target? htarget
    exact hopened ▸ h.push hroom hnew (List.mem_cons_of_mem _ hmem)

theorem run (h : Sound pass j.stack) (hrun : Journey.run pass n j = .ok k) :
    Sound pass k.stack := by
  induction n generalizing j with
  | zero =>
    cases hrun
    exact h
  | succ n ih =>
    rw [Journey.run] at hrun
    cases hnext : j.next pass with
    | error e => simp [hnext, bind, Except.bind] at hrun
    | ok i => exact ih (h.next hnext) (by rwa [hnext] at hrun)

/-- Distinct files are no more than the unit has, so among fewer files than the limit there is
always room for another. -/
theorem length_lt (h : Sound pass stack) (hfew : pass.unit.dependencies.length < maxIncludes)
    (hnew : stack.any path.same = false) (hpath : path ∈ pass.unit.files) :
    stack.length < maxIncludes := by
  have hself : ∀ p : Path, p.same p = true := fun p => Path.same_iff.mpr rfl
  have hdistinct : (path :: stack).Nodup := by
    refine List.Pairwise.imp (fun {p q} hne heq => ?_)
      (.cons (fun q hq => by simpa using List.any_eq_false.mp hnew q hq) h.distinct)
    rw [heq, hself] at hne
    cases hne
  have hsubset : path :: stack ⊆ pass.unit.files := List.cons_subset.mpr ⟨hpath, h.known⟩
  have hlength := (List.subperm_of_subset hdistinct hsubset).length_le
  simp only [List.length_cons, SourceUnit.files, List.length_map] at hlength
  omega

end Sound

theorem sound_after {n : Nat} {j : Journey} (h : Journey.after pass n = .ok j) :
    Sound pass j.stack := by
  rw [Journey.after] at h
  cases hopen : Journey.openFile pass ⟨[], { macros := initialMacros pass.configuration }⟩
      pass.unit.path with
  | error e => simp [hopen, bind, Except.bind] at h
  | ok k =>
    rw [hopen] at h
    exact Sound.run ((sound_nil pass).openFile List.mem_cons_self hopen) h

/-- The walk of a unit, seen step by step, comes to an end, however its files include one another,
and then has found what the walk finds. At every moment the files that are open are distinct files
of the unit, at most 200 of them. A file that is entered at any moment is walked in finitely many
steps to what its walk comes to, and then the same files are open as before. With fewer than 200
dependencies a file is never kept out because too many are open: if it is not open itself, there is
room for it. -/
theorem includes_of_walkUnit (pass : Pass) :
    (∃ n, ∀ m, n ≤ m → Journey.after pass m = (⟨[], ·⟩) <$> walkUnit pass) ∧
    ∀ n j, Journey.after pass n = .ok j →
      j.stack.Pairwise (fun p q => p.same q = false) ∧ j.stack.length ≤ 200 ∧
      (∀ p ∈ j.stack, p = pass.unit.path ∨ p ∈ pass.unit.dependencies.map (·.path)) ∧
      (∀ path, ∃ k, (j.openFile pass path >>= Journey.run pass k) =
        (fun s => { j with state := s }) <$>
          walkFile pass (200 - j.stack.length) j.stack path j.state) ∧
      (pass.unit.dependencies.length < 200 → ∀ target, j.target? pass = some target →
        j.stack.any target.same = false → j.stack.length < 200) := by
  constructor
  · obtain ⟨n, hn⟩ : ∃ n, Journey.after pass n = (⟨[], ·⟩) <$> walkUnit pass :=
      Journey.exists_run_openFile ⟨[], _⟩ pass.unit.path
    refine ⟨n, fun m hm => ?_⟩
    obtain ⟨k, rfl⟩ := Nat.exists_eq_add_of_le hm
    rw [Journey.after_add, hn]
    cases walkUnit pass with
    | error e => rfl
    | ok s => exact Journey.run_of_no_frames k s
  · intro n j h
    have hsound := sound_after h
    refine ⟨hsound.distinct, hsound.bounded, fun p hp => List.mem_cons.mp (hsound.known p hp),
      fun path => Journey.exists_run_openFile j path, fun hfew target htarget hnew => ?_⟩
    have hmem := Journey.mem_of_target? htarget
    exact hsound.length_lt hfew hnew (List.mem_cons_of_mem _ hmem)

/-- A unit whose header includes the unit and itself. -/
def cyclicIncludes : Pass where
  tree := { nodes := .ofList [
    (["a.c"], .file (Text.encode "#include \"b.h\"\n#error a\n".toList)),
    (["b.h"], .file (Text.encode "#include \"a.c\"\n#include \"b.h\"\n".toList))] }
  unit := ⟨⟨"a.c"⟩, "", [⟨⟨"b.h"⟩, ""⟩], ∅⟩
  configuration := {}
  settings := {}

/-- At its first step that walk asks for the header, and after it both files are open. -/
theorem includes_of_cyclicIncludes :
    (∃ j, Journey.after cyclicIncludes 0 = .ok j ∧ j.target? cyclicIncludes = some ⟨"b.h"⟩ ∧
      j.stack.any (⟨"b.h"⟩ : Path).same = false ∧ j.stack.length < 200) ∧
    ∃ j, Journey.after cyclicIncludes 1 = .ok j ∧ j.stack = [⟨"b.h"⟩, ⟨"a.c"⟩] ∧
      j.stack.Pairwise fun p q => p.same q = false := by
  have hfirst : (Journey.after cyclicIncludes 0).toOption.map (fun j =>
      (j.target? cyclicIncludes, j.stack.any (⟨"b.h"⟩ : Path).same)) =
        some (some ⟨"b.h"⟩, false) := by decide +kernel
  have hsecond : (Journey.after cyclicIncludes 1).toOption.map Journey.stack =
      some [⟨"b.h"⟩, ⟨"a.c"⟩] := by decide +kernel
  obtain ⟨-, hmoments⟩ := includes_of_walkUnit cyclicIncludes
  constructor
  · cases hj : Journey.after cyclicIncludes 0 with
    | error e => simp [hj, Except.toOption] at hfirst
    | ok j =>
      simp only [hj, Except.toOption, Option.map_some, Option.some.injEq, Prod.mk.injEq] at hfirst
      obtain ⟨-, -, -, -, hroom⟩ := hmoments 0 j hj
      exact ⟨j, rfl, hfirst.1, hfirst.2, hroom (by decide) _ hfirst.1 hfirst.2⟩
  · cases hj : Journey.after cyclicIncludes 1 with
    | error e => simp [hj, Except.toOption] at hsecond
    | ok j =>
      simp only [hj, Except.toOption, Option.map_some, Option.some.injEq] at hsecond
      exact ⟨j, rfl, hsecond, (hmoments 1 j hj).1⟩

end MacroSweep.Walk
