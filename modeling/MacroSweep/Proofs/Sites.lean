import MacroSweep.Checker.Directives
import MacroSweep.Proofs.Agreement
import MacroSweep.Proofs.Facts

/-! The places that a pass tells of: all are in files of the unit. -/
namespace MacroSweep.Walk

open Checker Source

variable {pass : Pass} {enter : Path → State → Except Failure State} {path : Path} {p p' : Position}
  {s s' : State} {d : Directive} {location : Location}

theorem definitions_reference (s : State) (names : List String) :
    (s.reference names).facts.definitions = s.facts.definitions := by
  unfold State.reference
  generalize s.facts = facts
  induction names generalizing facts with
  | nil => rfl
  | cons name names ih => exact ih (facts.reference name)

theorem facts_decideCondition (s : State) (d : Directive) (location : Location) :
    (decideCondition s d location).2.facts = s.facts := by
  unfold decideCondition
  split <;> rfl

theorem facts_noteLimit (p : Position) (beyond : Bool) (location : Location) :
    (p.noteLimit beyond location).state.facts = p.state.facts := by
  unfold Position.noteLimit
  split <;> rfl

theorem isNormal_reference (h : s.facts.IsNormal) (names : List String) :
    (s.reference names).facts.IsNormal := by
  rw [Program.Facts.IsNormal, definitions_reference]
  exact h

theorem isNormal_actDefine (h : s.facts.IsNormal) (hlocation : location.file.IsNormal) :
    (actDefine s d location).facts.IsNormal := by
  unfold actDefine
  split
  · exact h
  · exact (isNormal_reference h _).defineAll (by simpa using hlocation)

theorem definitions_openGroup (settings : Settings) (p : Position) (d : Directive)
    (location : Location) :
    (p.openGroup settings d location).state.facts.definitions = p.state.facts.definitions := by
  simp only [Position.openGroup]
  split
  · rw [facts_decideCondition, facts_noteLimit, definitions_reference]
  · rw [facts_noteLimit, definitions_reference]

theorem definitions_nextBranch (p : Position) (d : Directive) (location : Location) :
    (p.nextBranch d location).state.facts.definitions = p.state.facts.definitions := by
  simp only [Position.nextBranch]
  split
  · exact definitions_reference _ _
  · split
    · exact definitions_reference _ _
    · split
      · simp only [facts_decideCondition, definitions_reference]
      · exact definitions_reference _ _

theorem facts_lastBranch (p : Position) (location : Location) :
    (p.lastBranch location).state.facts = p.state.facts := by
  unfold Position.lastBranch
  split
  · rfl
  · split <;> rfl

theorem facts_closeGroup (p : Position) (location : Location) :
    (p.closeGroup location).state.facts = p.state.facts := by
  unfold Position.closeGroup
  split <;> rfl

/-- A step keeps places in normal spelling, if files that are entered do. -/
theorem isNormal_step (hpath : path.IsNormal)
    (henter : ∀ target ∈ pass.unit.dependencies.map (·.path), ∀ s s', s.facts.IsNormal →
      enter target s = .ok s' → s'.facts.IsNormal)
    {item : Line × Option Directive} (hp : p.state.facts.IsNormal)
    (h : p.step pass enter path item = .ok p') : p'.state.facts.IsNormal := by
  obtain ⟨line, directive⟩ := item
  cases directive with
  | none =>
    cases h
    split
    · exact isNormal_reference hp _
    · exact hp
  | some d =>
    simp only [Position.step, Position.act] at h
    split at h
    · cases h
      rwa [Program.Facts.IsNormal, definitions_openGroup]
    · cases h
      rwa [Program.Facts.IsNormal, definitions_nextBranch]
    · cases h
      rwa [facts_lastBranch]
    · cases h
      rwa [facts_closeGroup]
    · split at h
      · split at h
        · cases h
          exact isNormal_actDefine hp hpath
        · cases h
          unfold actUndef
          split <;> exact hp
        · cases h
          exact hp
        · split at h
          · next target hfound =>
            have hmem : target ∈ pass.unit.dependencies.map (·.path) := by
              split_ifs at hfound
              exact mem_of_resolve? hfound
            cases hs : enter target p.state with
            | error e => simp [hs, bind, Except.bind] at h
            | ok s =>
              simp only [hs, bind, Except.bind, pure, Except.pure, Except.ok.injEq] at h
              subst h
              exact henter target hmem p.state s hp hs
          · cases h
            exact hp
        · cases h
          exact hp
      · cases h
        exact hp

theorem isNormal_foldlM_step (hpath : path.IsNormal)
    (henter : ∀ target ∈ pass.unit.dependencies.map (·.path), ∀ s s', s.facts.IsNormal →
      enter target s = .ok s' → s'.facts.IsNormal)
    {items : List (Line × Option Directive)} (hp : p.state.facts.IsNormal)
    (h : items.foldlM (Position.step pass enter path) p = .ok p') : p'.state.facts.IsNormal := by
  induction items generalizing p with
  | nil =>
    cases h
    exact hp
  | cons item items ih =>
    rw [List.foldlM_cons] at h
    cases hstep : p.step pass enter path item with
    | error e => simp [hstep, bind, Except.bind] at h
    | ok q => exact ih (isNormal_step hpath henter hp hstep) (by rwa [hstep] at h)

theorem facts_finish (path : Path) (p : Position) : (p.finish path).facts = p.state.facts := by
  unfold Position.finish
  generalize p.groups.reverse = groups
  generalize p.state = s
  induction groups generalizing s with
  | nil => rfl
  | cons g groups ih => exact ih _

theorem isNormal_walkFile (hfiles : ∀ file ∈ pass.unit.files, file.IsNormal) {room : Nat}
    {stack : List Path} (hpath : path ∈ pass.unit.files) (hs : s.facts.IsNormal)
    (h : walkFile pass room stack path s = .ok s') : s'.facts.IsNormal := by
  induction room generalizing stack path s s' with
  | zero =>
    cases h
    exact hs
  | succ room ih =>
    rw [walkFile] at h
    split at h
    · cases h
      exact hs
    · have henter : ∀ target ∈ pass.unit.dependencies.map (·.path), ∀ s s', s.facts.IsNormal →
          walkFile pass room (path :: stack) target s = .ok s' → s'.facts.IsNormal :=
        fun target htarget s s' hs hwalk => ih (List.mem_cons_of_mem _ htarget) hs hwalk
      cases hread : pass.read path with
      | error e => simp [hread, bind, Except.bind] at h
      | ok text =>
        simp only [hread, bind, Except.bind] at h
        split at h
        · cases h
        · next p hrun =>
          cases h
          rw [facts_finish]
          exact isNormal_foldlM_step (hfiles path hpath) henter hs hrun

end MacroSweep.Walk

namespace MacroSweep.Checker

/-- A pass over a unit whose paths are in normal spelling tells of places in normal spelling. -/
theorem isNormal_facts_of_run {pass : Pass} {analysis : Analysis}
    (hfiles : ∀ file ∈ pass.unit.files, file.IsNormal) (h : directives.run pass = .ok analysis) :
    analysis.facts.IsNormal := by
  cases hwalk : Walk.walkUnit pass with
  | error e => simp [run, directives, hwalk, bind, Except.bind] at h
  | ok s =>
    simp only [run, directives, hwalk, bind, Except.bind, pure, Except.pure] at h
    cases h
    exact Walk.isNormal_walkFile hfiles List.mem_cons_self Program.Facts.isNormal_empty hwalk

end MacroSweep.Checker
