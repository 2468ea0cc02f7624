import MacroSweep.Proofs.SharedStore
import Mathlib.Algebra.GroupWithZero.Nat
import Mathlib.Logic.Relation

/-! Units that are checked side by side, each by a worker of its own. What each step keeps of every
worker holds at all stages of a run, and the facts told are those of the workers that are
through. -/
namespace MacroSweep.Run

open Cache Checker

/-- How far a worker is with the first configuration it has left. -/
inductive Phase where
  | ready
  | missed
  | analyzed (result : Except Failure Analysis)

/-- A worker: its unit, the configurations it has left, what it has found, and whether it has told
its facts. -/
structure Worker where
  unit : SourceUnit
  todo : List Configuration
  phase : Phase := .ready
  outcome : Outcome
  told : Bool := false

/-- A step of a worker, which may change the tree. -/
inductive Worker.Step (plan : Plan) : FileTree → Worker → FileTree → Worker → Prop
  | hit {tree : FileTree} {w : Worker} {c : Configuration} {cs : List Configuration} {r : Record}
      (hphase : w.phase = .ready) (htodo : w.todo = c :: cs)
      (hstored : plan.stored? tree w.unit c.signature = some r) :
      Step plan tree w tree { w with
        todo := cs
        outcome := { w.outcome.add r.findings r.facts with hits := w.outcome.hits + 1 } }
  | miss {tree : FileTree} {w : Worker} {c : Configuration} {cs : List Configuration}
      (hphase : w.phase = .ready) (htodo : w.todo = c :: cs)
      (hstored : plan.stored? tree w.unit c.signature = none) :
      Step plan tree w tree { w with
        phase := .missed
        outcome := { w.outcome with misses := w.outcome.misses + 1 } }
  | analyze {tree : FileTree} {w : Worker} {c : Configuration} {cs : List Configuration}
      (hphase : w.phase = .missed) (htodo : w.todo = c :: cs) :
      Step plan tree w tree { w with phase := .analyzed (plan.analyze tree w.unit c) }
  | keep {tree : FileTree} {w : Worker} {c : Configuration} {cs : List Configuration}
      {analysis : Analysis}
      (hphase : w.phase = .analyzed (.ok analysis)) (htodo : w.todo = c :: cs) :
      Step plan tree w (plan.keep tree w.unit c.signature analysis) { w with
        todo := cs
        phase := .ready
        outcome := w.outcome.add analysis.findings analysis.facts }
  | fail {tree : FileTree} {w : Worker} {c : Configuration} {cs : List Configuration}
      {failure : Failure}
      (hphase : w.phase = .analyzed (.error failure)) (htodo : w.todo = c :: cs) :
      Step plan tree w tree { w with
        todo := cs
        phase := .ready
        outcome := w.outcome.add [failure.toFinding w.unit.path c.signature] {} }

/-- The tree, the facts told so far, and the workers in the order of their units. -/
structure Stage where
  tree : FileTree
  tally : Program.Tally
  workers : List Worker

namespace Stage

/-- A worker at the start of its unit. -/
def fresh (plan : Plan) (tree : FileTree) (unit : SourceUnit) : Worker where
  unit
  todo := plan.configurations unit
  outcome := { tree, configurations := (plan.configurations unit).length }

def start (plan : Plan) (tree : FileTree) (units : List SourceUnit) : Stage where
  tree
  tally := { expected := units.length }
  workers := units.map (fresh plan tree)

/-- Some worker takes a step, or tells its facts when it has no configuration left. -/
inductive Step (plan : Plan) : Stage → Stage → Prop
  | work {s : Stage} {before after : List Worker} {w w' : Worker} {tree : FileTree}
      (hworkers : s.workers = before ++ w :: after) (hw : Worker.Step plan s.tree w tree w') :
      Step plan s { s with tree, workers := before ++ w' :: after }
  | submit {s : Stage} {before after : List Worker} {w : Worker}
      (hworkers : s.workers = before ++ w :: after) (hphase : w.phase = .ready)
      (htodo : w.todo = []) (htold : w.told = false) :
      Step plan s { s with
        tally := s.tally.submit w.outcome.facts
        workers := before ++ { w with told := true } :: after }

/-- What the workers have found, in the order of their units. -/
def progress (s : Stage) : Progress where
  tree := s.tree
  tally := s.tally
  findings := s.workers.flatMap fun w => Finding.dedup w.outcome.findings
  configurations := (s.workers.map fun w => w.outcome.configurations).sum
  hits := (s.workers.map fun w => w.outcome.hits).sum
  misses := (s.workers.map fun w => w.outcome.misses).sum

theorem progress_tree (s : Stage) : s.progress.tree = s.tree := rfl

/-- The report at a stage, if all units have told their facts. -/
def report (plan : Plan) (s : Stage) : Except Error Report :=
  match s.tally.close with
  | .ok facts => .ok (plan.report (s.workers.map Worker.unit) s.progress facts)
  | .error cause => .error (.barrier cause)

end Stage

/-- What a run may give, by the order in which its workers take their steps. -/
inductive Plan.Gives (plan : Plan) (tree : FileTree) (files : List Path) :
    Except Error Report → Prop
  | noUnits (h : SourceUnit.loadAll tree plan.includePaths files = []) :
      Gives plan tree files (.error (.noUnits files.length))
  | report {s : Stage} (h : SourceUnit.loadAll tree plan.includePaths files ≠ [])
      (hrun : Relation.ReflTransGen (Stage.Step plan)
        (.start plan tree (SourceUnit.loadAll tree plan.includePaths files)) s)
      (htold : ∀ w ∈ s.workers, w.told = true) : Gives plan tree files (s.report plan)

variable {plan : Plan} {units : List SourceUnit} {tree tree' : FileTree} {o o' : Outcome}
  {w w' v : Worker} {s s' : Stage} {P P' : FileTree → Worker → Prop}

/-- Whether outcomes tell the same, however much of them was taken from a store. -/
structure Outcome.Agrees (o o' : Outcome) : Prop where
  findings : o.findings = o'.findings
  facts : o.facts = o'.facts
  configurations : o.configurations = o'.configurations

theorem Outcome.Agrees.add (h : o.Agrees o') (findings : List Finding) (facts : Program.Facts) :
    (o.add findings facts).Agrees (o'.add findings facts) :=
  { h with
    findings := congrArg (· ++ findings) h.findings
    facts := congrArg (Program.Facts.merge · facts) h.facts }

theorem Worker.Step.unit_eq (h : Worker.Step plan tree w tree' w') : w'.unit = w.unit := by
  cases h <;> rfl

theorem Worker.Step.told_eq (h : Worker.Step plan tree w tree' w') : w'.told = w.told := by
  cases h <;> rfl

theorem Worker.Step.todo_ne_nil (h : Worker.Step plan tree w tree' w') : w.todo ≠ [] := by
  intro hnil
  cases h <;> simp_all

/-- Whether a property of a worker and the shared tree is kept by its own steps, by those of the
workers of other units, and when it tells its facts. -/
structure Worker.Invariant (plan : Plan) (units : List SourceUnit) (P : FileTree → Worker → Prop) :
    Prop where
  step : ∀ {tree tree' : FileTree} {w w' : Worker}, w.unit ∈ units → P tree w →
    Worker.Step plan tree w tree' w' → P tree' w'
  other : ∀ {tree tree' : FileTree} {w v v' : Worker}, w.unit ∈ units → v.unit ∈ units →
    w.unit ≠ v.unit → P tree w → P tree v → Worker.Step plan tree v tree' v' → P tree' w
  told : ∀ {tree : FileTree} {w : Worker}, P tree w → P tree { w with told := true }

namespace Stage

/-- What holds at every stage: each worker has a property that all steps keep, and the facts told
are those of the workers that are through. -/
structure Sound (units : List SourceUnit) (P : FileTree → Worker → Prop) (s : Stage) : Prop where
  workers : s.workers.map Worker.unit = units
  holds : ∀ w ∈ s.workers, P s.tree w
  through : ∀ w ∈ s.workers, w.told = true → w.phase = .ready ∧ w.todo = []
  expected : s.tally.expected = units.length
  submitted : s.tally.submitted = s.workers.countP Worker.told
  facts : ∀ o, s.tally.facts.tells o = true ↔
    ∃ w ∈ s.workers, w.told = true ∧ w.outcome.facts.tells o = true
  normal : (∀ w ∈ s.workers, w.told = true → w.outcome.facts.IsNormal) → s.tally.facts.IsNormal

theorem sound_start (h : ∀ unit ∈ units, P tree (fresh plan tree unit)) :
    Sound units P (.start plan tree units) where
  workers := by simp [Stage.start, fresh, Function.comp_def]
  holds w hw := by
    obtain ⟨unit, hunit, rfl⟩ := List.mem_map.mp hw
    exact h unit hunit
  through w hw htold := by
    obtain ⟨unit, -, rfl⟩ := List.mem_map.mp hw
    cases htold
  expected := rfl
  submitted := by simp [Stage.start, fresh, Function.comp_def]
  facts o := by
    have hempty : (Stage.start plan tree units).tally.facts.tells o = false :=
      Program.Facts.tells_empty o
    rw [hempty]
    simp [Stage.start, fresh]
  normal _ := Program.Facts.isNormal_empty

section Middle

variable {before after : List Worker}

theorem mem_middle_iff : v ∈ before ++ w :: after ↔ v = w ∨ v ∈ before ++ after := by
  rw [List.perm_middle.mem_iff, List.mem_cons]

/-- What holds of all workers holds of one of them and of the others. -/
theorem forall_middle_iff {Q : Worker → Prop} :
    (∀ v ∈ before ++ w :: after, Q v) ↔ Q w ∧ ∀ v ∈ before ++ after, Q v := by
  simp only [mem_middle_iff, forall_eq_or_imp]

/-- The units of the other workers are others. -/
theorem unit_ne_of_mem (hnodup : units.Nodup)
    (h : (before ++ w :: after).map Worker.unit = units) (hv : v ∈ before ++ after) :
    v.unit ≠ w.unit := by
  subst h
  rw [List.map_append, List.map_cons, List.nodup_middle, ← List.map_append] at hnodup
  intro heq
  exact (List.nodup_cons.mp hnodup).1 (heq ▸ List.mem_map_of_mem hv)

theorem tells_middle_iff (o : Program.Observation) :
    (∃ v ∈ before ++ w :: after, v.told = true ∧ v.outcome.facts.tells o = true) ↔
      (w.told = true ∧ w.outcome.facts.tells o = true) ∨
        ∃ v ∈ before ++ after, v.told = true ∧ v.outcome.facts.tells o = true := by
  simp only [mem_middle_iff, or_and_right, exists_or, exists_eq_left]

variable (hs : s.Sound units P) (hworkers : s.workers = before ++ w :: after)

include hs hworkers

/-- A step of a worker leaves a stage sound if all workers keep the property. -/
theorem Sound.work (hw : Worker.Step plan s.tree w tree w') (hself : P tree w')
    (hothers : ∀ v ∈ before ++ after, P tree v) :
    Sound units P { s with tree, workers := before ++ w' :: after } := by
  have hmap := hs.workers
  have hthrough := hs.through
  rw [hworkers] at hmap
  rw [hworkers, forall_middle_iff] at hthrough
  -- A worker that has told its facts has no configuration left, so it takes no step.
  have hold : w.told = false := by
    rw [← Bool.not_eq_true]
    exact fun htold => hw.todo_ne_nil (hthrough.1 htold).2
  have hnew : w'.told = false := hw.told_eq.trans hold
  exact {
    workers := by simpa [hw.unit_eq] using hmap
    holds := forall_middle_iff.mpr ⟨hself, hothers⟩
    through := by
      refine forall_middle_iff.mpr ⟨fun htold => ?_, hthrough.2⟩
      rw [hnew] at htold
      cases htold
    expected := hs.expected
    submitted := by
      rw [hs.submitted, hworkers]
      simp [List.countP_append, hold, hnew]
    facts := by
      intro o
      rw [hs.facts, hworkers, tells_middle_iff, tells_middle_iff, hold, hnew]
      simp
    normal := by
      intro hnormal
      refine hs.normal ?_
      rw [hworkers]
      refine forall_middle_iff.mpr ⟨fun htold => ?_, (forall_middle_iff.mp hnormal).2⟩
      rw [hold] at htold
      cases htold }

theorem Sound.submit (hphase : w.phase = .ready) (htodo : w.todo = []) (htold : w.told = false)
    (hself : P s.tree { w with told := true }) :
    Sound units P { s with
      tally := s.tally.submit w.outcome.facts
      workers := before ++ { w with told := true } :: after } := by
  have hholds := hs.holds
  have hthrough := hs.through
  rw [hworkers, forall_middle_iff] at hholds hthrough
  exact {
    workers := by
      rw [← hs.workers, hworkers]
      simp
    holds := forall_middle_iff.mpr ⟨hself, hholds.2⟩
    through := forall_middle_iff.mpr ⟨fun _ => ⟨hphase, htodo⟩, hthrough.2⟩
    expected := hs.expected
    submitted := by
      simp [Program.Tally.submit, hs.submitted, hworkers, List.countP_append, htold]
      omega
    facts := by
      intro o
      rw [tells_middle_iff]
      simp only [Program.Tally.submit, Program.Facts.tells_merge, Bool.or_eq_true, hs.facts,
        hworkers, tells_middle_iff, htold]
      simp [or_comm]
    normal := by
      intro hnormal
      obtain ⟨hw, hrest⟩ := forall_middle_iff.mp hnormal
      refine Program.Facts.IsNormal.merge (hs.normal ?_) (hw rfl)
      rw [hworkers]
      refine forall_middle_iff.mpr ⟨fun h => ?_, hrest⟩
      rw [htold] at h
      cases h }

end Middle

theorem Sound.unit_mem (hs : s.Sound units P) (hw : w ∈ s.workers) : w.unit ∈ units := by
  rw [← hs.workers]
  exact List.mem_map_of_mem hw

theorem Sound.step (hinv : Worker.Invariant plan units P) (hnodup : units.Nodup)
    (hs : s.Sound units P) (hstep : Step plan s s') : s'.Sound units P := by
  have hunits := fun v hv => hs.unit_mem (w := v) hv
  have hholds := hs.holds
  cases hstep with
  | work hworkers hw =>
    have hmap := hs.workers
    rw [hworkers] at hmap
    rw [hworkers, forall_middle_iff] at hunits hholds
    refine hs.work hworkers hw (hinv.step hunits.1 hholds.1 hw) fun v hv => ?_
    exact hinv.other (hunits.2 v hv) hunits.1 (unit_ne_of_mem hnodup hmap hv) (hholds.2 v hv)
      hholds.1 hw
  | submit hworkers hphase htodo htold =>
    rw [hworkers, forall_middle_iff] at hholds
    exact hs.submit hworkers hphase htodo htold (hinv.told hholds.1)

/-- What all steps keep of a worker holds at every stage of a run. -/
theorem sound_of_run (hinv : Worker.Invariant plan units P) (hnodup : units.Nodup)
    (hstart : ∀ unit ∈ units, P tree (fresh plan tree unit))
    (hrun : Relation.ReflTransGen (Step plan) (.start plan tree units) s) : s.Sound units P := by
  induction hrun with
  | refl => exact sound_start hstart
  | tail _ hstep ih => exact ih.step hinv hnodup hstep

section Finished

/-- When all workers are through, there is a report. -/
theorem Sound.report_eq_ok (hs : s.Sound units P) (htold : ∀ w ∈ s.workers, w.told = true)
    (plan : Plan) : s.report plan = .ok (plan.report units s.progress s.tally.facts) := by
  have hclose : s.tally.close = .ok s.tally.facts := by
    rw [Program.Tally.close, if_pos]
    rw [hs.submitted, hs.expected, List.countP_eq_length.mpr htold, ← hs.workers, List.length_map]
  rw [report, hclose, hs.workers]

variable {f : SourceUnit → Outcome} (hs : s.Sound units P)
  (hf : ∀ w ∈ s.workers, w.outcome.Agrees (f w.unit))

include hs hf

theorem Sound.findings_eq :
    s.progress.findings = units.flatMap fun unit => Finding.dedup (f unit).findings := by
  simp only [progress, ← hs.workers, List.flatMap_map]
  exact List.flatMap_congr fun w hw => congrArg Finding.dedup (hf w hw).findings

theorem Sound.configurations_eq :
    s.progress.configurations = (units.map fun unit => (f unit).configurations).sum := by
  simp only [progress, ← hs.workers, List.map_map]
  exact congrArg List.sum (List.map_congr_left fun w hw => (hf w hw).configurations)

theorem Sound.isNormal_facts (hnormal : ∀ unit ∈ units, (f unit).facts.IsNormal) :
    s.tally.facts.IsNormal := by
  refine hs.normal fun w hw _ => ?_
  rw [(hf w hw).facts]
  exact hnormal w.unit (hs.unit_mem hw)

theorem Sound.tells_iff (htold : ∀ w ∈ s.workers, w.told = true) (o : Program.Observation) :
    s.tally.facts.tells o = true ↔ ∃ unit ∈ units, (f unit).facts.tells o = true := by
  rw [hs.facts, ← hs.workers]
  simp only [List.mem_map, exists_exists_and_eq_and]
  refine exists_congr fun w => and_congr_right fun hw => ?_
  rw [← (hf w hw).facts]
  simp [htold w hw]

/-- Stages at which the workers are through have the same facts if their workers do, unit by unit,
in normal spelling. -/
theorem Sound.facts_eq (hnormal : ∀ unit ∈ units, (f unit).facts.IsNormal)
    (htold : ∀ w ∈ s.workers, w.told = true) (hs' : s'.Sound units P')
    (hf' : ∀ w ∈ s'.workers, w.outcome.Agrees (f w.unit))
    (htold' : ∀ w ∈ s'.workers, w.told = true) : s.tally.facts = s'.tally.facts := by
  refine (hs.isNormal_facts hf hnormal).eq_of_tells (hs'.isNormal_facts hf' hnormal) fun o => ?_
  rw [Bool.eq_iff_iff, hs.tells_iff hf htold, hs'.tells_iff hf' htold']

end Finished

end Stage

end MacroSweep.Run
