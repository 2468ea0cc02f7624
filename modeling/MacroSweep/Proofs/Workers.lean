import MacroSweep.Proofs.Stages

/-! Workers that share a tree. Whatever order they take their steps in, each gives what it would
give alone, and the report is the same. -/
namespace MacroSweep.Run

open Cache Checker

variable {plan : Plan} {units : List SourceUnit} {start tree tree' : FileTree} {unit : SourceUnit}
  {c : Configuration} {o o' : Outcome} {w w' v : Worker} {r : Record} {analysis : Analysis}
  {failure : Failure} {s s' : Stage}

/-- Outcomes that are equal but for the tree. -/
structure Outcome.SameAs (o o' : Outcome) : Prop extends o.Agrees o' where
  hits : o.hits = o'.hits
  misses : o.misses = o'.misses

theorem Outcome.SameAs.add (h : o.SameAs o') (findings : List Finding) (facts : Program.Facts) :
    (o.add findings facts).SameAs (o'.add findings facts) :=
  { h.toAgrees.add findings facts with
    hits := h.hits
    misses := h.misses }

namespace Plan

theorem checkConfiguration_of_stored (h : plan.stored? o.tree unit c.signature = some r) :
    plan.checkConfiguration unit o c =
      { o.add r.findings r.facts with hits := o.hits + 1 } := by
  simp only [checkConfiguration, h]

theorem checkConfiguration_of_ok (h : plan.stored? o.tree unit c.signature = none)
    (hrun : plan.analyze o.tree unit c = .ok analysis) :
    plan.checkConfiguration unit o c =
      { o.add analysis.findings analysis.facts with
        misses := o.misses + 1
        tree := plan.keep o.tree unit c.signature analysis } := by
  simp only [checkConfiguration, h, hrun, outcome_save_eq]
  rfl

theorem checkConfiguration_of_error (h : plan.stored? o.tree unit c.signature = none)
    (hrun : plan.analyze o.tree unit c = .error failure) :
    plan.checkConfiguration unit o c =
      { o.add [failure.toFinding unit.path c.signature] {} with misses := o.misses + 1 } := by
  simp only [checkConfiguration, h, hrun]
  rfl

/-- What a worker that is alone has after some configurations of its unit. -/
def solo (plan : Plan) (start : FileTree) (unit : SourceUnit) (done : List Configuration) :
    Outcome :=
  done.foldl (plan.checkConfiguration unit)
    { tree := start, configurations := (plan.configurations unit).length }

/-- What a worker that is alone has in the end. -/
def alone (plan : Plan) (start : FileTree) (unit : SourceUnit) : Outcome :=
  plan.solo start unit (plan.configurations unit)

theorem solo_concat (start : FileTree) (unit : SourceUnit) (done : List Configuration)
    (c : Configuration) :
    plan.solo start unit (done ++ [c]) =
      plan.checkConfiguration unit (plan.solo start unit done) c := by
  simp [solo]

end Plan

/-- What a worker has found, as far as it is, is what it would have found alone. -/
def Worker.Matches (plan : Plan) (w : Worker) (o : Outcome) : Prop :=
  match w.phase with
  | .ready => w.outcome.SameAs o
  | .missed => ∃ c cs, w.todo = c :: cs ∧ plan.stored? o.tree w.unit c.signature = none ∧
      w.outcome.SameAs { o with misses := o.misses + 1 }
  | .analyzed result => ∃ c cs, w.todo = c :: cs ∧
      plan.stored? o.tree w.unit c.signature = none ∧ result = plan.analyze o.tree w.unit c ∧
      w.outcome.SameAs { o with misses := o.misses + 1 }

/-- A worker that shares a tree has what it would have alone, and finds the same records. -/
structure Worker.Tracks (plan : Plan) (units : List SourceUnit) (start tree : FileTree)
    (w : Worker) (done : List Configuration) : Prop where
  configurations : plan.configurations w.unit = done ++ w.todo
  steady : Steady plan units start (plan.solo start w.unit done).tree
  stored : ∀ d ∈ plan.configurations w.unit, plan.stored? tree w.unit d.signature =
    plan.stored? (plan.solo start w.unit done).tree w.unit d.signature
  normal : (plan.solo start w.unit done).facts.IsNormal
  found : w.Matches plan (plan.solo start w.unit done)

/-- A worker that is done with a configuration as it would be alone. -/
theorem Worker.Tracks.concat {done cs : List Configuration}
    (ht : w.Tracks plan units start tree done) (htodo : w.todo = c :: cs) {next : Outcome}
    (hnext : plan.checkConfiguration w.unit (plan.solo start w.unit done) c = next)
    (hsteady : Steady plan units start next.tree)
    (hstored : ∀ d ∈ plan.configurations w.unit,
      plan.stored? tree' w.unit d.signature = plan.stored? next.tree w.unit d.signature)
    (hnormal : next.facts.IsNormal) (hsame : o.SameAs next) :
    Worker.Tracks plan units start tree' { w with todo := cs, phase := .ready, outcome := o }
      (done ++ [c]) := by
  subst hnext
  rw [← Plan.solo_concat] at hsteady hstored hnormal hsame
  exact ⟨by simp [ht.configurations, htodo], hsteady, hstored, hnormal, hsame⟩

/-- A step of a worker keeps it to what it would do alone. -/
theorem Worker.Tracks.step (h : plan.Sharable start units) (hs : Steady plan units start tree)
    (hunit : w.unit ∈ units) {done : List Configuration} (ht : w.Tracks plan units start tree done)
    (hw : Worker.Step plan tree w tree' w') :
    Steady plan units start tree' ∧ ∃ done', w'.Tracks plan units start tree' done' := by
  have hfound := ht.found
  have hanalyze := h.analyze_eq hunit hs ht.steady
  cases hw with
  | @hit c cs r hphase htodo hstored =>
    have hmem : c ∈ plan.configurations w.unit := by simp [ht.configurations, htodo]
    have hsolo := (ht.stored c hmem).symm.trans hstored
    have hnormal := ht.normal.merge (ht.steady.normal w.unit hunit c hmem r hsolo)
    simp only [Matches, hphase] at hfound
    have hsame : Outcome.SameAs
        { w.outcome.add r.findings r.facts with hits := w.outcome.hits + 1 }
        { (plan.solo start w.unit done).add r.findings r.facts with
          hits := (plan.solo start w.unit done).hits + 1 } :=
      { hfound.add r.findings r.facts with hits := congrArg (· + 1) hfound.hits }
    have htracks := ht.concat htodo (Plan.checkConfiguration_of_stored hsolo) ht.steady ht.stored
      hnormal hsame
    rw [← hphase] at htracks
    exact ⟨hs, _, htracks⟩
  | @miss c cs hphase htodo hstored =>
    have hmem : c ∈ plan.configurations w.unit := by simp [ht.configurations, htodo]
    refine ⟨hs, done, ht.configurations, ht.steady, ht.stored, ht.normal, c, cs, htodo, ?_, ?_⟩
    · exact (ht.stored c hmem).symm.trans hstored
    · simp only [Matches, hphase] at hfound
      exact { hfound with misses := congrArg (· + 1) hfound.misses }
  | @analyze c cs hphase htodo =>
    simp only [Matches, hphase] at hfound
    obtain ⟨c', cs', htodo', hmiss, hsame⟩ := hfound
    obtain ⟨rfl, rfl⟩ := List.cons.inj (htodo.symm.trans htodo')
    exact ⟨hs, done, ht.configurations, ht.steady, ht.stored, ht.normal, c, cs, htodo, hmiss,
      hanalyze c, hsame⟩
  | @keep c cs analysis hphase htodo =>
    simp only [Matches, hphase] at hfound
    obtain ⟨c', cs', htodo', hmiss, hrun, hsame⟩ := hfound
    obtain ⟨rfl, rfl⟩ := List.cons.inj (htodo.symm.trans htodo')
    have hmem : c ∈ plan.configurations w.unit := by simp [ht.configurations, htodo]
    have hnormal := h.isNormal_of_analyze hunit hrun.symm
    -- The shared tree and that of the worker alone get the same record.
    exact ⟨hs.keep hunit h hmem hnormal, _, ht.concat htodo
      (Plan.checkConfiguration_of_ok hmiss hrun.symm) (ht.steady.keep hunit h hmem hnormal)
      (stored?_keep_congr hs hunit ht.steady ht.stored) (ht.normal.merge hnormal)
      { hsame.add analysis.findings analysis.facts with }⟩
  | @fail c cs failure hphase htodo =>
    simp only [Matches, hphase] at hfound
    obtain ⟨c', cs', htodo', hmiss, hrun, hsame⟩ := hfound
    obtain ⟨rfl, rfl⟩ := List.cons.inj (htodo.symm.trans htodo')
    exact ⟨hs, _, ht.concat htodo (Plan.checkConfiguration_of_error hmiss hrun.symm) ht.steady
      ht.stored (ht.normal.merge Program.Facts.isNormal_empty)
      { hsame.add [failure.toFinding w.unit.path c.signature] {} with }⟩

/-- A step of another worker does not show. -/
theorem Worker.Tracks.of_ne (h : plan.Sharable start units) (hs : Steady plan units start tree)
    (hunit : v.unit ∈ units) (hother : w.unit ∈ units) (hne : w.unit ≠ v.unit)
    {done done' : List Configuration} (ht : w.Tracks plan units start tree done)
    (hv : v.Tracks plan units start tree done') {v' : Worker}
    (hstep : Worker.Step plan tree v tree' v') : w.Tracks plan units start tree' done := by
  cases hstep with
  | @keep c cs analysis hphase htodo =>
    have hmem : c ∈ plan.configurations v.unit := by simp [hv.configurations, htodo]
    refine { ht with stored := fun d hd => ?_ }
    rw [stored?_keep_of_ne hs hunit h hmem hother hne hd]
    exact ht.stored d hd
  | _ => exact ht

/-- Whether a worker that shares a tree has what it would have alone. -/
def Worker.OnTrack (plan : Plan) (units : List SourceUnit) (start tree : FileTree) (w : Worker) :
    Prop :=
  Steady plan units start tree ∧ ∃ done, w.Tracks plan units start tree done

/-- No step of any worker leads off the track. -/
theorem Plan.Sharable.invariant (h : plan.Sharable start units) :
    Worker.Invariant plan units (Worker.OnTrack plan units start) where
  step hunit := by
    rintro ⟨hs, done, ht⟩ hw
    exact ht.step h hs hunit hw
  other hother hunit hne := by
    rintro ⟨hs, done, ht⟩ ⟨-, done', hv⟩ hw
    exact ⟨(hv.step h hs hunit hw).1, done, ht.of_ne h hs hunit hother hne hv hw⟩
  told := by
    rintro tree w ⟨hs, done, ht⟩
    exact ⟨hs, done, { ht with }⟩

namespace Stage

/-- At every stage each worker has what it would have alone. -/
theorem onTrack_of_run (h : plan.Sharable start units) (hnodup : units.Nodup)
    (hrun : Relation.ReflTransGen (Step plan) (.start plan start units) s) :
    s.Sound units (Worker.OnTrack plan units start) :=
  sound_of_run h.invariant hnodup (fun _ _ => ⟨h.steady, [], rfl, h.steady, fun _ _ => rfl,
    Program.Facts.isNormal_empty, ⟨rfl, rfl, rfl⟩, rfl, rfl⟩) hrun

section Finished

variable (hs : s.Sound units (Worker.OnTrack plan units start))

include hs

theorem Sound.read_eq {file : Path} (hunit : unit ∈ units) (hfile : file ∈ unit.files) :
    s.tree.read file = start.read file := by
  have hmem := hunit
  rw [← hs.workers] at hmem
  obtain ⟨w, hw, rfl⟩ := List.mem_map.mp hmem
  exact (hs.holds w hw).1.reads w.unit hunit file hfile

variable (htold : ∀ w ∈ s.workers, w.told = true)

include htold

/-- A worker that is through has what it would have alone. -/
theorem Sound.sameAs_alone (hw : w ∈ s.workers) :
    w.outcome.SameAs (plan.alone start w.unit) ∧ (plan.alone start w.unit).facts.IsNormal := by
  obtain ⟨-, done, ht⟩ := hs.holds w hw
  obtain ⟨hphase, htodo⟩ := hs.through w hw (htold w hw)
  have hdone : plan.configurations w.unit = done := by simp [ht.configurations, htodo]
  have hfound := ht.found
  simp only [Worker.Matches, hphase] at hfound
  rw [Plan.alone, hdone]
  exact ⟨hfound, ht.normal⟩

theorem Sound.isNormal_alone (hunit : unit ∈ units) :
    (plan.alone start unit).facts.IsNormal := by
  rw [← hs.workers] at hunit
  obtain ⟨w, hw, rfl⟩ := List.mem_map.mp hunit
  exact (hs.sameAs_alone htold hw).2

theorem Sound.counts_eq :
    s.progress.hits = (units.map fun unit => (plan.alone start unit).hits).sum ∧
      s.progress.misses = (units.map fun unit => (plan.alone start unit).misses).sum := by
  simp only [progress, ← hs.workers, List.map_map]
  refine ⟨congrArg List.sum (List.map_congr_left fun w hw => ?_),
    congrArg List.sum (List.map_congr_left fun w hw => ?_)⟩
  · exact (hs.sameAs_alone htold hw).1.hits
  · exact (hs.sameAs_alone htold hw).1.misses

/-- All stages at which the workers are through have one report. -/
theorem Sound.report_eq (hs' : s'.Sound units (Worker.OnTrack plan units start))
    (htold' : ∀ w ∈ s'.workers, w.told = true) :
    ∃ report, s.report plan = .ok report ∧ s'.report plan = .ok report := by
  have hf := fun w hw => (hs.sameAs_alone htold (w := w) hw).1.toAgrees
  have hf' := fun w hw => (hs'.sameAs_alone htold' (w := w) hw).1.toAgrees
  have hfacts : s.tally.facts = s'.tally.facts :=
    hs.facts_eq hf (fun _ hunit => hs.isNormal_alone htold hunit) htold hs' hf' htold'
  have hindex : Plan.inlineIndex s.tree units = Plan.inlineIndex s'.tree units :=
    inlineIndex_congr fun _ hunit _ hfile =>
      (hs.read_eq hunit hfile).trans (hs'.read_eq hunit hfile).symm
  obtain ⟨hhits, hmisses⟩ := hs.counts_eq htold
  obtain ⟨hhits', hmisses'⟩ := hs'.counts_eq htold'
  refine ⟨_, hs.report_eq_ok htold plan, ?_⟩
  rw [hs'.report_eq_ok htold' plan, ← hfacts]
  simp only [Plan.report, Plan.rawFindings, progress_tree, hindex, hs.findings_eq hf,
    hs'.findings_eq hf', hs.configurations_eq hf, hs'.configurations_eq hf', hhits, hmisses, hhits',
    hmisses']

end Finished

end Stage

end MacroSweep.Run
