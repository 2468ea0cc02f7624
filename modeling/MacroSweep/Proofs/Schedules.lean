import MacroSweep.Proofs.Filtering
import MacroSweep.Proofs.Submission
import MacroSweep.Proofs.Workers

/-! What runs report. It is the same for all orders in which the workers take their steps, and for
all lists of the same files. -/
namespace MacroSweep.Run

open Cache Checker

variable {plan : Plan} {tree : FileTree} {files files' : List Path} {o : Outcome}
  {unit u v : SourceUnit} {c : Configuration} {analysis : Analysis}

namespace Stage

/-- A worker can go through its configurations while all others wait. -/
theorem run_passes (plan : Plan) (tally : Program.Tally) (before after : List Worker)
    (unit : SourceUnit) (todo : List Configuration) {x : Outcome} (hx : x.SameAs o) :
    ∃ x', x'.SameAs (todo.foldl (plan.checkConfiguration unit) o) ∧
      Relation.ReflTransGen (Step plan)
        ⟨o.tree, tally, before ++ ⟨unit, todo, .ready, x, false⟩ :: after⟩
        ⟨(todo.foldl (plan.checkConfiguration unit) o).tree, tally,
          before ++ ⟨unit, [], .ready, x', false⟩ :: after⟩ := by
  -- A worker does not see the tree in its outcome, so `x` follows `o` in all but that.
  induction todo generalizing o x with
  | nil => exact ⟨x, hx, .refl⟩
  | cons c todo ih =>
    rw [List.foldl_cons]
    cases hstored : plan.stored? o.tree unit c.signature with
    | some r =>
      rw [Plan.checkConfiguration_of_stored hstored]
      have hsame : Outcome.SameAs { x.add r.findings r.facts with hits := x.hits + 1 }
          { o.add r.findings r.facts with hits := o.hits + 1 } :=
        { hx.add r.findings r.facts with hits := congrArg (· + 1) hx.hits }
      obtain ⟨x', hx', hrun⟩ := ih hsame
      exact ⟨x', hx', .head (.work rfl (.hit rfl rfl hstored)) hrun⟩
    | none =>
      have hmiss : Outcome.SameAs { x with misses := x.misses + 1 }
          { o with misses := o.misses + 1 } := { hx with misses := congrArg (· + 1) hx.misses }
      cases hrun : plan.analyze o.tree unit c with
      | ok analysis =>
        rw [Plan.checkConfiguration_of_ok hstored hrun]
        have hsame : Outcome.SameAs _ { o.add analysis.findings analysis.facts with
            misses := o.misses + 1
            tree := plan.keep o.tree unit c.signature analysis } :=
          { hmiss.add analysis.findings analysis.facts with }
        obtain ⟨x', hx', hrest⟩ := ih hsame
        exact ⟨x', hx', .head (.work rfl (.miss rfl rfl hstored))
          (.head (.work rfl (.analyze rfl rfl))
            (.head (.work rfl (.keep (congrArg Phase.analyzed hrun) rfl)) hrest))⟩
      | error failure =>
        rw [Plan.checkConfiguration_of_error hstored hrun]
        have hsame : Outcome.SameAs _ { o.add [failure.toFinding unit.path c.signature] {} with
            misses := o.misses + 1 } :=
          { hmiss.add [failure.toFinding unit.path c.signature] {} with }
        obtain ⟨x', hx', hrest⟩ := ih hsame
        exact ⟨x', hx', .head (.work rfl (.miss rfl rfl hstored))
          (.head (.work rfl (.analyze rfl rfl))
            (.head (.work rfl (.fail (congrArg Phase.analyzed hrun) rfl)) hrest))⟩

/-- A worker that is through with its unit. -/
def through (unit : SourceUnit) (x : Outcome) : Worker := ⟨unit, [], .ready, x, true⟩

/-- A worker can check its unit and tell its facts while all others wait. -/
theorem run_unit (plan : Plan) (start tree : FileTree) (tally : Program.Tally)
    (before after : List Worker) (unit : SourceUnit) :
    ∃ x, Outcome.SameAs { x with findings := Finding.dedup x.findings } (plan.checkUnit tree unit) ∧
      Relation.ReflTransGen (Step plan) ⟨tree, tally, before ++ fresh plan start unit :: after⟩
        ⟨(plan.checkUnit tree unit).tree, tally.submit (plan.checkUnit tree unit).facts,
          before ++ through unit x :: after⟩ := by
  have hfresh : Outcome.SameAs (fresh plan start unit).outcome
      { tree, configurations := (plan.configurations unit).length } :=
    ⟨⟨rfl, rfl, rfl⟩, rfl, rfl⟩
  obtain ⟨x, hx, hrun⟩ := run_passes plan tally before after unit (plan.configurations unit) hfresh
  refine ⟨x, { hx with findings := congrArg Finding.dedup hx.findings }, hrun.tail ?_⟩
  have hfacts : (plan.checkUnit tree unit).facts = x.facts := hx.facts.symm
  rw [hfacts]
  exact .submit (w := ⟨unit, [], .ready, x, false⟩) rfl rfl rfl rfl

/-- The workers can check their units one after another. -/
theorem run_units (plan : Plan) (start : FileTree) (rest : List SourceUnit) (p : Progress)
    (before : List Worker) (hp : (⟨p.tree, p.tally, before⟩ : Stage).progress = p)
    (htold : ∀ w ∈ before, w.told = true) :
    ∃ workers, (⟨(rest.foldl plan.advance p).tree, (rest.foldl plan.advance p).tally,
        workers⟩ : Stage).progress = rest.foldl plan.advance p ∧
      (∀ w ∈ workers, w.told = true) ∧
      workers.map Worker.unit = before.map Worker.unit ++ rest ∧
      Relation.ReflTransGen (Step plan)
        ⟨p.tree, p.tally, before ++ rest.map (fresh plan start)⟩
        ⟨(rest.foldl plan.advance p).tree, (rest.foldl plan.advance p).tally, workers⟩ := by
  induction rest generalizing p before with
  | nil => exact ⟨before, hp, htold, by simp, by simpa using .refl⟩
  | cons unit rest ih =>
    obtain ⟨x, hx, hrun⟩ :=
      run_unit plan start p.tree p.tally before (rest.map (fresh plan start)) unit
    have hnext : (⟨(plan.advance p unit).tree, (plan.advance p unit).tally,
        before ++ [through unit x]⟩ : Stage).progress = plan.advance p unit := by
      rw [← hp]
      simp only [progress, Plan.advance, through, List.flatMap_append, List.map_append,
        List.sum_append, ← hx.findings, ← hx.facts, ← hx.configurations, ← hx.hits, ← hx.misses]
      simp
    have htold' : ∀ w ∈ before ++ [through unit x], w.told = true := by
      intro w hw
      rcases List.mem_append.mp hw with hw | hw
      · exact htold w hw
      · rw [List.mem_singleton.mp hw]
        rfl
    obtain ⟨workers, hprogress, hthrough, hunits, hrest⟩ := ih _ _ hnext htold'
    refine ⟨workers, hprogress, hthrough, by simpa [through] using hunits, ?_⟩
    refine hrun.trans ?_
    rw [List.append_assoc] at hrest
    exact hrest

end Stage

/-- A run is what its workers do if they check their units one after another. -/
theorem Plan.exists_stage_of_run (plan : Plan)
    (hunits : SourceUnit.loadAll tree plan.includePaths files ≠ []) :
    ∃ s, Relation.ReflTransGen (Stage.Step plan)
        (.start plan tree (SourceUnit.loadAll tree plan.includePaths files)) s ∧
      (∀ w ∈ s.workers, w.told = true) ∧
      plan.run tree files = (s.report plan).map fun report => (report, s.tree) := by
  obtain ⟨workers, hprogress, htold, hmap, hrun⟩ := Stage.run_units plan tree
    (SourceUnit.loadAll tree plan.includePaths files)
    { tree, tally := { expected := (SourceUnit.loadAll tree plan.includePaths files).length } } []
    rfl (by simp)
  refine ⟨_, hrun, htold, ?_⟩
  rw [Plan.run, if_neg (mt List.isEmpty_iff.mp hunits), Stage.report, hprogress, hmap]
  dsimp only
  generalize Program.Tally.close _ = closed
  cases closed with
  | ok facts => rfl
  | error cause => rfl

theorem Plan.gives_run (plan : Plan) (tree : FileTree) (files : List Path) :
    plan.Gives tree files ((plan.run tree files).map Prod.fst) := by
  by_cases hunits : SourceUnit.loadAll tree plan.includePaths files = []
  · have hrun : plan.run tree files = .error (.noUnits files.length) := by
      rw [Plan.run, if_pos (List.isEmpty_iff.mpr hunits)]
    rw [hrun]
    exact .noUnits hunits
  · obtain ⟨s, hrun, htold, heq⟩ := plan.exists_stage_of_run hunits
    have hreport : (plan.run tree files).map Prod.fst = s.report plan := by
      rw [heq]
      cases s.report plan <;> rfl
    rw [hreport]
    exact .report hunits hrun htold

theorem Plan.loadAll_eq_nil_of_run {n : Nat}
    (h : (plan.run tree files).map Prod.fst = .error (.noUnits n)) :
    SourceUnit.loadAll tree plan.includePaths files = [] := by
  unfold Plan.run at h
  dsimp only at h
  split at h
  · next hempty => exact List.isEmpty_iff.mp hempty
  · split at h <;> cases h

/-- The files of a unit can be read in normal spelling, if the file it was loaded from can. -/
theorem readable_files_of_mem_loadAll {includePaths : List Path}
    (hspelled : ∀ file ∈ files, tree.read file.normalize = tree.read file)
    (hunit : unit ∈ SourceUnit.loadAll tree includePaths files) :
    ∀ file ∈ unit.files, file.IsNormal ∧ ∃ bytes, tree.read file = .ok bytes := by
  intro path hpath
  obtain ⟨file, hfile, hload⟩ := SourceUnit.exists_load_of_mem_loadAll hunit
  have hloaded := SourceUnit.loadedFrom_of_load hload
  rcases List.mem_cons.mp hpath with rfl | hpath
  · obtain ⟨bytes, hread, -⟩ := hloaded.fingerprint
    rw [hloaded.path_eq]
    exact ⟨Path.isNormal_normalize file, bytes, (hspelled file hfile).trans hread⟩
  · obtain ⟨d, hd, rfl⟩ := List.mem_map.mp hpath
    obtain ⟨hnormal, bytes, hread, -⟩ := hloaded.dependencies d hd
    exact ⟨hnormal, bytes, hread⟩

/-- Runs on lists of the same files, whatever order, number and spelling these are given in, and
whatever order the workers take their steps in, both find no unit or give one report. -/
theorem Plan.gives_of_same_files (hchecker : plan.checker = directives)
    (hspelled : ∀ file ∈ files ++ files', tree.read file.normalize = tree.read file)
    (hsame : ∀ p, p ∈ files.map Path.normalize ↔ p ∈ files'.map Path.normalize)
    (hstore : ∀ store, plan.cache = some store →
      plan.Apart tree (SourceUnit.loadAll tree plan.includePaths files) store) :
    plan.Gives tree files ((plan.run tree files).map Prod.fst) ∧
    plan.Gives tree files' ((plan.run tree files').map Prod.fst) ∧
    ∀ r r', plan.Gives tree files r → plan.Gives tree files' r' →
      (r = .error (.noUnits files.length) ∧ r' = .error (.noUnits files'.length)) ∨
        ∃ report, r = .ok report ∧ r' = .ok report := by
  refine ⟨plan.gives_run tree files, plan.gives_run tree files', fun r r' hr hr' => ?_⟩
  have hunits : SourceUnit.loadAll tree plan.includePaths files =
      SourceUnit.loadAll tree plan.includePaths files' := SourceUnit.loadAll_congr hspelled hsame
  have hsharable : plan.Sharable tree (SourceUnit.loadAll tree plan.includePaths files) :=
    ⟨hchecker, fun u hu => readable_files_of_mem_loadAll
      (fun file hfile => hspelled file (List.mem_append_left _ hfile)) hu, hstore⟩
  have hnodup := SourceUnit.nodup_loadAll tree plan.includePaths files
  cases hr with
  | noUnits h =>
    cases hr' with
    | noUnits h' => exact .inl ⟨rfl, rfl⟩
    | report h' => exact absurd (hunits ▸ h) h'
  | report h hrun htold =>
    cases hr' with
    | noUnits h' => exact absurd (hunits.trans h') h
    | report h' hrun' htold' =>
      rw [← hunits] at hrun'
      exact .inr ((Stage.onTrack_of_run hsharable hnodup hrun).report_eq htold
        (Stage.onTrack_of_run hsharable hnodup hrun') htold')

section TwoFiles

/-- A store in the directory `build`. -/
def buildStore : Store := ⟨⟨"build"⟩, directives.versionTag {}⟩

def buildPlan : Plan := { checker := directives, cache := some buildStore }

theorem configurations_buildPlan (h : unit.conditionals = ∅) :
    buildPlan.configurations unit = [{}] := by
  rw [Plan.configurations, h]
  rfl

def errorText : List UInt8 := Text.encode "#error e\n".toList

theorem mentionsOf_eq_empty :
    ∀ bytes ∈ [[], errorText], SourceUnit.mentionsOf bytes = ⟨∅, ∅, []⟩ := by
  decide +kernel

/-- An empty file and a file with an error, with no directory for a store yet. -/
def twoFiles : FileTree where
  nodes := .ofList [(["a.c"], .file []), (["b.c"], .file errorText)]

theorem read_twoFiles :
    twoFiles.read ⟨"a.c"⟩ = .ok [] ∧ twoFiles.read ⟨"b.c"⟩ = .ok errorText ∧
      ∀ file ∈ [(⟨"a.c"⟩ : Path), ⟨"b.c"⟩] ++ [⟨"./b.c"⟩, ⟨"a.c"⟩, ⟨"b.c"⟩],
        twoFiles.read file.normalize = twoFiles.read file :=
  ⟨rfl, rfl, by decide⟩

theorem exists_unit_twoFiles (h : u ∈ SourceUnit.loadAll twoFiles [] [⟨"a.c"⟩, ⟨"b.c"⟩]) :
    ∃ file ∈ [(⟨"a.c"⟩ : Path), ⟨"b.c"⟩], SourceUnit.load twoFiles [] file = .ok u ∧
      u.path = file.normalize ∧ u.conditionals = ∅ := by
  obtain ⟨file, hfile, hload⟩ := SourceUnit.exists_load_of_mem_loadAll h
  obtain ⟨bytes, hbytes, hread⟩ : ∃ bytes ∈ [[], errorText], twoFiles.read file = .ok bytes := by
    obtain ⟨ha, hb, -⟩ := read_twoFiles
    simp only [List.mem_cons, List.not_mem_nil, or_false] at hfile
    rcases hfile with rfl | rfl
    · exact ⟨_, by simp, ha⟩
    · exact ⟨_, by simp, hb⟩
  refine ⟨file, hfile, hload, ?_⟩
  rw [SourceUnit.load_of_no_mentions hread (mentionsOf_eq_empty bytes hbytes)] at hload
  rw [← Except.ok.inj hload]
  exact ⟨rfl, rfl⟩

theorem exists_mem_loadAll_twoFiles :
    ∃ u, u ∈ SourceUnit.loadAll twoFiles buildPlan.includePaths [⟨"a.c"⟩, ⟨"b.c"⟩] := by
  have hload : SourceUnit.load twoFiles buildPlan.includePaths ⟨"a.c"⟩ = .ok _ :=
    SourceUnit.load_of_no_mentions read_twoFiles.1 (mentionsOf_eq_empty [] List.mem_cons_self)
  obtain ⟨u, hu, -⟩ := SourceUnit.exists_mem_loadAll List.mem_cons_self hload
  exact ⟨u, hu⟩

theorem apart_twoFiles : buildPlan.Apart twoFiles
    (SourceUnit.loadAll twoFiles buildPlan.includePaths [⟨"a.c"⟩, ⟨"b.c"⟩]) buildStore := by
  have hplace : twoFiles.placeOf buildStore.directory = ["build"] := rfl
  refine Plan.apart_of_no_files (fun q bytes hnode => ?_) (fun u hu file hfile => ?_)
    fun u hu v hv c hc d hd hkey => ?_
  · rw [hplace]
    have hplaces : ∀ e ∈ twoFiles.nodes.toList, e.1.dropLast ≠ ["build"] := by decide
    have hq : q ≠ [] := by
      rintro rfl
      cases hnode
    rw [FileTree.node?, if_neg hq] at hnode
    have hmem : (q, Node.file bytes) ∈ twoFiles.nodes.toList := SortedMap.mem_toList_iff.mpr hnode
    exact hplaces _ hmem
  · exact (readable_files_of_mem_loadAll
      (fun file hfile => read_twoFiles.2.2 file (List.mem_append_left _ hfile)) hu file hfile).2
  · have hinj : ∀ file ∈ [(⟨"a.c"⟩ : Path), ⟨"b.c"⟩], ∀ file' ∈ [(⟨"a.c"⟩ : Path), ⟨"b.c"⟩],
        Digest.fingerprint (Store.keyBytes file.normalize "") =
          Digest.fingerprint (Store.keyBytes file'.normalize "") → file = file' := by
      decide +kernel
    obtain ⟨file, hfile, hload, hpath, hnone⟩ := exists_unit_twoFiles hu
    obtain ⟨file', hfile', hload', hpath', hnone'⟩ := exists_unit_twoFiles hv
    rw [configurations_buildPlan hnone] at hc
    rw [configurations_buildPlan hnone'] at hd
    rw [List.mem_singleton.mp hc, List.mem_singleton.mp hd, hpath, hpath'] at hkey
    rw [hinj file hfile file' hfile' hkey] at hload
    exact Except.ok.inj (hload.symm.trans hload')

/-- Two files are checked, and checked again with one of them given twice. -/
theorem gives_of_repeated_file : ∃ report,
    (buildPlan.run twoFiles [⟨"a.c"⟩, ⟨"b.c"⟩]).map Prod.fst = .ok report ∧
      ∀ r, buildPlan.Gives twoFiles [⟨"./b.c"⟩, ⟨"a.c"⟩, ⟨"b.c"⟩] r → r = .ok report := by
  have hsame : ∀ p, p ∈ [(⟨"a.c"⟩ : Path), ⟨"b.c"⟩].map Path.normalize ↔
      p ∈ [(⟨"./b.c"⟩ : Path), ⟨"a.c"⟩, ⟨"b.c"⟩].map Path.normalize := by
    have hb : (⟨"./b.c"⟩ : Path).normalize = (⟨"b.c"⟩ : Path).normalize := rfl
    intro p
    simp only [List.map_cons, List.map_nil, hb, List.mem_cons, List.not_mem_nil, or_false]
    tauto
  have hstore : ∀ store, buildPlan.cache = some store → buildPlan.Apart twoFiles
      (SourceUnit.loadAll twoFiles buildPlan.includePaths [⟨"a.c"⟩, ⟨"b.c"⟩]) store := by
    intro store hstore
    rw [← Option.some.inj hstore]
    exact apart_twoFiles
  obtain ⟨hgives, hgives', hreports⟩ :=
    Plan.gives_of_same_files rfl read_twoFiles.2.2 hsame hstore
  rcases hreports _ _ hgives hgives' with ⟨hnone, -⟩ | ⟨report, hreport, -⟩
  · obtain ⟨u, hu⟩ := exists_mem_loadAll_twoFiles
    rw [Plan.loadAll_eq_nil_of_run hnone] at hu
    cases hu
  · refine ⟨report, hreport, fun r hr => ?_⟩
    rcases hreports _ r hgives hr with ⟨hnone, -⟩ | ⟨report', hreport', rfl⟩
    · rw [hreport] at hnone
      cases hnone
    · exact hreport'.symm.trans hreport

end TwoFiles

/-- Two workers may check their units in the order of these. -/
theorem Plan.gives_in_order (h : SourceUnit.loadAll tree plan.includePaths files = [u, v]) :
    ∃ p facts, plan.Gives tree files (.ok (plan.report [u, v] p facts)) ∧
      p.findings = (plan.checkUnit tree u).findings ++
        (plan.checkUnit (plan.checkUnit tree u).tree v).findings := by
  have hrun := plan.gives_run tree files
  simp only [run, h, List.isEmpty_cons, Bool.false_eq_true, if_false, List.foldl_cons,
    List.foldl_nil, advance, Program.Tally.submit, Program.Tally.close, List.length_cons,
    List.length_nil, if_true] at hrun
  exact ⟨_, _, hrun, by simp⟩

theorem Plan.gives_of_run {units : List SourceUnit} {s : Stage}
    (h : SourceUnit.loadAll tree plan.includePaths files = units) (hne : units ≠ [])
    (hrun : Relation.ReflTransGen (Stage.Step plan) (.start plan tree units) s)
    (htold : ∀ w ∈ s.workers, w.told = true) : plan.Gives tree files (s.report plan) := by
  subst h
  exact .report hne hrun htold

/-- Two workers may check their units the other way round. -/
theorem Plan.gives_in_turn (h : SourceUnit.loadAll tree plan.includePaths files = [u, v]) :
    ∃ p facts, plan.Gives tree files (.ok (plan.report [u, v] p facts)) ∧
      p.findings = (plan.checkUnit (plan.checkUnit tree v).tree u).findings ++
        (plan.checkUnit tree v).findings := by
  obtain ⟨x, hx, hfirst⟩ :=
    Stage.run_unit plan tree tree { expected := 2 } [Stage.fresh plan tree u] [] v
  obtain ⟨y, hy, hsecond⟩ := Stage.run_unit plan tree (plan.checkUnit tree v).tree
    (Program.Tally.submit { expected := 2 } (plan.checkUnit tree v).facts) [] [Stage.through v x] u
  have hgives := gives_of_run h (by simp) (hfirst.trans hsecond) (by simp [Stage.through])
  exact ⟨_, _, hgives, by simp [Stage.progress, Stage.through, ← hx.findings, ← hy.findings]⟩

/-- A unit with one configuration and no record of it is checked afresh. -/
theorem checkUnit_of_miss (hc : plan.configurations unit = [c])
    (hmiss : plan.stored? tree unit c.signature = none)
    (hrun : plan.analyze tree unit c = .ok analysis) :
    (plan.checkUnit tree unit).findings = Finding.dedup analysis.findings ∧
      (plan.checkUnit tree unit).tree = plan.keep tree unit c.signature analysis := by
  have hnext := Plan.checkConfiguration_of_ok (o := { tree, configurations := 1 }) hmiss hrun
  have hunit : plan.checkUnit tree unit =
      let o := (plan.configurations unit).foldl (plan.checkConfiguration unit)
        { tree, configurations := (plan.configurations unit).length }
      { o with findings := Finding.dedup o.findings } := rfl
  rw [hunit, hc]
  simp only [List.foldl_cons, List.foldl_nil, List.length_singleton, hnext]
  simp [Outcome.add]

theorem findings_checkUnit_of_miss {fs : List Finding} (hc : plan.configurations unit = [c])
    (hmiss : plan.stored? tree unit c.signature = none)
    (hrun : (plan.analyze tree unit c).map Analysis.findings = .ok fs) :
    (plan.checkUnit tree unit).findings = Finding.dedup fs := by
  cases ha : plan.analyze tree unit c with
  | error failure => simp [ha, Except.map] at hrun
  | ok analysis =>
    rw [(checkUnit_of_miss hc hmiss ha).1]
    rw [ha] at hrun
    rw [Except.ok.inj hrun]

theorem exists_id_dedup_iff {fs : List Finding} {id : String} :
    (∃ f ∈ Finding.dedup fs, f.id = id) ↔ ∃ f ∈ fs, f.id = id := by
  induction fs with
  | nil => rfl
  | cons g fs ih =>
    simp only [Finding.dedup, List.exists_mem_cons_iff, ← ih]
    refine or_congr_right' fun hg => ?_
    simp only [List.mem_filter]
    constructor
    · rintro ⟨f, ⟨hf, -⟩, hid⟩
      exact ⟨f, hf, hid⟩
    · rintro ⟨f, hf, hid⟩
      refine ⟨f, ⟨hf, ?_⟩, hid⟩
      have hne : g.id ≠ f.id := fun h => hg (h.trans hid)
      simp [Finding.sameAs, hne]

theorem id_attachRemark (index : Suppression.InlineIndex) (f : Finding) :
    (index.attachRemark f).id = f.id := by
  unfold Suppression.InlineIndex.attachRemark
  split <;> rfl

/-- Without suppressions, what is found in the units is reported. -/
theorem exists_id_report_iff {units : List SourceUnit} {p : Progress} {facts : Program.Facts}
    {id : String} (hchecker : plan.checker = directives) (hrules : plan.suppressions = {})
    (hforced : plan.enumeration.forced.errors = [])
    (hid : id ∉ ["unusedMacro", "invalidSuppression"]) :
    (∃ f ∈ (plan.report units p facts).findings, f.id = id) ↔ ∃ f ∈ p.findings, f.id = id := by
  have hkept : ∀ index findings, (plan.suppressions.filter index findings).kept = findings := by
    intro index findings
    simp [hrules, Suppression.Registry.filter_eq_stream, Suppression.Registry.reports,
      Suppression.Registry.isSuppressed, Suppression.Registry.covering, Suppression.Registry.rules]
  simp only [List.mem_cons, List.not_mem_nil, or_false, not_or] at hid
  simp only [Plan.report, hkept, List.mem_mergeSort, List.mem_map, exists_exists_and_eq_and,
    id_attachRemark, Plan.rawFindings, exists_id_dedup_iff, hforced, hchecker,
    conclude_directives, Program.Facts.unusedMacros_eq_map, Suppression.Registry.diagnostics]
  simp [or_and_right, exists_or, Program.Facts.unusedMacro, Suppression.Fault.toFinding,
    Ne.symm hid.1, Ne.symm hid.2]

section SourceInStore

/-- The name of the record of `a.c`, and of the record of the file in the store by that name. -/
def recordName : String := "03f369cb70cc01571acb8d9473b7c51623e5bfe9f3d4d530441c7358241fa34d.json"

def nextRecordName : String :=
  "6272eeb85216fa911c5e9376e02554c88334ed5c0de2d3a129ee89bdefc70dba.json"

def sourceInStore : Path := ⟨"build/" ++ recordName⟩

/-- An empty file, and a file with an error that stands where the record of the other is kept. -/
def sourceTree : FileTree where
  nodes := .ofList [(["a.c"], .file []), (["build"], .directory),
    (["build", recordName], .file errorText)]

def firstUnit : SourceUnit := ⟨⟨"a.c"⟩, Digest.fingerprint [], [], ∅⟩

def secondUnit : SourceUnit := ⟨sourceInStore, Digest.fingerprint errorText, [], ∅⟩

theorem keyName_units :
    keyName firstUnit.path "" = recordName ∧ keyName secondUnit.path "" = nextRecordName := by
  decide +kernel

theorem recordPath_units : buildStore.recordPath firstUnit.path "" = sourceInStore ∧
    buildStore.recordPath secondUnit.path "" = ⟨"build/" ++ nextRecordName⟩ := by
  obtain ⟨hfirst, hsecond⟩ := keyName_units
  rw [recordPath_eq, recordPath_eq, hfirst, hsecond]
  exact ⟨rfl, rfl⟩

theorem read_sourceTree :
    sourceTree.read ⟨"a.c"⟩ = .ok [] ∧ sourceTree.read sourceInStore = .ok errorText ∧
      ∀ file ∈ [⟨"a.c"⟩, sourceInStore], file.normalize = file :=
  ⟨rfl, rfl, by decide⟩

theorem loadAll_sourceTree :
    SourceUnit.loadAll sourceTree buildPlan.includePaths [⟨"a.c"⟩, sourceInStore] =
      [firstUnit, secondUnit] := by
  have hle : (compare firstUnit.path secondUnit.path).isLE = true := rfl
  have hne : firstUnit.path.same secondUnit.path = false := rfl
  obtain ⟨hread, hread', hnormal⟩ := read_sourceTree
  have hload : SourceUnit.load sourceTree buildPlan.includePaths ⟨"a.c"⟩ = .ok _ :=
    SourceUnit.load_of_no_mentions hread (mentionsOf_eq_empty [] (by simp))
  have hload' : SourceUnit.load sourceTree buildPlan.includePaths sourceInStore = .ok _ :=
    SourceUnit.load_of_no_mentions hread' (mentionsOf_eq_empty errorText (by simp))
  rw [hnormal ⟨"a.c"⟩ (by simp)] at hload
  rw [hnormal sourceInStore (by simp)] at hload'
  have hunits : [⟨"a.c"⟩, sourceInStore].filterMap (fun file =>
      (SourceUnit.load sourceTree buildPlan.includePaths file).toOption) =
        [firstUnit, secondUnit] := by
    simp [hload, hload', Except.toOption, firstUnit, secondUnit]
  rw [SourceUnit.loadAll, hunits, List.mergeSort_of_pairwise (by simpa using hle)]
  simp [SourceUnit.dedup, hne]

/-- A text that is no record. -/
theorem decode?_errorText : Record.decode? errorText = none := by
  -- The reader recurs along a pair of measures and does not compute, but its first case is enough.
  have hvalue : ∀ cs, cs.head? = some '#' → Json.readNumber cs = none →
      Json.readValue cs = none := by
    intro cs hhead hn
    unfold Json.readValue
    split
    case h_7 => split <;> simp_all
    all_goals simp at hhead
  simp only [Record.decode?, Json.parse?]
  rw [hvalue _ rfl rfl]
  rfl

theorem stored?_firstUnit (h : tree.read sourceInStore = .ok errorText) :
    buildPlan.stored? tree firstUnit "" = none := by
  rw [stored?_eq_lookup rfl, Store.lookup, recordPath_units.1, h]
  simp [Except.toOption, decode?_errorText]

theorem stored?_secondUnit (h : tree.read ⟨"build/" ++ nextRecordName⟩ = .error .notFound) :
    buildPlan.stored? tree secondUnit "" = none := by
  rw [stored?_eq_lookup rfl, Store.lookup, recordPath_units.2, h]
  rfl

theorem checkUnit_firstUnit (h : tree.read sourceInStore = .ok errorText)
    (hrun : buildPlan.analyze tree firstUnit {} = .ok {}) :
    (buildPlan.checkUnit tree firstUnit).findings = [] ∧
      (buildPlan.checkUnit tree firstUnit).tree = buildPlan.keep tree firstUnit "" {} :=
  checkUnit_of_miss (configurations_buildPlan rfl) (stored?_firstUnit h) hrun

/-- The tree after a result was stored under a name, by way of a temporary file. -/
def storedTree (name : String) (unit : SourceUnit) (analysis : Analysis) : FileTree :=
  sourceTree.transfer ["build", ".0.0.tmp"] ["build", name]
    (buildStore.record unit "" analysis).encode

theorem keep_sourceTree {name : String} (hname : keyName unit.path "" = name)
    (hfree : sourceTree.node? ["build", name] ≠ some .directory) (analysis : Analysis) :
    buildPlan.keep sourceTree unit "" analysis = storedTree name unit analysis := by
  have hbase : sourceTree.node? sourceTree.base = some .directory := rfl
  have hdirectory : sourceTree.node? (sourceTree.base ++ [buildStore.directory.text]) =
      some .directory := rfl
  have hdir : FileTree.IsFileName buildStore.directory.text.toList :=
    ⟨by decide, by decide, by decide, by decide⟩
  have hsave := (save_of_directory buildStore unit "" analysis {} hdir hbase hdirectory (by decide)
    (by decide)).1
  rw [hname] at hsave
  rw [Plan.keep_eq rfl]
  exact keep_of_save (hsave hfree)

/-- If the empty file is checked first, its record takes the place of the other file. -/
theorem findings_after_firstUnit :
    (buildPlan.checkUnit sourceTree firstUnit).findings ++
      (buildPlan.checkUnit (buildPlan.checkUnit sourceTree firstUnit).tree secondUnit).findings =
        [] := by
  obtain ⟨hfirst, htree⟩ := checkUnit_firstUnit read_sourceTree.2.1 (by decide +kernel)
  have hkeep := keep_sourceTree keyName_units.1 (by decide) {}
  have hmiss : buildPlan.stored? (storedTree recordName firstUnit {}) secondUnit "" = none :=
    stored?_secondUnit rfl
  have hrun : (buildPlan.analyze (storedTree recordName firstUnit {}) secondUnit {}).map
      Analysis.findings = .ok [] := by
    decide +kernel
  rw [hfirst, htree, hkeep, List.nil_append]
  exact findings_checkUnit_of_miss (configurations_buildPlan rfl) hmiss hrun

/-- The result of the file in the store, as long as it stands there. -/
def errorAnalysis : Analysis where
  findings := [{
    id := "preprocessorErrorDirective"
    severity := .error
    location := ⟨sourceInStore, 1, 1⟩
    message := "#error e" }]

/-- If the file in the store is checked first, its error is found. -/
theorem findings_after_secondUnit :
    (buildPlan.checkUnit (buildPlan.checkUnit sourceTree secondUnit).tree firstUnit).findings ++
      (buildPlan.checkUnit sourceTree secondUnit).findings = errorAnalysis.findings := by
  have hmiss : buildPlan.stored? sourceTree secondUnit "" = none :=
    stored?_secondUnit rfl
  have hrun : buildPlan.analyze sourceTree secondUnit {} = .ok errorAnalysis := by decide +kernel
  obtain ⟨hsecond, htree⟩ := checkUnit_of_miss (configurations_buildPlan rfl) hmiss hrun
  have hsame : (buildPlan.checkUnit sourceTree secondUnit).tree =
      storedTree nextRecordName secondUnit errorAnalysis :=
    htree.trans (keep_sourceTree keyName_units.2 (by decide) errorAnalysis)
  obtain ⟨hfirst, -⟩ : (buildPlan.checkUnit (storedTree nextRecordName secondUnit errorAnalysis)
      firstUnit).findings = [] ∧ _ := checkUnit_firstUnit rfl (by decide +kernel)
  rw [hsame, hfirst, hsecond]
  rfl

/-- Where a source file stands in the place of a record, what is reported depends on which worker
comes first. -/
theorem gives_of_source_in_store : buildPlan.checker = directives ∧
    (∀ file ∈ [⟨"a.c"⟩, sourceInStore], sourceTree.read file.normalize = sourceTree.read file) ∧
    ∃ report report', buildPlan.Gives sourceTree [⟨"a.c"⟩, sourceInStore] (.ok report) ∧
      buildPlan.Gives sourceTree [⟨"a.c"⟩, sourceInStore] (.ok report') ∧ report ≠ report' := by
  refine ⟨rfl, fun file hfile => by rw [read_sourceTree.2.2 file hfile], ?_⟩
  obtain ⟨p, facts, hp, hfindings⟩ := Plan.gives_in_order loadAll_sourceTree
  obtain ⟨p', facts', hp', hfindings'⟩ := Plan.gives_in_turn loadAll_sourceTree
  rw [findings_after_firstUnit] at hfindings
  rw [findings_after_secondUnit] at hfindings'
  refine ⟨_, _, hp, hp', fun heq => ?_⟩
  have hid : "preprocessorErrorDirective" ∉ ["unusedMacro", "invalidSuppression"] := by decide
  have hreported : ∃ f ∈ (buildPlan.report [firstUnit, secondUnit] p' facts').findings,
      f.id = "preprocessorErrorDirective" := by
    rw [exists_id_report_iff rfl rfl rfl hid, hfindings']
    exact ⟨_, List.mem_singleton.mpr rfl, rfl⟩
  rw [← heq, exists_id_report_iff rfl rfl rfl hid, hfindings] at hreported
  simp at hreported

end SourceInStore

end MacroSweep.Run
