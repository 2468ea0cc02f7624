import MacroSweep.Options.Basic
import MacroSweep.Proofs.Schedules

/-! A store of results does not show in what runs report. Runs that share a directory of records,
with files and options changed at will in between, each report what they would without it, whatever
order their workers take their steps in. -/
namespace MacroSweep

/-- What a report tells, whatever part of it was taken from stored results. -/
def Report.verdict (r : Report) : List Finding × Nat × Nat × Nat :=
  (r.findings, r.suppressed, r.unitsChecked, r.configurationsChecked)

namespace Run

open Cache Checker FileTree Text

variable {contents : Set (List UInt8)} {place : Place} {tree tree' start : FileTree} {plan : Plan}
  {unit : SourceUnit} {units : List SourceUnit} {files : List Path} {c : Configuration}
  {done : List Configuration} {o : Outcome} {analysis : Analysis} {w w' : Worker} {s s' : Stage}

/-- The plan without its store. -/
def Plan.uncached (plan : Plan) : Plan := { plan with cache := none }

section Uncached

theorem tree_checkConfiguration_uncached (unit : SourceUnit) (o : Outcome) (c : Configuration) :
    (plan.uncached.checkConfiguration unit o c).tree = o.tree := by
  cases hrun : plan.uncached.analyze o.tree unit c with
  | ok analysis => rw [Plan.checkConfiguration_of_ok rfl hrun, Plan.keep_of_cache_eq_none rfl]
  | error failure => rw [Plan.checkConfiguration_of_error rfl hrun]; rfl

theorem tree_solo_uncached (start : FileTree) (unit : SourceUnit) (done : List Configuration) :
    (plan.uncached.solo start unit done).tree = start :=
  List.foldlRecOn (motive := fun o : Outcome => o.tree = start) done _ rfl
    fun o ho c _ => (tree_checkConfiguration_uncached unit o c).trans ho

/-- A worker without a store adds what its pass finds. -/
theorem agrees_solo_of_ok (h : o.Agrees (plan.uncached.solo start unit done))
    (hrun : plan.uncached.analyze start unit c = .ok analysis) :
    (o.add analysis.findings analysis.facts).Agrees
      (plan.uncached.solo start unit (done ++ [c])) := by
  rw [← tree_solo_uncached start unit done] at hrun
  rw [Plan.solo_concat, Plan.checkConfiguration_of_ok rfl hrun]
  exact { h.add analysis.findings analysis.facts with }

theorem agrees_solo_of_error {failure : Failure}
    (h : o.Agrees (plan.uncached.solo start unit done))
    (hrun : plan.uncached.analyze start unit c = .error failure) :
    (o.add [failure.toFinding unit.path c.signature] {}).Agrees
      (plan.uncached.solo start unit (done ++ [c])) := by
  rw [← tree_solo_uncached start unit done] at hrun
  rw [Plan.solo_concat, Plan.checkConfiguration_of_error rfl hrun]
  exact { h.add [failure.toFinding unit.path c.signature] {} with }

end Uncached

/-- Whether a plan keeps the results of the checker of directives in the directory at a place. -/
structure Plan.Keeps (plan : Plan) (tree : FileTree) (place : Place) : Prop where
  checker : plan.checker = directives
  forced : ∃ defines undefines, plan.enumeration.forced = .parse defines undefines
  store : ∃ store, plan.cache = some store ∧ store.tag = directives.versionTag plan.settings ∧
    tree.placeOf store.directory = place

/-- The plan of options that name a directory for results keeps them there. -/
theorem keeps_plan {o : Options} {directory : Path} (h : o.buildDir = some directory)
    (hplace : tree.placeOf directory = place) : (o.plan tree' directives).Keeps tree place where
  checker := rfl
  forced := ⟨o.defines, o.undefines, rfl⟩
  store := ⟨⟨directory, directives.versionTag o.checker⟩, by rw [Options.plan, h]; rfl, rfl, hplace⟩

/-- Whether the files of a unit stand as they were when it was loaded, none of them in the directory
at a place. -/
structure Settled (contents : Set (List UInt8)) (place : Place) (tree : FileTree)
    (unit : SourceUnit) : Prop where
  stamps : ∀ d ∈ unit.stamps, d.Stands contents tree
  apart : ∀ p ∈ unit.files, ∀ q, tree.locate p = .ok q → q.dropLast ≠ place
  conditionals : ∀ name ∈ unit.conditionals.toList, isIdentifier name.toList = true

/-- Files of a settled unit read as before when results are stored. -/
theorem Settled.read_eq (h : Settled contents place tree unit)
    (halters : Alters (inside place) tree tree') {p : Path} (hp : p ∈ unit.files) :
    tree'.read p = tree.read p := by
  obtain ⟨d, hd, rfl⟩ : ∃ d ∈ unit.stamps, d.path = p := List.mem_map.mp hp
  obtain ⟨-, bytes, -, hread, -⟩ := h.stamps d hd
  obtain ⟨q, hq, -⟩ := read_eq_ok_iff.mp hread
  rw [hread]
  refine halters.read ?_ hread
  rw [placeOf_of_locate hq]
  exact h.apart d.path hp q hq

theorem Settled.stands (h : Settled contents place tree unit)
    (halters : Alters (inside place) tree tree') : ∀ d ∈ unit.stamps, d.Stands contents tree' := by
  intro d hd
  obtain ⟨hnormal, bytes, hmem, hread, hfp⟩ := h.stamps d hd
  have hfile : d.path ∈ unit.files := List.mem_map_of_mem hd
  exact ⟨hnormal, bytes, hmem, (h.read_eq halters hfile).trans hread, hfp⟩

section Pass

variable (hplan : plan.Keeps start place) (hunit : Settled contents place start unit)
  (halters : Alters (inside place) start tree)

include hplan

theorem Plan.Keeps.analyze_eq :
    plan.analyze tree unit c = directives.run ⟨tree, unit, c, plan.settings⟩ := by
  rw [Plan.analyze, hplan.checker]

include hunit

theorem legible_of_mem_configurations (hc : c ∈ plan.configurations unit) :
    Configuration.Legible c.defines := by
  obtain ⟨defines, undefines, hforced⟩ := hplan.forced
  refine Enumeration.legible_of_mem_configurations ?_ hunit.conditionals hc
  rw [hforced]
  exact ForcedMacros.legible_parse defines undefines

include halters

/-- A pass finds the same after results were stored. -/
theorem analyze_uncached_eq : plan.uncached.analyze start unit c = plan.analyze tree unit c := by
  have hagree : Walk.Agree ⟨tree, unit, c, plan.settings⟩ ⟨start, unit, c, plan.settings⟩ :=
    ⟨rfl, rfl, rfl, fun _ hp => hunit.read_eq halters hp, rfl⟩
  rw [hplan.analyze_eq, run_directives_congr hagree, ← hplan.checker]
  rfl

/-- A stored result that is used is what the pass would find. -/
theorem analyze_eq_of_stored? {r : Record} (hinj : Set.InjOn Digest.fingerprint contents)
    (hc : Configuration.Legible c.defines) (hs : Sound contents place tree)
    (h : plan.stored? tree unit c.signature = some r) :
    plan.analyze tree unit c = .ok ⟨r.findings, r.facts⟩ := by
  obtain ⟨store, hcache, htag, hplace⟩ := hplan.store
  rw [stored?_eq_lookup hcache] at h
  have hgenuine := hs.genuine_of_lookup ((halters.placeOf store.directory).trans hplace) h
  obtain ⟨-, -, -, hcurrent⟩ := lookup_eq_some h
  have hpass : Grounded contents ⟨tree, unit, c, plan.settings⟩ := ⟨hunit.stands halters, hc⟩
  rw [hplan.analyze_eq]
  exact hgenuine.run_eq hinj hpass htag hcurrent

/-- The record of a pass is genuine, so storing it leaves the directory sound. -/
theorem sound_keep (hc : Configuration.Legible c.defines) (hs : Sound contents place tree)
    (h : plan.analyze tree unit c = .ok analysis) :
    Alters (inside place) start (plan.keep tree unit c.signature analysis) ∧
      Sound contents place (plan.keep tree unit c.signature analysis) := by
  obtain ⟨store, hcache, htag, hplace⟩ := hplan.store
  rw [hplan.analyze_eq] at h
  have hgenuine : Genuine contents (store.record unit c.signature analysis) :=
    ⟨store, ⟨tree, unit, c, plan.settings⟩, analysis, ⟨hunit.stands halters, hc⟩, htag, h, rfl⟩
  have hkeep := Plan.alters_keep hcache tree unit c.signature analysis
  rw [halters.placeOf, hplace] at hkeep
  refine ⟨halters.trans hkeep, ?_⟩
  rw [Plan.keep_eq hcache]
  exact hs.keep hgenuine _

end Pass

/-- What a worker has found, as far as it is, is what it would have found without a store. -/
structure Worker.Follows (plan : Plan) (start : FileTree) (w : Worker)
    (done : List Configuration) : Prop where
  configurations : plan.configurations w.unit = done ++ w.todo
  found : w.outcome.Agrees (plan.uncached.solo start w.unit done)
  result : ∀ result, w.phase = .analyzed result →
    ∃ c cs, w.todo = c :: cs ∧ result = plan.uncached.analyze start w.unit c

theorem Worker.Follows.concat {cs : List Configuration} (h : w.Follows plan start done)
    (htodo : w.todo = c :: cs) (hfound : o.Agrees (plan.uncached.solo start w.unit (done ++ [c]))) :
    Worker.Follows plan start { w with todo := cs, phase := .ready, outcome := o }
      (done ++ [c]) :=
  ⟨by simp [h.configurations, htodo], hfound, fun _ hphase => nomatch hphase⟩

/-- Whether the result of a pass comes from the store or not does not show. -/
theorem Worker.Follows.step (hinj : Set.InjOn Digest.fingerprint contents)
    (hplan : plan.Keeps start place) (hunit : Settled contents place start w.unit)
    (halters : Alters (inside place) start tree) (hs : Sound contents place tree)
    (h : w.Follows plan start done) (hw : Worker.Step plan tree w tree' w') :
    (Alters (inside place) start tree' ∧ Sound contents place tree') ∧
      ∃ done', w'.Follows plan start done' := by
  have hlegible : ∀ {c cs}, w.todo = c :: cs → Configuration.Legible c.defines := by
    intro c cs htodo
    refine legible_of_mem_configurations hplan hunit ?_
    simp [h.configurations, htodo]
  cases hw with
  | @hit c cs r hphase htodo hstored =>
    have hrun := analyze_eq_of_stored? hplan hunit halters hinj (hlegible htodo) hs hstored
    rw [← analyze_uncached_eq hplan hunit halters] at hrun
    have hnext := h.concat htodo (agrees_solo_of_ok h.found hrun)
    rw [← hphase] at hnext
    exact ⟨⟨halters, hs⟩, _, { hnext with found := { hnext.found with } }⟩
  | miss hphase _ _ =>
    exact ⟨⟨halters, hs⟩, done, h.configurations, { h.found with }, fun _ h => nomatch h⟩
  | @analyze c cs hphase htodo =>
    refine ⟨⟨halters, hs⟩, done, h.configurations, h.found, fun result hresult => ?_⟩
    refine ⟨c, cs, htodo, ?_⟩
    rw [analyze_uncached_eq hplan hunit halters]
    exact (Phase.analyzed.inj hresult).symm
  | @keep c cs analysis hphase htodo =>
    obtain ⟨c', cs', htodo', hrun⟩ := h.result _ hphase
    obtain ⟨rfl, rfl⟩ := List.cons.inj (htodo.symm.trans htodo')
    have hrun' := hrun.symm
    rw [analyze_uncached_eq hplan hunit halters] at hrun'
    exact ⟨sound_keep hplan hunit halters (hlegible htodo) hs hrun', _,
      h.concat htodo (agrees_solo_of_ok h.found hrun.symm)⟩
  | @fail c cs failure hphase htodo =>
    obtain ⟨c', cs', htodo', hrun⟩ := h.result _ hphase
    obtain ⟨rfl, rfl⟩ := List.cons.inj (htodo.symm.trans htodo')
    exact ⟨⟨halters, hs⟩, _, h.concat htodo (agrees_solo_of_error h.found hrun.symm)⟩

/-- Whether the directory of records is sound, all else as it was, and a worker has found what it
would have found without a store. -/
def Worker.Transparent (contents : Set (List UInt8)) (place : Place) (plan : Plan)
    (start tree : FileTree) (w : Worker) : Prop :=
  (Alters (inside place) start tree ∧ Sound contents place tree) ∧ ∃ done, w.Follows plan start done

theorem invariant_transparent (hinj : Set.InjOn Digest.fingerprint contents)
    (hplan : plan.Keeps start place) (hunits : ∀ unit ∈ units, Settled contents place start unit) :
    Worker.Invariant plan units (Worker.Transparent contents place plan start) where
  step hunit := by
    rintro ⟨⟨halters, hs⟩, done, h⟩ hw
    exact h.step hinj hplan (hunits _ hunit) halters hs hw
  other _ hunit _ := by
    rintro ⟨-, hother⟩ ⟨⟨halters, hs⟩, done, h⟩ hw
    exact ⟨(h.step hinj hplan (hunits _ hunit) halters hs hw).1, hother⟩
  told := by
    rintro tree w ⟨hs, done, h⟩
    exact ⟨hs, done, { h with }⟩

/-- What is taken for granted of a run with a store at a place: its files read the same in normal
spelling, no file of a unit stands in the directory of the store, and all that is read is among
`contents`. -/
structure Proper (contents : Set (List UInt8)) (place : Place) (plan : Plan) (tree : FileTree)
    (files : List Path) : Prop where
  keeps : plan.Keeps tree place
  spelled : ∀ file ∈ files, tree.read file.normalize = tree.read file
  apart : ∀ unit ∈ SourceUnit.loadAll tree plan.includePaths files, ∀ p ∈ unit.files,
    ∀ q, tree.locate p = .ok q → q.dropLast ≠ place
  within : ∀ unit ∈ SourceUnit.loadAll tree plan.includePaths files, ∀ p ∈ unit.files,
    ∀ bytes, tree.read p = .ok bytes → bytes ∈ contents

theorem Proper.settled (h : Proper contents place plan tree files) :
    ∀ unit ∈ SourceUnit.loadAll tree plan.includePaths files, Settled contents place tree unit := by
  intro unit hunit
  obtain ⟨file, hfile, hload⟩ := SourceUnit.exists_load_of_mem_loadAll hunit
  have hloaded := SourceUnit.loadedFrom_of_load hload
  refine ⟨?_, h.apart unit hunit, hloaded.conditionals⟩
  intro d hd
  have hwithin : ∀ bytes, tree.read d.path = .ok bytes → bytes ∈ contents :=
    h.within unit hunit d.path (List.mem_map_of_mem hd)
  rcases List.mem_cons.mp hd with rfl | hd
  · obtain ⟨bytes, hread, hfp⟩ := hloaded.fingerprint
    have hread' : tree.read unit.path = .ok bytes := by
      rw [hloaded.path_eq, h.spelled file hfile, hread]
    exact ⟨hloaded.path_eq ▸ Path.isNormal_normalize file, bytes, hwithin bytes hread', hread', hfp⟩
  · obtain ⟨hnormal, bytes, hread, hfp⟩ := hloaded.dependencies d hd
    exact ⟨hnormal, bytes, hwithin bytes hread, hread, hfp⟩

section Run

variable (hinj : Set.InjOn Digest.fingerprint contents)
  (h : Proper contents place plan tree files) (hs : Sound contents place tree)
  (hrun : Relation.ReflTransGen (Stage.Step plan)
    (.start plan tree (SourceUnit.loadAll tree plan.includePaths files)) s)

include hinj h hs hrun

/-- At each stage of a run the store does not show. -/
theorem Proper.transparent_of_run :
    s.Sound (SourceUnit.loadAll tree plan.includePaths files)
      (Worker.Transparent contents place plan tree) := by
  refine Stage.sound_of_run (invariant_transparent hinj h.keeps h.settled)
    (SourceUnit.nodup_loadAll tree plan.includePaths files) (fun unit _ => ?_) hrun
  exact ⟨⟨.refl _ tree, hs⟩, [], rfl, ⟨rfl, rfl, rfl⟩, fun _ hphase => nomatch hphase⟩

/-- A run leaves the directory of its store sound, and other files as they are. -/
theorem Proper.sound_of_run (hne : SourceUnit.loadAll tree plan.includePaths files ≠ []) :
    Alters (inside place) tree s.tree ∧ Sound contents place s.tree := by
  have hstage := h.transparent_of_run hinj hs hrun
  rw [← hstage.workers, Ne, List.map_eq_nil_iff] at hne
  obtain ⟨w, hw⟩ := List.exists_mem_of_ne_nil s.workers hne
  exact (hstage.holds w hw).1

end Run

/-- The trees that come about when runs share the directory at a place, at whatever stage they are
left. In between files are changed at will, but a file of that directory only to what is no
record. -/
inductive History (contents : Set (List UInt8)) (place : Place) : FileTree → Prop where
  | start {tree : FileTree} :
      (∀ q bytes, q.dropLast = place → tree.node? q = some (.file bytes) →
        Record.decode? bytes = none) → History contents place tree
  | edit {tree tree' : FileTree} : History contents place tree →
      (∀ q bytes, q.dropLast = place → tree'.node? q = some (.file bytes) →
        Record.decode? bytes = none ∨ tree.node? q = some (.file bytes)) →
      History contents place tree'
  | run {tree : FileTree} {plan : Plan} {files : List Path} {s : Stage} :
      History contents place tree → Proper contents place plan tree files →
      SourceUnit.loadAll tree plan.includePaths files ≠ [] →
      Relation.ReflTransGen (Stage.Step plan)
        (.start plan tree (SourceUnit.loadAll tree plan.includePaths files)) s →
      History contents place s.tree

theorem History.sound (hinj : Set.InjOn Digest.fingerprint contents)
    (h : History contents place tree) : Sound contents place tree := by
  induction h with
  | start hnone =>
    intro q bytes r hlast hfile hdecode
    rw [hnone q bytes hlast hfile] at hdecode
    cases hdecode
  | edit _ hedit ih =>
    intro q bytes r hlast hfile hdecode
    rcases hedit q bytes hlast hfile with hnone | hkept
    · rw [hnone] at hdecode
      cases hdecode
    · exact ih q bytes r hlast hkept hdecode
  | run _ hproper hne hrun ih => exact (hproper.sound_of_run hinj ih hrun hne).2

theorem verdict_report_congr {p q : Progress} (facts : Program.Facts)
    (hindex : Plan.inlineIndex p.tree units = Plan.inlineIndex q.tree units)
    (hfindings : p.findings = q.findings) (hconfigurations : p.configurations = q.configurations) :
    (plan.report units p facts).verdict = (plan.uncached.report units q facts).verdict := by
  simp only [Report.verdict, Plan.report, Plan.rawFindings, hindex, hfindings, hconfigurations]
  rfl

/-- A run with a store and one without report the same when their workers are through. -/
theorem Proper.verdict_eq (hinj : Set.InjOn Digest.fingerprint contents)
    (h : Proper contents place plan tree files) (hs : Sound contents place tree)
    (hrun : Relation.ReflTransGen (Stage.Step plan)
      (.start plan tree (SourceUnit.loadAll tree plan.includePaths files)) s)
    (htold : ∀ w ∈ s.workers, w.told = true)
    (hrun' : Relation.ReflTransGen (Stage.Step plan.uncached)
      (.start plan.uncached tree (SourceUnit.loadAll tree plan.includePaths files)) s')
    (htold' : ∀ w ∈ s'.workers, w.told = true) :
    (s.report plan).map Report.verdict = (s'.report plan.uncached).map Report.verdict := by
  have hstage := h.transparent_of_run hinj hs hrun
  have hsharable : plan.uncached.Sharable tree
      (SourceUnit.loadAll tree plan.includePaths files) :=
    ⟨h.keeps.checker, fun unit hunit => readable_files_of_mem_loadAll h.spelled hunit,
      fun store hstore => nomatch hstore⟩
  have hstage' := Stage.onTrack_of_run hsharable
    (SourceUnit.nodup_loadAll tree plan.includePaths files) hrun'
  have hf : ∀ w ∈ s.workers, w.outcome.Agrees (plan.uncached.alone tree w.unit) := by
    intro w hw
    obtain ⟨-, done, hfollows⟩ := hstage.holds w hw
    have hdone : plan.uncached.configurations w.unit = done := by
      have hall := hfollows.configurations
      rwa [(hstage.through w hw (htold w hw)).2, List.append_nil] at hall
    rw [Plan.alone, hdone]
    exact hfollows.found
  have hf' := fun w hw => (hstage'.sameAs_alone htold' (w := w) hw).1.toAgrees
  have hindex : Plan.inlineIndex s.tree (SourceUnit.loadAll tree plan.includePaths files) =
      Plan.inlineIndex s'.tree (SourceUnit.loadAll tree plan.includePaths files) := by
    refine inlineIndex_congr fun unit hunit file hfile => ?_
    have halters := (h.sound_of_run hinj hs hrun (List.ne_nil_of_mem hunit)).1
    rw [(h.settled unit hunit).read_eq halters hfile, hstage'.read_eq hunit hfile]
  have hfacts := hstage.facts_eq hf (fun _ hunit => hstage'.isNormal_alone htold' hunit) htold
    hstage' hf' htold'
  rw [hstage.report_eq_ok htold, hstage'.report_eq_ok htold', ← hfacts]
  refine congrArg Except.ok (verdict_report_congr _ hindex ?_ ?_)
  · rw [hstage.findings_eq hf, hstage'.findings_eq hf']
  · rw [hstage.configurations_eq hf, hstage'.configurations_eq hf']

section Revision

/-- Whether a tree has a file `a.c` with the given bytes in its working directory `w`. -/
structure HasSource (bytes : List UInt8) (tree : FileTree) : Prop where
  base : tree.base = ["w"]
  directory : tree.node? ["w"] = some .directory
  file : tree.node? ["w", "a.c"] = some (.file bytes)

variable {bytes : List UInt8}

theorem HasSource.alters (h : HasSource bytes tree)
    (halters : Alters (inside ["w", "build"]) tree tree') : HasSource bytes tree' where
  base := halters.base.trans h.base
  directory := halters.directories _ h.directory
  file := (halters.files _ _ (by simp [inside])).mpr h.file

theorem HasSource.revise (h : HasSource bytes tree) (newer : List UInt8) :
    HasSource newer (tree.put ["w", "a.c"] (.file newer)) where
  base := h.base
  directory := by
    rw [FileTree.node?_put (by decide), if_neg (by decide), h.directory]
  file := by rw [FileTree.node?_put (by decide), if_pos rfl]

theorem HasSource.locate (h : HasSource bytes tree) :
    tree.locate ⟨"a.c"⟩ = .ok ["w", "a.c"] := by
  have hsteps : (⟨"a.c"⟩ : Path).steps = [.into "a.c"] := by decide
  have horigin : tree.origin ⟨"a.c"⟩ = ["w"] := h.base
  rw [FileTree.locate, if_neg (by decide), hsteps, horigin, FileTree.walk, h.directory]
  rfl

theorem HasSource.read (h : HasSource bytes tree) : tree.read ⟨"a.c"⟩ = .ok bytes :=
  FileTree.read_eq_ok_iff.mpr ⟨_, h.locate, h.file⟩

theorem HasSource.loadAll (h : HasSource bytes tree) (includePaths : List Path)
    (hincludes : (SourceUnit.mentionsOf bytes).includes = []) :
    ∃ unit, SourceUnit.loadAll tree includePaths [⟨"a.c"⟩] = [unit] ∧ unit.files = [⟨"a.c"⟩] := by
  have hnormal : (⟨"a.c"⟩ : Path).normalize = ⟨"a.c"⟩ := by decide
  cases hload : SourceUnit.load tree includePaths ⟨"a.c"⟩ with
  | error e =>
    simp only [SourceUnit.load, h.read] at hload
    cases hload
  | ok unit =>
    refine ⟨unit, by simp [SourceUnit.loadAll, hload, Except.toOption, SourceUnit.dedup], ?_⟩
    simp only [SourceUnit.load, h.read, hincludes, List.map_nil, SourceUnit.follow, hnormal]
      at hload
    cases hload
    rfl

theorem HasSource.proper (h : HasSource bytes tree) (hplan : plan.Keeps tree ["w", "build"])
    (hincludes : (SourceUnit.mentionsOf bytes).includes = []) (hmem : bytes ∈ contents) :
    Proper contents ["w", "build"] plan tree [⟨"a.c"⟩] := by
  obtain ⟨unit, hunits, hfiles⟩ := h.loadAll plan.includePaths hincludes
  refine ⟨hplan, ?_, ?_, ?_⟩
  · intro file hfile
    rw [List.mem_singleton.mp hfile]
    rfl
  all_goals
    intro unit' hunit p hp
    rw [hunits, List.mem_singleton] at hunit
    rw [hunit, hfiles, List.mem_singleton] at hp
    subst hp
  · intro q hq
    rw [← Except.ok.inj (h.locate.symm.trans hq)]
    decide
  · intro bytes' hread
    rwa [← Except.ok.inj (h.read.symm.trans hread)]

theorem HasSource.exists_run_eq (h : HasSource bytes tree)
    (hincludes : (SourceUnit.mentionsOf bytes).includes = []) :
    ∃ report tree', plan.run tree [⟨"a.c"⟩] = .ok (report, tree') := by
  obtain ⟨unit, hunits, -⟩ := h.loadAll plan.includePaths hincludes
  simp [Plan.run, hunits, Plan.advance, Program.Tally.submit, Program.Tally.close]

/-- A tree with one file. -/
def oneFile (bytes : List UInt8) : FileTree :=
  (FileTree.put { base := ["w"] } ["w"] .directory).put ["w", "a.c"] (.file bytes)

theorem node?_oneFile (q : Place) : (oneFile bytes).node? q =
    if q = ["w", "a.c"] then some (.file bytes) else if q = ["w"] then some .directory
    else if q = [] then some .directory else none := by
  rw [oneFile, FileTree.node?_put (by decide), FileTree.node?_put (by decide)]
  rfl

theorem hasSource_oneFile : HasSource bytes (oneFile bytes) where
  base := rfl
  directory := by rw [node?_oneFile]; rfl
  file := by rw [node?_oneFile]; rfl

theorem history_oneFile : History contents ["w", "build"] (oneFile bytes) := by
  apply History.start
  intro q b hlast hfile
  rw [node?_oneFile] at hfile
  split_ifs at hfile with hq
  · rw [hq] at hlast
    cases hlast
  · cases hfile
  · cases hfile

/-- Two versions of a file. -/
def older : List UInt8 := encode "#ifdef A\n#error a\n#endif\n".toList

def newer : List UInt8 := encode "#ifndef A\n#error b\n#endif\n".toList

theorem includes_older : (SourceUnit.mentionsOf older).includes = [] := by decide +kernel

theorem includes_newer : (SourceUnit.mentionsOf newer).includes = [] := by decide +kernel

theorem injOn_fingerprint_versions : Set.InjOn Digest.fingerprint {older, newer} := by
  have hne : Digest.fingerprint older ≠ Digest.fingerprint newer := by decide +kernel
  rintro a (rfl | rfl) b (rfl | rfl) h
  · rfl
  · exact absurd h hne
  · exact absurd h.symm hne
  · rfl

/-- A first check, and a later one with other options. -/
def firstPlan : Plan := Options.plan { buildDir := some ⟨"build"⟩ } {} directives

def laterPlan : Plan :=
  Options.plan
    { buildDir := some ⟨"./build"⟩, defines := ["A"], checker := { level := .reduced } }
    {} directives

theorem keeps_firstPlan (h : HasSource bytes tree) : firstPlan.Keeps tree ["w", "build"] :=
  keeps_plan rfl (by rw [FileTree.placeOf, FileTree.origin, h.base]; rfl)

theorem keeps_laterPlan (h : HasSource bytes tree) : laterPlan.Keeps tree ["w", "build"] :=
  keeps_plan rfl (by rw [FileTree.placeOf, FileTree.origin, h.base]; rfl)

end Revision

/-- Whatever happened before, a run with a store reports what it reports without one, for all orders
in which the workers of the one and of the other take their steps. -/
theorem verdict_gives_eq_uncached (hinj : Set.InjOn Digest.fingerprint contents)
    (hhistory : History contents place tree) (h : Proper contents place plan tree files) :
    plan.Gives tree files ((plan.run tree files).map Prod.fst) ∧
    plan.uncached.Gives tree files ((plan.uncached.run tree files).map Prod.fst) ∧
    ∀ result result', plan.Gives tree files result → plan.uncached.Gives tree files result' →
      result.map Report.verdict = result'.map Report.verdict := by
  refine ⟨plan.gives_run tree files, plan.uncached.gives_run tree files, ?_⟩
  intro result result' hgives hgives'
  cases hgives with
  | noUnits hnil =>
    cases hgives' with
    | noUnits => rfl
    | report hne => exact absurd hnil hne
  | report hne hrun htold =>
    cases hgives' with
    | noUnits hnil => exact absurd hnil hne
    | report _ hrun' htold' => exact h.verdict_eq hinj (hhistory.sound hinj) hrun htold hrun' htold'

/-- A file is checked, revised, and checked again with other options. -/
theorem verdict_gives_of_revised_file : Set.InjOn Digest.fingerprint {older, newer} ∧
    ∃ report tree, firstPlan.run (oneFile older) [⟨"a.c"⟩] = .ok (report, tree) ∧
    History {older, newer} ["w", "build"] (tree.put ["w", "a.c"] (.file newer)) ∧
    Proper {older, newer} ["w", "build"] laterPlan (tree.put ["w", "a.c"] (.file newer)) [⟨"a.c"⟩] ∧
    ∀ result, laterPlan.Gives (tree.put ["w", "a.c"] (.file newer)) [⟨"a.c"⟩] result →
      result.map Report.verdict =
        (laterPlan.uncached.run (tree.put ["w", "a.c"] (.file newer)) [⟨"a.c"⟩]).map
          (fun r => r.1.verdict) := by
  have hsource : HasSource older (oneFile older) := hasSource_oneFile
  have hproper : Proper {older, newer} ["w", "build"] firstPlan (oneFile older) [⟨"a.c"⟩] :=
    hsource.proper (keeps_firstPlan hsource) includes_older (by simp)
  have hstart : History {older, newer} ["w", "build"] (oneFile older) := history_oneFile
  obtain ⟨unit, hunits, -⟩ := hsource.loadAll firstPlan.includePaths includes_older
  have hne : SourceUnit.loadAll (oneFile older) firstPlan.includePaths [⟨"a.c"⟩] ≠ [] := by
    simp [hunits]
  obtain ⟨s, hrun, htold, heq⟩ := firstPlan.exists_stage_of_run hne
  have halters := (hproper.sound_of_run injOn_fingerprint_versions
    (hstart.sound injOn_fingerprint_versions) hrun hne).1
  have hreport := (hproper.transparent_of_run injOn_fingerprint_versions
    (hstart.sound injOn_fingerprint_versions) hrun).report_eq_ok htold firstPlan
  rw [hreport] at heq
  have hrevised := (hsource.alters halters).revise newer
  have hhistory : History {older, newer} ["w", "build"]
      (s.tree.put ["w", "a.c"] (.file newer)) := by
    refine (hstart.run hproper hne hrun).edit ?_
    intro q bytes hlast hfile
    rw [FileTree.node?_put (by decide)] at hfile
    split_ifs at hfile with hq
    · rw [hq] at hlast
      cases hlast
    · exact .inr hfile
  have hlater : Proper {older, newer} ["w", "build"] laterPlan
      (s.tree.put ["w", "a.c"] (.file newer)) [⟨"a.c"⟩] :=
    hrevised.proper (keeps_laterPlan hrevised) includes_newer (by simp)
  refine ⟨injOn_fingerprint_versions, _, s.tree, heq, hhistory, hlater, fun result hresult => ?_⟩
  obtain ⟨-, hgives, hsame⟩ :=
    verdict_gives_eq_uncached injOn_fingerprint_versions hhistory hlater
  rw [hsame result _ hresult hgives]
  cases laterPlan.uncached.run (s.tree.put ["w", "a.c"] (.file newer)) [⟨"a.c"⟩] <;> rfl

end Run

end MacroSweep
