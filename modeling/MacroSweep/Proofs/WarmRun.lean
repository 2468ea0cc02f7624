import MacroSweep.Proofs.Recall
import MacroSweep.Proofs.Reloading
import MacroSweep.Proofs.Transparency

/-! Runs with a warm store. If all passes of a run succeed and their results are stored, the next
run on the same files finds each of them, makes no pass, and reports the same, whatever order the
workers of either take their steps in. -/
namespace MacroSweep.Run

open Cache Checker FileTree

variable {plan : Plan} {store : Store} {tree tree' last : FileTree} {unit : SourceUnit}
  {units : List SourceUnit} {files : List Path} {c : Configuration} {signature : String}
  {analysis : Analysis} {o v : Outcome} {p q : Progress} {r : Record} {w w' : Worker}
  {s t : Stage} {todo rest : List (SourceUnit × Configuration)} {keys : Set (List UInt8)}
  {report : Report}

section Passes

/-- Passes of which each has a result in the store, or else is made, succeeds and has its result
stored. They lead from one tree to another. -/
inductive Plan.Succeeds (plan : Plan) (store : Store) :
    FileTree → List (SourceUnit × Configuration) → FileTree → Prop
  | done (tree : FileTree) : Succeeds plan store tree [] tree
  | found {tree last : FileTree} {unit : SourceUnit} {c : Configuration} {r : Record}
      {rest : List (SourceUnit × Configuration)}
      (hstored : store.lookup tree unit c.signature = some r)
      (hrest : Succeeds plan store tree rest last) :
      Succeeds plan store tree ((unit, c) :: rest) last
  | made {tree tree' last : FileTree} {unit : SourceUnit} {c : Configuration}
      {analysis : Analysis} {rest : List (SourceUnit × Configuration)}
      (hstored : store.lookup tree unit c.signature = none)
      (hrun : plan.analyze tree unit c = .ok analysis) (hfits : analysis.Fits)
      (hsave : store.save tree unit c.signature analysis (plan.ticket unit.path c.signature) =
        .ok tree')
      (hrest : Succeeds plan store tree' rest last) :
      Succeeds plan store tree ((unit, c) :: rest) last

/-- Passes succeed if each does wherever those before it may lead. -/
theorem Plan.exists_succeeds (I : FileTree → Prop) (htree : I tree)
    (hpass : ∀ x ∈ todo, ∀ tree, I tree → ∃ analysis tree',
      plan.analyze tree x.1 x.2 = .ok analysis ∧ analysis.Fits ∧
        store.save tree x.1 x.2.signature analysis (plan.ticket x.1.path x.2.signature) =
          .ok tree' ∧ I tree') :
    ∃ last, plan.Succeeds store tree todo last := by
  induction todo generalizing tree with
  | nil => exact ⟨tree, .done tree⟩
  | cons x todo ih =>
    have hrest := fun y hy => hpass y (List.mem_cons_of_mem x hy)
    cases hstored : store.lookup tree x.1 x.2.signature with
    | some r =>
      obtain ⟨last, hlast⟩ := ih htree hrest
      exact ⟨last, .found hstored hlast⟩
    | none =>
      obtain ⟨analysis, tree', hrun, hfits, hsave, htree'⟩ := hpass x List.mem_cons_self tree htree
      obtain ⟨last, hlast⟩ := ih htree' hrest
      exact ⟨last, .made hstored hrun hfits hsave hlast⟩

/-- A record that is found stays while passes are made. -/
theorem Plan.Succeeds.lookup_eq (h : plan.Succeeds store tree todo last)
    (hkeys : ∀ x ∈ todo, Digest.fingerprint (Store.keyBytes unit.path signature) =
      Digest.fingerprint (Store.keyBytes x.1.path x.2.signature) →
      unit = x.1 ∧ signature = x.2.signature)
    (hr : store.lookup tree unit signature = some r) :
    store.lookup last unit signature = some r := by
  induction h with
  | done => exact hr
  | found _ _ ih => exact ih (fun x hx => hkeys x (List.mem_cons_of_mem _ hx)) hr
  | made hstored _ _ hsave _ ih =>
    refine ih (fun x hx => hkeys x (List.mem_cons_of_mem _ hx)) (lookup_of_save_ne hr hsave ?_)
    intro hkey
    -- The pass has no record yet, so it is not the one whose record was found.
    obtain ⟨rfl, rfl⟩ := hkeys _ List.mem_cons_self hkey
    cases hstored.symm.trans hr

/-- In the end each pass has a record. -/
theorem Plan.Succeeds.exists_lookup (h : plan.Succeeds store tree todo last)
    (hkeys : KeysTell todo) :
    ∀ x ∈ todo, ∃ r, store.lookup last x.1 x.2.signature = some r := by
  induction h with
  | done => exact fun x hx => absurd hx List.not_mem_nil
  | found hstored hrest ih =>
    intro x hx
    rcases List.mem_cons.mp hx with rfl | hx
    · exact ⟨_, hrest.lookup_eq (fun y hy => hkeys _ List.mem_cons_self y
        (List.mem_cons_of_mem _ hy)) hstored⟩
    · exact ih (hkeys.subset (List.subset_cons_self _ _)) x hx
  | made hstored hrun hfits hsave hrest ih =>
    intro x hx
    rcases List.mem_cons.mp hx with rfl | hx
    · exact ⟨_, hrest.lookup_eq (fun y hy => hkeys _ List.mem_cons_self y
        (List.mem_cons_of_mem _ hy)) (lookup_of_save hsave hfits)⟩
    · exact ih (hkeys.subset (List.subset_cons_self _ _)) x hx

end Passes

section Warm

/-- The plan with other passes. A run that makes none is the same with any. -/
def Plan.withPasses (plan : Plan)
    (analyze : Pass → Template.Guard → Except Failure (Analysis × Template.Guard)) : Plan :=
  { plan with checker := { plan.checker with analyze } }

variable (analyze : Pass → Template.Guard → Except Failure (Analysis × Template.Guard))

/-- An outcome that was taken from the store at a tree, and tells the same as another. -/
structure Outcome.Warms (last : FileTree) (o v : Outcome) : Prop where
  findings : v.findings = o.findings
  facts : v.facts = o.facts
  configurations : v.configurations = o.configurations
  tree : v.tree = last
  misses : v.misses = 0

theorem Outcome.Warms.add (h : o.Warms last v) (findings : List Finding) (facts : Program.Facts) :
    (o.add findings facts).Warms last (v.add findings facts) :=
  { h with
    findings := congrArg (· ++ findings) h.findings
    facts := congrArg (Program.Facts.merge · facts) h.facts }

/-- A configuration whose pass succeeds has its result in the store later on. -/
theorem Outcome.Warms.checkConfiguration (hcache : plan.cache = some store)
    (hkeys : KeysTell ((unit, c) :: rest)) (h : o.Warms last v)
    (hpasses : plan.Succeeds store o.tree ((unit, c) :: rest) last) :
    (plan.checkConfiguration unit o c).Warms last
        ((plan.withPasses analyze).checkConfiguration unit v c) ∧
      plan.Succeeds store (plan.checkConfiguration unit o c).tree rest last := by
  have hcache' : (plan.withPasses analyze).cache = some store := hcache
  have hself : ∀ x ∈ rest, _ := fun x hx =>
    hkeys (unit, c) List.mem_cons_self x (List.mem_cons_of_mem _ hx)
  have hwarm : ∀ {r}, store.lookup last unit c.signature = some r →
      (plan.withPasses analyze).checkConfiguration unit v c =
        { v.add r.findings r.facts with hits := v.hits + 1 } := by
    intro r hr
    rw [Plan.checkConfiguration_of_stored]
    rw [stored?_eq_lookup hcache', h.tree, hr]
  cases hpasses with
  | found hstored hrest =>
    rw [hwarm (hrest.lookup_eq hself hstored), Plan.checkConfiguration_of_stored
      ((stored?_eq_lookup hcache o.tree unit c.signature).trans hstored)]
    exact ⟨{ h.add _ _ with }, hrest⟩
  | made hstored hrun hfits hsave hrest =>
    rw [hwarm (hrest.lookup_eq hself (lookup_of_save hsave hfits)), Plan.checkConfiguration_of_ok
      ((stored?_eq_lookup hcache o.tree unit c.signature).trans hstored) hrun,
      Plan.keep_eq hcache, keep_of_save hsave]
    exact ⟨{ h.add _ _ with }, hrest⟩

theorem Outcome.Warms.foldl (hcache : plan.cache = some store) (cs : List Configuration)
    (hkeys : KeysTell (cs.map (fun c => (unit, c)) ++ rest)) (h : o.Warms last v)
    (hpasses : plan.Succeeds store o.tree (cs.map (fun c => (unit, c)) ++ rest) last) :
    (cs.foldl (plan.checkConfiguration unit) o).Warms last
        (cs.foldl ((plan.withPasses analyze).checkConfiguration unit) v) ∧
      plan.Succeeds store (cs.foldl (plan.checkConfiguration unit) o).tree rest last := by
  induction cs generalizing o v with
  | nil => exact ⟨h, hpasses⟩
  | cons c cs ih =>
    obtain ⟨hnext, hrest⟩ := h.checkConfiguration analyze hcache hkeys hpasses
    exact ih (hkeys.subset (List.subset_cons_self _ _)) hnext hrest

/-- What units have given, taken from the store at a tree. -/
structure Progress.Warms (last : FileTree) (p q : Progress) : Prop where
  tally : q.tally = p.tally
  findings : q.findings = p.findings
  configurations : q.configurations = p.configurations
  tree : q.tree = last
  misses : q.misses = 0

theorem Progress.Warms.advance (hcache : plan.cache = some store)
    (hkeys : KeysTell (plan.passes (unit :: units))) (h : p.Warms last q)
    (hpasses : plan.Succeeds store p.tree (plan.passes (unit :: units)) last) :
    (plan.advance p unit).Warms last ((plan.withPasses analyze).advance q unit) ∧
      plan.Succeeds store (plan.advance p unit).tree (plan.passes units) last := by
  have hstart : Outcome.Warms last
      { tree := p.tree, configurations := (plan.configurations unit).length }
      { tree := q.tree, configurations := (plan.configurations unit).length } :=
    ⟨rfl, rfl, rfl, h.tree, rfl⟩
  obtain ⟨hunit, hrest⟩ := hstart.foldl analyze hcache (plan.configurations unit) hkeys
    hpasses
  refine ⟨?_, hrest⟩
  exact {
    tally := congrArg₂ Program.Tally.submit h.tally hunit.facts
    findings := congrArg₂ (· ++ ·) h.findings (congrArg Finding.dedup hunit.findings)
    configurations := congrArg₂ (· + ·) h.configurations hunit.configurations
    tree := hunit.tree
    misses := congrArg₂ (· + ·) h.misses hunit.misses }

/-- The units of a run, checked again. -/
theorem Progress.Warms.foldl (hcache : plan.cache = some store)
    (hkeys : KeysTell (plan.passes units)) (h : p.Warms last q)
    (hpasses : plan.Succeeds store p.tree (plan.passes units) last) :
    (units.foldl plan.advance p).Warms last
        (units.foldl (plan.withPasses analyze).advance q) ∧
      (units.foldl plan.advance p).tree = last := by
  induction units generalizing p q with
  | nil =>
    cases hpasses
    exact ⟨h, rfl⟩
  | cons unit units ih =>
    obtain ⟨hnext, hrest⟩ := h.advance analyze hcache hkeys hpasses
    exact ih (hkeys.subset (List.subset_append_right _ _)) hnext hrest

/-- The report is the same, with hits in place of misses. -/
theorem report_withPasses (htree : q.tree = p.tree) (hfindings : q.findings = p.findings)
    (hconfigurations : q.configurations = p.configurations) (hmisses : q.misses = 0)
    (hhits : q.hits + q.misses = q.configurations) (units : List SourceUnit)
    (facts : Program.Facts) :
    (plan.withPasses analyze).report units q facts =
      { plan.report units p facts with cacheHits := p.configurations, cacheMisses := 0 } := by
  have hraw : ∀ index, (plan.withPasses analyze).rawFindings q facts index =
      plan.rawFindings p facts index := by
    intro index
    rw [Plan.rawFindings, hfindings]
    rfl
  have hcount : q.hits = p.configurations := by
    rw [← hconfigurations, ← hhits, hmisses, Nat.add_zero]
  simp only [Plan.report, hraw, htree, hconfigurations, hcount, hmisses]
  rfl

/-- A stage that has all from the records which the workers of another have left reports the same as
that, with hits in place of misses, if the facts are in normal spelling. -/
theorem Stage.Sound.report_of_warm (hne : units ≠ [])
    (hs : s.Sound units fun tree w => ∃ done, w.Recalls plan tree done)
    (htold : ∀ w ∈ s.workers, w.told = true)
    (ht : t.Sound units (Worker.Warm (plan.withPasses analyze) s.tree))
    (htold' : ∀ w ∈ t.workers, w.told = true)
    (hhits : t.progress.hits + t.progress.misses = t.progress.configurations) :
    t.progress.configurations = s.progress.configurations ∧
    ((∀ w ∈ s.workers, w.outcome.facts.IsNormal) →
      (plan.withPasses analyze).report units t.progress t.tally.facts =
        { plan.report units s.progress s.tally.facts with
          cacheHits := s.progress.configurations
          cacheMisses := 0 }) := by
  have htree : t.tree = s.tree := by
    rw [← ht.workers, Ne, List.map_eq_nil_iff] at hne
    obtain ⟨w, hw⟩ := List.exists_mem_of_ne_nil t.workers hne
    exact (ht.holds w hw).1
  let f := fun unit => plan.recall s.tree unit (plan.configurations unit)
  have hf : ∀ w ∈ s.workers, w.outcome.Agrees (f w.unit) := fun w hw =>
    (hs.agrees_recall htold hw).1
  have hf' : ∀ w ∈ t.workers, w.outcome.Agrees (f w.unit) := by
    intro w hw
    have hagrees := (ht.recalls.agrees_recall htold' hw).1
    rw [htree] at hagrees
    exact hagrees
  have hconfigurations : t.progress.configurations = s.progress.configurations := by
    rw [ht.configurations_eq hf', hs.configurations_eq hf]
  refine ⟨hconfigurations, fun hnormal => ?_⟩
  have hnormal' : ∀ unit ∈ units, (f unit).facts.IsNormal := by
    intro unit hunit
    rw [← hs.workers] at hunit
    obtain ⟨w, hw, rfl⟩ := List.mem_map.mp hunit
    rw [← (hf w hw).facts]
    exact hnormal w hw
  rw [ht.facts_eq hf' hnormal' htold' hs hf htold]
  refine report_withPasses analyze htree ?_ hconfigurations ht.misses_eq_zero hhits units _
  rw [ht.findings_eq hf', hs.findings_eq hf]

end Warm

theorem run_eq_ok_iff : plan.run tree files = .ok (report, tree') ↔
    ∃ units p facts, SourceUnit.loadAll tree plan.includePaths files = units ∧ units ≠ [] ∧
      units.foldl plan.advance { tree, tally := { expected := units.length } } = p ∧
      p.tally.close = .ok facts ∧ plan.report units p facts = report ∧ p.tree = tree' := by
  rw [Plan.run]
  dsimp only
  split
  · next hempty =>
    refine ⟨fun h => absurd h (by simp), ?_⟩
    rintro ⟨units, p, facts, rfl, hne, -⟩
    exact absurd (List.isEmpty_iff.mp hempty) hne
  · next hunits =>
    constructor
    · intro h
      split at h
      · next facts hclose =>
        obtain ⟨hreport, htree⟩ := Prod.mk.inj (Except.ok.inj h)
        exact ⟨_, _, facts, rfl, mt List.isEmpty_iff.mpr hunits, rfl, hclose, hreport, htree⟩
      · cases h
    · rintro ⟨units, p, facts, rfl, -, rfl, hclose, rfl, rfl⟩
      rw [hclose]

/-- A run alters nothing but files in the directory of its store. -/
theorem alters_run (hcache : plan.cache = some store)
    (hrun : plan.run tree files = .ok (report, tree')) :
    Alters (inside (tree.placeOf store.directory)) tree tree' := by
  obtain ⟨units, -, -, hunits, hne, -⟩ := run_eq_ok_iff.mp hrun
  obtain ⟨s, hsteps, -, heq⟩ := plan.exists_stage_of_run (hunits ▸ hne)
  rw [hrun] at heq
  cases hreport : s.report plan with
  | error e =>
    rw [hreport] at heq
    cases heq
  | ok report' =>
    rw [hreport] at heq
    obtain ⟨-, rfl⟩ := Prod.mk.inj (Except.ok.inj heq)
    exact Stage.alters_of_run hcache hsteps

section Next

variable (hcache : plan.cache = some store) (hwf : tree.WellFormed)
  (hbefore : SourceUnit.Orderly store plan.includePaths files tree)
  (htell : KeysTell (plan.passes (SourceUnit.loadAll tree plan.includePaths files)))

include hcache hwf hbefore htell

/-- The run after one that checked its units one after another. -/
theorem run_of_succeeds (hafter : SourceUnit.Orderly store plan.includePaths files tree')
    (hpasses : plan.Succeeds store tree
      (plan.passes (SourceUnit.loadAll tree plan.includePaths files)) last)
    (hrun : plan.run tree files = .ok (report, tree')) :
    (∀ analyze, (plan.withPasses analyze).run tree' files =
      .ok ({ report with cacheHits := report.configurationsChecked, cacheMisses := 0 }, tree')) ∧
    ∀ analyze result, (plan.withPasses analyze).Gives tree' files result →
      ∃ warm, result = .ok warm ∧ warm.cacheMisses = 0 ∧
        warm.cacheHits = warm.configurationsChecked := by
  obtain ⟨units, p, facts, hunits, hne, hp, hclose, rfl, rfl⟩ := run_eq_ok_iff.mp hrun
  rw [hunits] at hpasses htell
  have hwarms : ∀ analyze, p.Warms last (units.foldl (plan.withPasses analyze).advance
      { tree := last, tally := { expected := units.length } }) ∧ p.tree = last := by
    intro analyze
    have hstart : Progress.Warms last { tree, tally := { expected := units.length } }
        { tree := last, tally := { expected := units.length } } := ⟨rfl, rfl, rfl, rfl, rfl⟩
    rw [← hp]
    exact hstart.foldl analyze hcache htell hpasses
  obtain ⟨-, hlast⟩ := hwarms plan.checker.analyze
  have hreloads : SourceUnit.Reloads store plan.includePaths files tree p.tree :=
    ⟨hwf, alters_run hcache hrun, hbefore, hafter⟩
  have hunits' : SourceUnit.loadAll last plan.includePaths files = units := by
    rw [← hlast, hreloads.loadAll_eq, hunits]
  rw [hlast]
  refine ⟨fun analyze => ?_, fun analyze result hgives => ?_⟩
  · obtain ⟨hwarm, -⟩ := hwarms analyze
    have hclose' := (congrArg Program.Tally.close hwarm.tally).trans hclose
    have hrun' : (plan.withPasses analyze).run last files = _ :=
      run_eq_ok_iff.mpr ⟨units, _, facts, hunits', hne, rfl, hclose', rfl, hwarm.tree⟩
    have hhits := hits_add_misses_of_gives (gives_of_run_eq_ok hrun')
    rw [hrun', report_withPasses analyze (hwarm.tree.trans hlast.symm) hwarm.findings
      hwarm.configurations hwarm.misses hhits]
    rfl
  · refine hgives.misses_eq_zero hunits' hne fun u hu c hc => ?_
    obtain ⟨r, hr⟩ := hpasses.exists_lookup htell (u, c) (Plan.mem_passes_iff.mpr ⟨hu, hc⟩)
    exact ⟨r, (stored?_eq_lookup hcache last u c.signature).trans hr⟩

/-- The run after one whose workers took their steps in any order. -/
theorem gives_of_succeeds (hafter : SourceUnit.Orderly store plan.includePaths files s.tree)
    (hne : SourceUnit.loadAll tree plan.includePaths files ≠ [])
    (hrun : Relation.ReflTransGen (Stage.Succeeds plan store)
      (.start plan tree (SourceUnit.loadAll tree plan.includePaths files)) s)
    (htold : ∀ w ∈ s.workers, w.told = true) :
    ∃ report, s.report plan = .ok report ∧
      ∀ analyze result, (plan.withPasses analyze).Gives s.tree files result →
        ∃ warm, result = .ok warm ∧ warm.cacheMisses = 0 ∧
          warm.cacheHits = warm.configurationsChecked ∧
          warm.configurationsChecked = report.configurationsChecked ∧
          ((∀ w ∈ s.workers, w.outcome.facts.IsNormal) →
            warm = { report with
              cacheHits := report.configurationsChecked
              cacheMisses := 0 }) := by
  have hnodup := SourceUnit.nodup_loadAll tree plan.includePaths files
  have hs := Stage.recalls_of_run hcache htell hnodup hrun
  have hsteps : Relation.ReflTransGen (Stage.Step plan) _ s :=
    Relation.ReflTransGen.mono (fun _ _ => Stage.Succeeds.step) _ _ hrun
  have hreloads : SourceUnit.Reloads store plan.includePaths files tree s.tree :=
    ⟨hwf, Stage.alters_of_run hcache hsteps, hbefore, hafter⟩
  refine ⟨_, hs.report_eq_ok htold plan, fun analyze result hgives => ?_⟩
  have hunits : SourceUnit.loadAll s.tree (plan.withPasses analyze).includePaths files =
      SourceUnit.loadAll tree plan.includePaths files := hreloads.loadAll_eq
  cases hgives with
  | noUnits hnil => exact absurd (hunits.symm.trans hnil) hne
  | report _ hrun' htold' =>
    rw [hunits] at hrun'
    have hfound : ∀ u ∈ SourceUnit.loadAll tree plan.includePaths files,
        ∀ c ∈ (plan.withPasses analyze).configurations u,
        ∃ r, (plan.withPasses analyze).stored? s.tree u c.signature = some r :=
      fun u hu c hc => hs.exists_stored htold hu hc
    have ht := Stage.warm_of_run hnodup hfound hrun'
    have hhits := (Stage.counted_of_run hnodup hrun').hits_add_misses htold'
    obtain ⟨hconfigurations, hreport⟩ := hs.report_of_warm analyze hne htold ht htold' hhits
    have hmisses := ht.misses_eq_zero
    refine ⟨_, ht.report_eq_ok htold' _, hmisses, ?_, hconfigurations, hreport⟩
    rwa [hmisses, Nat.add_zero] at hhits

end Next

section Built

/-- Whether a tree has the file `a.c` and a directory `build` with nothing but files in it. -/
structure HasBuild (tree : FileTree) : Prop where
  source : HasSource older tree
  build : tree.node? ["w", "build"] = some .directory
  records : ∀ name, tree.node? ["w", "build", name] ≠ some .directory

/-- A file that is checked under two configurations, and an empty directory for the results. -/
def builtTree : FileTree := (oneFile older).put ["w", "build"] .directory

theorem node?_builtTree (q : Place) : builtTree.node? q =
    if q = ["w", "build"] then some .directory else if q = ["w", "a.c"] then some (.file older)
    else if q = ["w"] then some .directory else if q = [] then some .directory else none := by
  rw [builtTree, FileTree.node?_put (by decide), node?_oneFile]

theorem hasBuild_builtTree : HasBuild builtTree where
  source := ⟨rfl, by simp [node?_builtTree], by simp [node?_builtTree]⟩
  build := by simp [node?_builtTree]
  records := by simp [node?_builtTree]

theorem wellFormed_builtTree : builtTree.WellFormed where
  base := hasBuild_builtTree.source.directory
  entries q name node hnode := by
    have hnames : ∀ name ∈ ["build", "a.c", "w"], FileTree.IsFileName name.toList := by
      unfold FileTree.IsFileName
      decide
    rw [node?_builtTree] at hnode
    have hlast : ∀ q' name', q ++ [name] = q' ++ [name'] → q = q' ∧ name = name' := fun _ _ h =>
      (List.append_inj' h rfl).imp id List.singleton_inj.mp
    split_ifs at hnode with h h h h
    · obtain ⟨rfl, rfl⟩ := hlast ["w"] "build" h
      exact ⟨hasBuild_builtTree.source.directory, hnames _ (by decide)⟩
    · obtain ⟨rfl, rfl⟩ := hlast ["w"] "a.c" h
      exact ⟨hasBuild_builtTree.source.directory, hnames _ (by decide)⟩
    · obtain ⟨rfl, rfl⟩ := hlast [] "w" h
      exact ⟨rfl, hnames _ (by decide)⟩
    · simp at h

/-- The file includes none, so no other is asked for. -/
theorem asked_eq {includePaths : List Path} {path : Path} (h : HasSource older tree)
    (hasked : SourceUnit.Asked tree includePaths [⟨"a.c"⟩] path) : path = ⟨"a.c"⟩ := by
  induction hasked with
  | input hfile => exact List.mem_singleton.mp hfile
  | included _ hread htarget _ ih =>
    have hnormal : (⟨"a.c"⟩ : Path).normalize = ⟨"a.c"⟩ := by decide
    rw [ih, hnormal, h.read] at hread
    rw [← Except.ok.inj hread, includes_older] at htarget
    cases htarget

theorem HasSource.placeOf_build (h : HasSource older tree) :
    tree.placeOf buildStore.directory = ["w", "build"] := by
  rw [FileTree.placeOf, FileTree.origin, h.base]
  rfl

theorem orderly_of_hasSource (h : HasSource older tree) (includePaths : List Path) :
    SourceUnit.Orderly buildStore includePaths [⟨"a.c"⟩] tree := by
  have hnormal : (⟨"a.c"⟩ : Path).normalize = ⟨"a.c"⟩ := by decide
  refine ⟨fun path hasked => ?_, fun path hasked => ?_⟩
  · rw [asked_eq h hasked, hnormal]
  · rw [asked_eq h hasked, hnormal]
    intro q bytes hq _ hplace
    rw [← Except.ok.inj (h.locate.symm.trans hq), h.placeOf_build] at hplace
    cases hplace

theorem HasBuild.exists_save (h : HasBuild tree) (unit : SourceUnit) (signature : String)
    (analysis : Analysis) :
    ∃ tree', buildStore.save tree unit signature analysis = .ok tree' ∧ HasBuild tree' := by
  have hname : IsFileName buildStore.directory.text.toList := by
    unfold IsFileName
    decide
  have hroot : tree.node? tree.base = some .directory := by
    rw [h.source.base]
    exact h.source.directory
  have hbuild : tree.node? (tree.base ++ [buildStore.directory.text]) = some .directory := by
    rw [h.source.base]
    exact h.build
  have hfree : ∀ name, tree.node? (tree.base ++ [buildStore.directory.text, name]) ≠
      some .directory := by
    rw [h.source.base]
    exact h.records
  have hsave := (save_of_directory buildStore unit signature analysis {} hname hroot hbuild
    (hfree _) (by decide)).1 (hfree _)
  have halters := (alters_of_save hsave).mono (touched_subset _ _ _ _ _)
  rw [h.source.placeOf_build] at halters
  refine ⟨_, hsave, h.source.alters halters, halters.directories _ h.build, fun name => ?_⟩
  rw [Ne, node?_transfer_eq_directory_iff (hfree _) (hfree _)]
  exact h.records name

def olderUnit : SourceUnit := ⟨⟨"a.c"⟩, Digest.fingerprint older, [], .ofList ["A"]⟩

theorem loadAll_olderUnit (h : HasSource older tree) :
    SourceUnit.loadAll tree firstPlan.includePaths [⟨"a.c"⟩] = [olderUnit] := by
  have hmentions : SourceUnit.mentionsOf older = ⟨.ofList ["A"], ∅, []⟩ := by decide +kernel
  have hload : SourceUnit.load tree firstPlan.includePaths ⟨"a.c"⟩ = .ok olderUnit := by
    simp only [SourceUnit.load, h.read, hmentions, List.map_nil, SourceUnit.follow]
    rfl
  simp [SourceUnit.loadAll, hload, Except.toOption, SourceUnit.dedup]

theorem signature_olderUnit :
    ∀ c ∈ firstPlan.configurations olderUnit, c.signature = "" ∨ c.signature = "A=1" := by
  decide +kernel

/-- The error under the second configuration. -/
def guardedError : Finding where
  id := "preprocessorErrorDirective"
  severity := .error
  location := ⟨⟨"a.c"⟩, 2, 1⟩
  message := "#error a"

theorem run_olderUnit : ∀ c ∈ firstPlan.configurations olderUnit,
    directives.run ⟨oneFile older, olderUnit, c, {}⟩ =
      .ok { findings := if c.defines = ∅ then [] else [guardedError]
            facts := { uses := .ofList ["A"] } } := by
  decide +kernel

/-- Each pass over the file succeeds. -/
theorem HasBuild.exists_analyze (h : HasBuild tree) (hc : c ∈ firstPlan.configurations olderUnit) :
    ∃ analysis, firstPlan.analyze tree olderUnit c = .ok analysis ∧ analysis.Fits := by
  have hagree : Walk.Agree ⟨tree, olderUnit, c, {}⟩ ⟨oneFile older, olderUnit, c, {}⟩ := by
    refine ⟨rfl, rfl, rfl, fun file hfile => ?_, rfl⟩
    rw [List.mem_singleton.mp hfile]
    exact h.source.read.trans hasSource_oneFile.read.symm
  have hrun : firstPlan.analyze tree olderUnit c = _ :=
    (run_directives_congr hagree).trans (run_olderUnit c hc)
  refine ⟨_, hrun, fun f hf => ?_, fun e he => absurd he List.not_mem_nil⟩
  split_ifs at hf
  · cases hf
  · rw [List.mem_singleton.mp hf]
    exact ⟨⟨by decide, by decide⟩, fun n hn => absurd hn List.not_mem_nil⟩

theorem exists_succeeds_builtTree : ∃ last,
    firstPlan.Succeeds buildStore builtTree (firstPlan.passes [olderUnit]) last := by
  refine Plan.exists_succeeds HasBuild hasBuild_builtTree fun x hx tree htree => ?_
  obtain ⟨unit, c⟩ := x
  obtain ⟨hunit, hc⟩ := Plan.mem_passes_iff.mp hx
  obtain rfl := List.mem_singleton.mp hunit
  obtain ⟨analysis, hrun, hfits⟩ := htree.exists_analyze hc
  obtain ⟨tree', hsave, htree'⟩ := htree.exists_save olderUnit c.signature analysis
  exact ⟨analysis, tree', hrun, hfits, hsave, htree'⟩

theorem cache_firstPlan : firstPlan.cache = some buildStore := rfl

/-- Whether a worker that checks the file has no pass that failed. -/
def Worker.Checks (tree : FileTree) (w : Worker) : Prop :=
  HasBuild tree ∧ w.unit = olderUnit ∧ w.todo ⊆ firstPlan.configurations olderUnit ∧
    ∀ result, w.phase = .analyzed result → ∃ analysis, result = .ok analysis ∧ analysis.Fits

theorem Worker.Checks.stores (h : w.Checks tree) : w.Stores firstPlan buildStore tree := by
  intro c cs result htodo hphase
  obtain ⟨hbuild, -, -, hresult⟩ := h
  obtain ⟨analysis, rfl, hfits⟩ := hresult result hphase
  obtain ⟨tree', hsave, -⟩ := hbuild.exists_save w.unit c.signature analysis
  exact ⟨analysis, tree', rfl, hfits, hsave⟩

theorem invariant_checks : Worker.Invariant firstPlan [olderUnit] Worker.Checks where
  step := by
    rintro tree tree' w w' - ⟨hbuild, hunit, htodo, hresult⟩ hw
    have hrest : ∀ {c cs}, w.todo = c :: cs → cs ⊆ firstPlan.configurations olderUnit := by
      intro c cs heq
      rw [heq] at htodo
      exact (List.cons_subset.mp htodo).2
    cases hw with
    | hit hphase heq _ => exact ⟨hbuild, hunit, hrest heq, hresult⟩
    | miss => exact ⟨hbuild, hunit, htodo, fun _ hphase => nomatch hphase⟩
    | @analyze c cs hphase heq =>
      refine ⟨hbuild, hunit, htodo, fun result hphase => ?_⟩
      have hc : c ∈ firstPlan.configurations olderUnit := htodo (heq ▸ List.mem_cons_self)
      obtain ⟨analysis, hrun, hfits⟩ := hbuild.exists_analyze hc
      rw [← hunit] at hrun
      exact ⟨analysis, (Phase.analyzed.inj hphase).symm.trans hrun, hfits⟩
    | @keep c cs analysis hphase heq =>
      obtain ⟨tree', hsave, hbuild'⟩ := hbuild.exists_save w.unit c.signature analysis
      have hkeep : firstPlan.keep tree w.unit c.signature analysis = tree' :=
        (Plan.keep_eq cache_firstPlan _ _ _ _).trans (keep_of_save hsave)
      rw [hkeep]
      exact ⟨hbuild', hunit, hrest heq, fun _ hphase => nomatch hphase⟩
    | fail _ heq => exact ⟨hbuild, hunit, hrest heq, fun _ hphase => nomatch hphase⟩
  other hunit hother hne := by
    rw [List.mem_singleton.mp hunit, List.mem_singleton.mp hother] at hne
    exact absurd rfl hne
  told h := h

theorem sharable_builtTree : firstPlan.Sharable builtTree [olderUnit] where
  checker := rfl
  files := by
    have hunits := loadAll_olderUnit hasBuild_builtTree.source
    have hspelled : ∀ file ∈ [(⟨"a.c"⟩ : Path)], builtTree.read file.normalize =
        builtTree.read file := by
      intro file hfile
      rw [List.mem_singleton.mp hfile]
      rfl
    intro u hu
    exact readable_files_of_mem_loadAll hspelled (hunits ▸ hu)
  store := by
    rintro store hstore
    obtain rfl : buildStore = store := Option.some.inj hstore
    refine Plan.apart_of_no_files (fun q bytes hnode => ?_) (fun u hu file hfile => ?_) ?_
    · rw [hasBuild_builtTree.source.placeOf_build]
      rw [node?_builtTree] at hnode
      split_ifs at hnode with h h h h
      · cases hnode
      · rw [h]
        decide
      · cases hnode
      · cases hnode
    · rw [List.mem_singleton.mp hu] at hfile
      rw [List.mem_singleton.mp hfile]
      exact ⟨older, hasBuild_builtTree.source.read⟩
    · intro u hu v hv _ _ _ _ _
      rw [List.mem_singleton.mp hu, List.mem_singleton.mp hv]

theorem keys_olderUnit : ∀ x ∈ firstPlan.passes [olderUnit],
    Store.keyBytes x.1.path x.2.signature ∈
        ({firstEntry.keyBytes, otherEntry.keyBytes} : Set (List UInt8)) ∧
      '\x00' ∉ x.1.path.text.toList := by
  intro ⟨unit, c⟩ hx
  obtain ⟨hunit, hc⟩ := Plan.mem_passes_iff.mp hx
  obtain rfl := List.mem_singleton.mp hunit
  have hpath : '\x00' ∉ olderUnit.path.text.toList := by decide
  refine ⟨?_, hpath⟩
  rcases signature_olderUnit c hc with hsignature | hsignature
  · exact .inl (by rw [hsignature]; rfl)
  · exact .inr (by rw [hsignature]; rfl)

end Built

/-- After a run whose passes all succeed and whose results are all stored, the next run makes no
pass and reports the same, with hits in place of misses. This is so for runs that check their units
one after another, and for all orders in which the workers of the first run and of the next take
their steps. -/
theorem run_of_warm_store (hcache : plan.cache = some store)
    (hinj : Set.InjOn Digest.fingerprint keys) (hwf : tree.WellFormed)
    (hbefore : SourceUnit.Orderly store plan.includePaths files tree)
    (hkeys : ∀ x ∈ plan.passes (SourceUnit.loadAll tree plan.includePaths files),
      Store.keyBytes x.1.path x.2.signature ∈ keys ∧ '\x00' ∉ x.1.path.text.toList) :
    (∀ last report tree', SourceUnit.Orderly store plan.includePaths files tree' →
      plan.Succeeds store tree
        (plan.passes (SourceUnit.loadAll tree plan.includePaths files)) last →
      plan.run tree files = .ok (report, tree') →
      (∀ analyze, (plan.withPasses analyze).run tree' files =
        .ok ({ report with cacheHits := report.configurationsChecked, cacheMisses := 0 }, tree')) ∧
      ∀ analyze result, (plan.withPasses analyze).Gives tree' files result →
        ∃ warm, result = .ok warm ∧ warm.cacheMisses = 0 ∧
          warm.cacheHits = warm.configurationsChecked) ∧
    (∀ s, SourceUnit.loadAll tree plan.includePaths files ≠ [] →
      Relation.ReflTransGen (Stage.Succeeds plan store)
        (.start plan tree (SourceUnit.loadAll tree plan.includePaths files)) s →
      (∀ w ∈ s.workers, w.told = true) →
      SourceUnit.Orderly store plan.includePaths files s.tree →
      ∃ report, s.report plan = .ok report ∧
        ∀ analyze result, (plan.withPasses analyze).Gives s.tree files result →
          ∃ warm, result = .ok warm ∧ warm.cacheMisses = 0 ∧
            warm.cacheHits = warm.configurationsChecked ∧
            warm.configurationsChecked = report.configurationsChecked ∧
            ((∀ w ∈ s.workers, w.outcome.facts.IsNormal) →
              warm = { report with
                cacheHits := report.configurationsChecked
                cacheMisses := 0 })) ∧
    ∀ (plan : Plan) tree files (report : Report), plan.Gives tree files (.ok report) →
      report.cacheHits + report.cacheMisses = report.configurationsChecked := by
  have htell := keysTell_passes hinj rfl hkeys
  refine ⟨fun last report tree' hafter hpasses hrun => ?_, fun s hne hrun htold hafter => ?_,
    fun plan tree files report => hits_add_misses_of_gives⟩
  · exact run_of_succeeds hcache hwf hbefore htell hafter hpasses hrun
  · exact gives_of_succeeds hcache hwf hbefore htell hafter hne hrun htold

/-- A file is checked under two configurations, and then once more. -/
theorem run_of_checked_file : builtTree.WellFormed ∧
    Set.InjOn Digest.fingerprint {firstEntry.keyBytes, otherEntry.keyBytes} ∧
    SourceUnit.Orderly buildStore [] [⟨"a.c"⟩] builtTree ∧
    (firstPlan.passes [olderUnit]).length = 2 ∧
    (∃ last, firstPlan.Succeeds buildStore builtTree (firstPlan.passes [olderUnit]) last) ∧
    (∃ report tree, firstPlan.run builtTree [⟨"a.c"⟩] = .ok (report, tree) ∧
      SourceUnit.Orderly buildStore [] [⟨"a.c"⟩] tree ∧
      ∀ analyze, (firstPlan.withPasses analyze).run tree [⟨"a.c"⟩] = .ok
        ({ report with cacheHits := report.configurationsChecked, cacheMisses := 0 }, tree)) ∧
    ∃ s report, Relation.ReflTransGen (Stage.Succeeds firstPlan buildStore)
        (.start firstPlan builtTree [olderUnit]) s ∧ (∀ w ∈ s.workers, w.told = true) ∧
      s.report firstPlan = .ok report ∧
      ∀ analyze result, (firstPlan.withPasses analyze).Gives s.tree [⟨"a.c"⟩] result →
        result = .ok { report with
          cacheHits := report.configurationsChecked
          cacheMisses := 0 } := by
  have hsource := hasBuild_builtTree.source
  have hunits := loadAll_olderUnit hsource
  have hne : SourceUnit.loadAll builtTree firstPlan.includePaths [⟨"a.c"⟩] ≠ [] := by simp [hunits]
  have hbefore := orderly_of_hasSource hsource firstPlan.includePaths
  obtain ⟨last, hlast⟩ := exists_succeeds_builtTree
  obtain ⟨report, tree, hrun⟩ : ∃ report tree, firstPlan.run builtTree [⟨"a.c"⟩] =
      .ok (report, tree) := hsource.exists_run_eq includes_older
  obtain ⟨s, hsteps, htold, -⟩ := firstPlan.exists_stage_of_run hne
  rw [hunits] at hsteps
  have hbuild := hsource.placeOf_build
  have hafter := orderly_of_hasSource (hsource.alters (hbuild ▸ alters_run cache_firstPlan hrun))
    firstPlan.includePaths
  have hafter' := orderly_of_hasSource
    (hsource.alters (hbuild ▸ Stage.alters_of_run cache_firstPlan hsteps))
    firstPlan.includePaths
  have hsucceeds := Stage.succeeds_of_run invariant_checks (List.nodup_singleton _)
    (fun unit hunit => ⟨hasBuild_builtTree, List.mem_singleton.mp hunit,
      List.mem_singleton.mp hunit ▸ List.Subset.refl _, fun _ hphase => nomatch hphase⟩)
    Worker.Checks.stores hsteps
  have hnormal : ∀ w ∈ s.workers, w.outcome.facts.IsNormal := by
    have hs := Stage.onTrack_of_run sharable_builtTree (List.nodup_singleton _) hsteps
    intro w hw
    obtain ⟨hsame, hnormal⟩ := hs.sameAs_alone htold hw
    rwa [hsame.facts]
  obtain ⟨hfirst, hsecond, -⟩ := run_of_warm_store rfl injOn_fingerprint_entries
    wellFormed_builtTree hbefore (hunits ▸ keys_olderUnit)
  obtain ⟨report', hreport', hwarm⟩ := hsecond s hne (hunits.symm ▸ hsucceeds) htold hafter'
  refine ⟨wellFormed_builtTree, injOn_fingerprint_entries, hbefore, rfl, ⟨last, hlast⟩,
    ⟨report, tree, hrun, hafter, (hfirst last report tree hafter (hunits.symm ▸ hlast) hrun).1⟩,
    s, report', hsucceeds, htold, hreport', fun analyze result hgives => ?_⟩
  obtain ⟨warm, hresult, -, -, -, heq⟩ := hwarm analyze result hgives
  rw [hresult, heq hnormal]

end MacroSweep.Run
