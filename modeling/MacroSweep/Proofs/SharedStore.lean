import MacroSweep.Run.Plan
import MacroSweep.Proofs.Sites
import MacroSweep.Proofs.Store

/-! Units that share a store. What a unit sees of it changes only when it stores a result itself,
whatever results other units store in between. -/
namespace MacroSweep.Run

open Cache Checker

variable {plan : Plan} {units : List SourceUnit} {start tree tree' : FileTree} {store : Store}
  {unit other : SourceUnit} {c d : Configuration} {analysis : Analysis} {r : Record}

namespace Plan

/-- The configurations that a unit is checked under. -/
def configurations (plan : Plan) (unit : SourceUnit) : List Configuration :=
  plan.enumeration.configurations unit.conditionals

/-- The tree after the result of a pass was offered to the store. -/
def keep (plan : Plan) (tree : FileTree) (unit : SourceUnit) (signature : String)
    (analysis : Analysis) : FileTree :=
  match plan.cache with
  | none => tree
  | some store => store.keep tree unit signature analysis (plan.ticket unit.path signature)

theorem outcome_save_eq (o : Outcome) (unit : SourceUnit) (signature : String)
    (analysis : Analysis) :
    o.save plan.cache unit signature analysis (plan.ticket unit.path signature) =
      { o with tree := plan.keep o.tree unit signature analysis } := by
  unfold Outcome.save keep
  cases plan.cache <;> rfl

theorem keep_of_cache_eq_none (h : plan.cache = none) (tree : FileTree) (unit : SourceUnit)
    (signature : String) (analysis : Analysis) :
    plan.keep tree unit signature analysis = tree := by
  rw [keep, h]

theorem keep_eq (h : plan.cache = some store) (tree : FileTree) (unit : SourceUnit)
    (signature : String) (analysis : Analysis) :
    plan.keep tree unit signature analysis =
      store.keep tree unit signature analysis (plan.ticket unit.path signature) := by
  rw [keep, h]

/-- Storing a result alters nothing outside the directory of the store. -/
theorem alters_keep (h : plan.cache = some store) (tree : FileTree) (unit : SourceUnit)
    (signature : String) (analysis : Analysis) :
    FileTree.Alters (FileTree.inside (tree.placeOf store.directory)) tree
      (plan.keep tree unit signature analysis) := by
  rw [keep_eq h]
  exact (Cache.alters_keep store tree unit signature analysis _).mono (touched_subset _ _ _ _ _)

/-- The places that storing the result of a pass may touch. -/
def touches (plan : Plan) (store : Store) (tree : FileTree) (unit : SourceUnit)
    (signature : String) : Set Place :=
  touched store tree unit.path signature (plan.ticket unit.path signature)

/-- What is taken for granted of a store that units share: records of different units have different
names, no record or temporary file stands where a unit has a file, and each record is read where it
stands and tells of places in normal spelling. -/
structure Apart (plan : Plan) (tree : FileTree) (units : List SourceUnit) (store : Store) :
    Prop where
  keys : ∀ u ∈ units, ∀ v ∈ units, ∀ c ∈ plan.configurations u, ∀ d ∈ plan.configurations v,
    Digest.fingerprint (Store.keyBytes u.path c.signature) =
      Digest.fingerprint (Store.keyBytes v.path d.signature) → u = v
  files : ∀ u ∈ units, ∀ file ∈ u.files, ∀ v ∈ units, ∀ d ∈ plan.configurations v,
    tree.placeOf file ∉ plan.touches store tree v d.signature
  readable : ∀ u ∈ units, ∀ c ∈ plan.configurations u,
    tree.Readable (store.recordPath u.path c.signature)
  normal : ∀ u ∈ units, ∀ c ∈ plan.configurations u, ∀ r,
    store.lookup tree u c.signature = some r → r.facts.IsNormal

/-- What is taken for granted of units that are checked side by side. -/
structure Sharable (plan : Plan) (tree : FileTree) (units : List SourceUnit) : Prop where
  checker : plan.checker = directives
  files : ∀ u ∈ units, ∀ file ∈ u.files, file.IsNormal ∧ ∃ bytes, tree.read file = .ok bytes
  store : ∀ store, plan.cache = some store → plan.Apart tree units store

/-- A store that holds no file is apart from the units, if the names of their records differ. -/
theorem apart_of_no_files
    (hempty : ∀ q bytes, tree.node? q = some (.file bytes) →
      q.dropLast ≠ tree.placeOf store.directory)
    (hfiles : ∀ u ∈ units, ∀ file ∈ u.files, ∃ bytes, tree.read file = .ok bytes)
    (hkeys : ∀ u ∈ units, ∀ v ∈ units, ∀ c ∈ plan.configurations u, ∀ d ∈ plan.configurations v,
      Digest.fingerprint (Store.keyBytes u.path c.signature) =
        Digest.fingerprint (Store.keyBytes v.path d.signature) → u = v) :
    plan.Apart tree units store := by
  have hrecords : ∀ path signature bytes,
      tree.node? (tree.placeOf (store.recordPath path signature)) ≠ some (.file bytes) := by
    intro path signature bytes hnode
    refine hempty _ bytes hnode ?_
    rw [placeOf_recordPath, List.dropLast_concat]
  refine ⟨hkeys, fun u hu file hfile v _ d _ hmem => ?_, fun u _ c _ bytes hnode => ?_,
    fun u _ c _ r hr => ?_⟩
  · obtain ⟨bytes, hread⟩ := hfiles u hu file hfile
    exact hempty _ bytes (FileTree.node?_placeOf_of_read hread) (touched_subset _ _ _ _ _ hmem)
  · exact absurd hnode (hrecords _ _ bytes)
  · obtain ⟨bytes, hread, -⟩ := lookup_eq_some hr
    exact absurd (FileTree.node?_placeOf_of_read hread) (hrecords _ _ bytes)

end Plan

/-- What holds of every tree that units have come to by storing results. -/
structure Steady (plan : Plan) (units : List SourceUnit) (start tree : FileTree) : Prop where
  base : tree.base = start.base
  reads : ∀ u ∈ units, ∀ file ∈ u.files, tree.read file = start.read file
  readable : ∀ store, plan.cache = some store → ∀ u ∈ units, ∀ c ∈ plan.configurations u,
    tree.Readable (store.recordPath u.path c.signature)
  accepts : ∀ store, plan.cache = some store → ∀ path signature ticket,
    store.Accepts tree path signature ticket ↔ store.Accepts start path signature ticket
  normal : ∀ u ∈ units, ∀ c ∈ plan.configurations u, ∀ r,
    plan.stored? tree u c.signature = some r → r.facts.IsNormal

theorem Plan.Sharable.steady (h : plan.Sharable start units) : Steady plan units start start where
  base := rfl
  reads u _ file _ := rfl
  readable store hstore := (h.store store hstore).readable
  accepts store _ path signature ticket := Iff.rfl
  normal u hu c hc r hr := by
    obtain ⟨store, hstore, hr⟩ := Option.bind_eq_some_iff.mp hr
    exact (h.store store hstore).normal u hu c hc r hr

theorem stored?_eq_lookup (h : plan.cache = some store) (tree : FileTree) (unit : SourceUnit)
    (signature : String) : plan.stored? tree unit signature = store.lookup tree unit signature := by
  rw [Plan.stored?, h, Option.bind_some]

/-- The inline markers are known by what is read from the files of the units. -/
theorem inlineIndex_congr
    (h : ∀ u ∈ units, ∀ file ∈ u.files, tree.read file = tree'.read file) :
    Plan.inlineIndex tree units = Plan.inlineIndex tree' units := by
  refine List.foldl_rel (r := Eq) rfl ?_
  intro file hfile index _ he
  have hmem : file ∈ units.flatMap SourceUnit.files := by
    rcases SortedSet.mem_or_mem_of_mem_insertAll hfile with h | h
    · exact h
    · cases h
  obtain ⟨u, hu, hfile⟩ := List.mem_flatMap.mp hmem
  rw [he, h u hu file hfile]

section Keep

variable (hs : Steady plan units start tree) (hunit : unit ∈ units)

include hs hunit

/-- The record that is found after a result was offered is that of the result, or is as before. -/
theorem stored?_keep {signature : String} (hd : d ∈ plan.configurations unit)
    (hr : plan.stored? (plan.keep tree unit signature analysis) unit d.signature = some r) :
    r.facts = analysis.facts ∨ plan.stored? tree unit d.signature = some r := by
  cases hstore : plan.cache with
  | none =>
    rw [Plan.keep_of_cache_eq_none hstore] at hr
    exact .inr hr
  | some store =>
    rw [Plan.keep_eq hstore] at hr
    rw [stored?_eq_lookup hstore] at hr ⊢
    have hread := toOption_read_keep unit signature analysis (plan.ticket unit.path signature)
      (hs.readable store hstore unit hunit d hd)
    split at hread
    · obtain ⟨bytes, hbytes, hdecode, -⟩ := lookup_eq_some hr
      rw [hbytes] at hread
      rw [Option.some.inj hread] at hdecode
      exact .inl (congrArg Record.facts (Record.eq_of_decode?_encode hdecode))
    · rw [← lookup_congr hread]
      exact .inr hr

/-- If a unit finds the same records in two trees, it does so after it offered a result in both. -/
theorem stored?_keep_congr {signature : String} (hs' : Steady plan units start tree')
    (hsame : ∀ d ∈ plan.configurations unit,
      plan.stored? tree unit d.signature = plan.stored? tree' unit d.signature) :
    ∀ d ∈ plan.configurations unit,
      plan.stored? (plan.keep tree unit signature analysis) unit d.signature =
        plan.stored? (plan.keep tree' unit signature analysis) unit d.signature := by
  intro d hd
  cases hstore : plan.cache with
  | none =>
    rw [Plan.keep_of_cache_eq_none hstore, Plan.keep_of_cache_eq_none hstore]
    exact hsame d hd
  | some store =>
    have hlookup := hsame d hd
    rw [stored?_eq_lookup hstore, stored?_eq_lookup hstore] at hlookup ⊢
    rw [Plan.keep_eq hstore, Plan.keep_eq hstore]
    have hread := toOption_read_keep unit signature analysis (plan.ticket unit.path signature)
      (hs.readable store hstore unit hunit d hd)
    have hread' := toOption_read_keep unit signature analysis (plan.ticket unit.path signature)
      (hs'.readable store hstore unit hunit d hd)
    -- Whether the result can be stored is settled at the start, so it is stored in both or in none.
    rw [hs.accepts store hstore] at hread
    rw [hs'.accepts store hstore] at hread'
    split at hread
    · next hkey =>
      rw [if_pos hkey] at hread'
      exact lookup_congr (hread.trans hread'.symm)
    · next hkey =>
      rw [if_neg hkey] at hread'
      rw [lookup_congr hread, lookup_congr hread', hlookup]

variable (h : plan.Sharable start units) (hc : c ∈ plan.configurations unit)

include h hc

/-- A result of another unit does not show in what is looked up. -/
theorem stored?_keep_of_ne (hother : other ∈ units) (hne : other ≠ unit)
    (hd : d ∈ plan.configurations other) :
    plan.stored? (plan.keep tree unit c.signature analysis) other d.signature =
      plan.stored? tree other d.signature := by
  cases hstore : plan.cache with
  | none => rw [Plan.keep_of_cache_eq_none hstore]
  | some store =>
    rw [Plan.keep_eq hstore, stored?_eq_lookup hstore, stored?_eq_lookup hstore]
    apply lookup_congr
    rw [toOption_read_keep _ _ _ _ (hs.readable store hstore other hother d hd), if_neg]
    rintro ⟨-, hkey⟩
    exact hne ((h.store store hstore).keys other hother unit hunit d hd c hc hkey)

/-- A file of a unit reads as before. -/
theorem read_keep (hother : other ∈ units) {file : Path} (hfile : file ∈ other.files) :
    (plan.keep tree unit c.signature analysis).read file = start.read file := by
  cases hstore : plan.cache with
  | none => rw [Plan.keep_of_cache_eq_none hstore, hs.reads other hother file hfile]
  | some store =>
    obtain ⟨-, bytes, hread⟩ := h.files other hother file hfile
    have hplaces := FileTree.placeOf_congr hs.base
    have hout := (h.store store hstore).files other hother file hfile unit hunit c hc
    rw [Plan.keep_eq hstore, hread]
    refine (alters_keep store tree unit c.signature analysis _).read ?_
      ((hs.reads other hother file hfile).trans hread)
    rw [hplaces, touched, hplaces, hplaces]
    exact hout

theorem normal_keep (ha : analysis.facts.IsNormal) (hother : other ∈ units)
    (hd : d ∈ plan.configurations other)
    (hr : plan.stored? (plan.keep tree unit c.signature analysis) other d.signature = some r) :
    r.facts.IsNormal := by
  by_cases hne : other = unit
  · subst hne
    rcases stored?_keep hs hunit hd hr with hfacts | hr
    · rwa [hfacts]
    · exact hs.normal other hother d hd r hr
  · rw [stored?_keep_of_ne hs hunit h hc hother hne hd] at hr
    exact hs.normal other hother d hd r hr

theorem Steady.keep (ha : analysis.facts.IsNormal) :
    Steady plan units start (plan.keep tree unit c.signature analysis) := by
  cases hstore : plan.cache with
  | none => rwa [Plan.keep_of_cache_eq_none hstore]
  | some store =>
    have hstores : ∀ store', plan.cache = some store' → store' = store := fun store' hstore' =>
      Option.some.inj (hstore'.symm.trans hstore)
    have hkeep := Plan.keep_eq hstore tree unit c.signature analysis
    exact {
      base := by
        rw [hkeep]
        exact (alters_keep store tree unit c.signature analysis _).base.trans hs.base
      reads := fun u hu file hfile => read_keep hs hunit h hc hu hfile
      readable := by
        intro store' hstore' u hu d hd
        rw [hstores store' hstore', hkeep]
        exact readable_keep (hs.readable store hstore u hu d hd)
      accepts := by
        intro store' hstore' path signature ticket
        rw [hstores store' hstore', hkeep, accepts_keep_iff]
        exact hs.accepts store hstore path signature ticket
      normal := fun u hu d hd r hr => normal_keep hs hunit h hc ha hu hd hr }

end Keep

section Analyze

variable (h : plan.Sharable start units) (hunit : unit ∈ units)

include h hunit

/-- A pass finds the same whatever results have been stored. -/
theorem Plan.Sharable.analyze_eq (hs : Steady plan units start tree)
    (hs' : Steady plan units start tree') (c : Configuration) :
    plan.analyze tree unit c = plan.analyze tree' unit c := by
  have hagree : Walk.Agree ⟨tree, unit, c, plan.settings⟩ ⟨tree', unit, c, plan.settings⟩ := by
    refine ⟨rfl, rfl, rfl, fun file hfile => ?_, rfl⟩
    exact (hs.reads unit hunit file hfile).trans (hs'.reads unit hunit file hfile).symm
  rw [Plan.analyze, Plan.analyze, h.checker]
  exact run_directives_congr hagree

theorem Plan.Sharable.isNormal_of_analyze
    (hrun : plan.analyze tree unit c = .ok analysis) : analysis.facts.IsNormal := by
  rw [Plan.analyze, h.checker] at hrun
  exact isNormal_facts_of_run (fun file hfile => (h.files unit hunit file hfile).1) hrun

end Analyze

end MacroSweep.Run
