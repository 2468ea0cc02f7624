import MacroSweep.Proofs.Counts
import MacroSweep.Proofs.RecordMap

/-! Runs whose results are stored. If no pass fails and no result is lost, each worker has in the
end what the records of its unit tell, whatever order the workers take their steps in. If all
records are there from the start, no pass is made. -/
namespace MacroSweep.Run

open Cache Checker FileTree

variable {plan : Plan} {store : Store} {tree tree' : FileTree} {unit other : SourceUnit}
  {units : List SourceUnit} {files : List Path} {c : Configuration}
  {done cs : List Configuration} {signature signature' : String} {analysis : Analysis} {o : Outcome}
  {r : Record} {w w' v v' : Worker} {s s' : Stage} {ticket : Ticket}
  {todo rest : List (SourceUnit × Configuration)} {keys : Set (List UInt8)}

section Stored

/-- A record stays when one of another key is stored. -/
theorem lookup_of_save_ne (h : store.lookup tree unit signature = some r)
    (hsave : store.save tree other signature' analysis ticket = .ok tree')
    (hne : Digest.fingerprint (Store.keyBytes unit.path signature) ≠
      Digest.fingerprint (Store.keyBytes other.path signature')) :
    store.lookup tree' unit signature = some r := by
  obtain ⟨bytes, hread, hrest⟩ := lookup_eq_some_iff.mp h
  have hread' := (alters_of_save hsave).read (notMem_touched hne ticket) hread
  exact lookup_eq_some_iff.mpr ⟨bytes, hread', hrest⟩

theorem stored?_of_save_ne (hcache : plan.cache = some store)
    (h : plan.stored? tree unit signature = some r)
    (hsave : store.save tree other signature' analysis ticket = .ok tree')
    (hne : Digest.fingerprint (Store.keyBytes unit.path signature) ≠
      Digest.fingerprint (Store.keyBytes other.path signature')) :
    plan.stored? tree' unit signature = some r := by
  rw [stored?_eq_lookup hcache] at h ⊢
  exact lookup_of_save_ne h hsave hne

/-- A result that was stored is found. -/
theorem lookup_of_save (hsave : store.save tree unit signature analysis ticket = .ok tree')
    (hfits : analysis.Fits) :
    store.lookup tree' unit signature = some (store.record unit signature analysis) := by
  let e : Entry := ⟨store.tag, unit, signature, analysis, ticket⟩
  have hholds : Holds store.directory tree' unit.path signature (some e) :=
    .of_save_self (e := e) hsave
  have hcurrent : store.isCurrent unit signature (e.record store.directory) = true :=
    isCurrent_record_iff.mpr ⟨rfl, rfl, rfl, rfl, List.forall₂_same.mpr fun _ _ => ⟨rfl, rfl⟩⟩
  refine (hholds.lookup_eq_some_iff fun e' he => ?_).mpr ⟨e, rfl, hcurrent, rfl⟩
  rw [← Option.some.inj he]
  exact hfits

/-- A run alters nothing but files in the directory of its store. -/
theorem Stage.alters_of_run (hcache : plan.cache = some store)
    (hrun : Relation.ReflTransGen (Step plan) s s') :
    Alters (inside (s.tree.placeOf store.directory)) s.tree s'.tree := by
  induction hrun with
  | refl => exact .refl _ _
  | tail _ hstep ih =>
    refine ih.trans ?_
    rw [← ih.placeOf store.directory]
    cases hstep with
    | work _ hw =>
      cases hw with
      | keep => exact Plan.alters_keep hcache _ _ _ _
      | _ => exact .refl _ _
    | submit => exact .refl _ _

end Stored

section Keys

/-- The passes over units, in order: each unit under each of its configurations. -/
def Plan.passes (plan : Plan) (units : List SourceUnit) : List (SourceUnit × Configuration) :=
  units.flatMap fun unit => (plan.configurations unit).map fun c => (unit, c)

theorem Plan.mem_passes_iff {x : SourceUnit × Configuration} :
    x ∈ plan.passes units ↔ x.1 ∈ units ∧ x.2 ∈ plan.configurations x.1 := by
  simp only [Plan.passes, List.mem_flatMap, List.mem_map]
  constructor
  · rintro ⟨unit, hunit, c, hc, rfl⟩
    exact ⟨hunit, hc⟩
  · rintro ⟨hunit, hc⟩
    exact ⟨x.1, hunit, x.2, hc, rfl⟩

/-- Whether the fingerprints of the keys tell passes apart that differ in unit or signature. -/
def KeysTell (todo : List (SourceUnit × Configuration)) : Prop :=
  ∀ x ∈ todo, ∀ y ∈ todo,
    Digest.fingerprint (Store.keyBytes x.1.path x.2.signature) =
      Digest.fingerprint (Store.keyBytes y.1.path y.2.signature) →
    x.1 = y.1 ∧ x.2.signature = y.2.signature

theorem KeysTell.subset (h : KeysTell todo) (hrest : rest ⊆ todo) : KeysTell rest :=
  fun x hx y hy => h x (hrest hx) y (hrest hy)

/-- The units of a run differ in their paths, so keys without collisions tell its passes apart. -/
theorem keysTell_passes {includePaths : List Path} (hinj : Set.InjOn Digest.fingerprint keys)
    (hunits : units = SourceUnit.loadAll tree includePaths files)
    (hkeys : ∀ x ∈ plan.passes units, Store.keyBytes x.1.path x.2.signature ∈ keys ∧
      '\x00' ∉ x.1.path.text.toList) : KeysTell (plan.passes units) := by
  have hnodup : (units.map SourceUnit.path).Nodup := by
    rw [hunits, List.Nodup, List.pairwise_map]
    refine (SourceUnit.pairwise_loadAll tree includePaths files).imp fun {u v} hlt heq => ?_
    simp [compareOn, heq] at hlt
  intro x hx y hy hfp
  obtain ⟨hpath, hsignature⟩ := Store.eq_of_keyBytes_eq (hkeys x hx).2 (hkeys y hy).2
    (hinj (hkeys x hx).1 (hkeys y hy).1 hfp)
  have hunit := List.inj_on_of_nodup_map hnodup (Plan.mem_passes_iff.mp hx).1
    (Plan.mem_passes_iff.mp hy).1 hpath
  exact ⟨hunit, hsignature⟩

end Keys

/-- Whether a worker that has made a pass has a result, and can store it. -/
def Worker.Stores (plan : Plan) (store : Store) (tree : FileTree) (w : Worker) : Prop :=
  ∀ c cs result, w.todo = c :: cs → w.phase = .analyzed result →
    ∃ analysis tree', result = .ok analysis ∧ analysis.Fits ∧
      store.save tree w.unit c.signature analysis (plan.ticket w.unit.path c.signature) = .ok tree'

theorem Worker.Stores.save_eq_ok (h : w.Stores plan store tree) (hcache : plan.cache = some store)
    (htodo : w.todo = c :: cs) (hphase : w.phase = .analyzed (.ok analysis)) :
    analysis.Fits ∧ store.save tree w.unit c.signature analysis
      (plan.ticket w.unit.path c.signature) = .ok (plan.keep tree w.unit c.signature analysis) := by
  obtain ⟨analysis', saved, hresult, hfits, hsave⟩ := h c cs _ htodo hphase
  obtain rfl := Except.ok.inj hresult
  rw [Plan.keep_eq hcache, keep_of_save hsave]
  exact ⟨hfits, hsave⟩

/-- A step of a run in which no pass fails and no result is lost. -/
inductive Stage.Succeeds (plan : Plan) (store : Store) : Stage → Stage → Prop
  | work {s : Stage} {before after : List Worker} {w w' : Worker} {tree : FileTree}
      (hworkers : s.workers = before ++ w :: after) (hw : Worker.Step plan s.tree w tree w')
      (hstores : w.Stores plan store s.tree) :
      Succeeds plan store s { s with tree, workers := before ++ w' :: after }
  | submit {s : Stage} {before after : List Worker} {w : Worker}
      (hworkers : s.workers = before ++ w :: after) (hphase : w.phase = .ready)
      (htodo : w.todo = []) (htold : w.told = false) :
      Succeeds plan store s { s with
        tally := s.tally.submit w.outcome.facts
        workers := before ++ { w with told := true } :: after }

theorem Stage.Succeeds.step (h : Succeeds plan store s s') : Step plan s s' := by
  cases h with
  | work hworkers hw => exact .work hworkers hw
  | submit hworkers hphase htodo htold => exact .submit hworkers hphase htodo htold

/-- A run succeeds if a property that all its steps keep lets each worker store its results. -/
theorem Stage.succeeds_of_run {P : FileTree → Worker → Prop}
    (hinv : Worker.Invariant plan units P) (hnodup : units.Nodup)
    (hstart : ∀ unit ∈ units, P tree (fresh plan tree unit))
    (hstores : ∀ {tree w}, P tree w → w.Stores plan store tree)
    (hrun : Relation.ReflTransGen (Step plan) (.start plan tree units) s) :
    Relation.ReflTransGen (Succeeds plan store) (.start plan tree units) s := by
  induction hrun with
  | refl => exact .refl
  | tail hrun hstep ih =>
    refine ih.tail ?_
    cases hstep with
    | work hworkers hw =>
      have hholds := (sound_of_run hinv hnodup hstart hrun).holds
      rw [hworkers, forall_middle_iff] at hholds
      exact .work hworkers hw (hstores hholds.1)
    | submit hworkers hphase htodo htold => exact .submit hworkers hphase htodo htold

section Recall

/-- What the records of configurations tell of a unit. -/
def Plan.recall (plan : Plan) (tree : FileTree) (unit : SourceUnit) (done : List Configuration) :
    Outcome :=
  let records := done.filterMap fun c => plan.stored? tree unit c.signature
  { tree
    findings := records.flatMap Record.findings
    facts := records.foldl (fun facts r => facts.merge r.facts) {}
    configurations := (plan.configurations unit).length }

/-- What a further record tells is added. -/
theorem agrees_recall_concat (h : o.Agrees (plan.recall tree unit done))
    (hsame : ∀ d ∈ done, plan.stored? tree' unit d.signature = plan.stored? tree unit d.signature)
    (hstored : plan.stored? tree' unit c.signature = some r) :
    (o.add r.findings r.facts).Agrees (plan.recall tree' unit (done ++ [c])) := by
  have hrecords : (done ++ [c]).filterMap (fun c => plan.stored? tree' unit c.signature) =
      done.filterMap (fun c => plan.stored? tree unit c.signature) ++ [r] := by
    rw [List.filterMap_append, List.filterMap_congr hsame]
    simp [hstored]
  refine ⟨?_, ?_, h.configurations⟩
  · simp only [Outcome.add, Plan.recall, hrecords, List.flatMap_append, List.flatMap_singleton]
    exact congrArg (· ++ r.findings) h.findings
  · simp only [Outcome.add, Plan.recall, hrecords, List.foldl_concat]
    exact congrArg (Program.Facts.merge · r.facts) h.facts

/-- Whether a worker has what the records tell of the configurations it is through with, and has no
record of one it makes a pass for. -/
structure Worker.Recalls (plan : Plan) (tree : FileTree) (w : Worker)
    (done : List Configuration) : Prop where
  configurations : plan.configurations w.unit = done ++ w.todo
  stored : ∀ d ∈ done, ∃ r, plan.stored? tree w.unit d.signature = some r
  found : w.outcome.Agrees (plan.recall tree w.unit done)
  fresh : w.phase ≠ .ready → ∀ c cs, w.todo = c :: cs → ∀ d ∈ done, d.signature ≠ c.signature

theorem Worker.recalls_fresh (plan : Plan) (tree : FileTree) (unit : SourceUnit) :
    Worker.Recalls plan tree (Stage.fresh plan tree unit) [] :=
  ⟨rfl, fun _ hd => absurd hd List.not_mem_nil, ⟨rfl, rfl, rfl⟩, fun hphase => absurd rfl hphase⟩

/-- A worker that is through with a configuration has its record to go by. -/
theorem Worker.Recalls.concat (h : w.Recalls plan tree done) (htodo : w.todo = c :: cs)
    (hsame : ∀ d ∈ done,
      plan.stored? tree' w.unit d.signature = plan.stored? tree w.unit d.signature)
    (hstored : plan.stored? tree' w.unit c.signature = some r)
    (ho : o.Agrees (w.outcome.add r.findings r.facts)) :
    Worker.Recalls plan tree' { w with todo := cs, phase := .ready, outcome := o }
      (done ++ [c]) where
  configurations := by simp [h.configurations, htodo]
  stored := by
    intro d hd
    rcases List.mem_append.mp hd with hd | hd
    · obtain ⟨r', hr'⟩ := h.stored d hd
      exact ⟨r', (hsame d hd).trans hr'⟩
    · rw [List.mem_singleton.mp hd]
      exact ⟨r, hstored⟩
  found := by
    have hnext := agrees_recall_concat h.found hsame hstored
    exact ⟨ho.findings.trans hnext.findings, ho.facts.trans hnext.facts,
      ho.configurations.trans hnext.configurations⟩
  fresh hphase := absurd rfl hphase

theorem Worker.Recalls.hit (h : w.Recalls plan tree done) (hphase : w.phase = .ready)
    (htodo : w.todo = c :: cs) (hstored : plan.stored? tree w.unit c.signature = some r) :
    Worker.Recalls plan tree { w with
      todo := cs
      outcome := { w.outcome.add r.findings r.facts with hits := w.outcome.hits + 1 } }
      (done ++ [c]) := by
  have hnext := h.concat htodo (fun _ _ => rfl) hstored
    (o := { w.outcome.add r.findings r.facts with hits := w.outcome.hits + 1 }) ⟨rfl, rfl, rfl⟩
  rwa [← hphase] at hnext

/-- A worker whose pass leads to a record has what the records tell. -/
theorem Worker.Recalls.step (hcache : plan.cache = some store)
    (hkeys : KeysTell (plan.passes units)) (hunit : w.unit ∈ units) (h : w.Recalls plan tree done)
    (hstores : w.Stores plan store tree) (hw : Worker.Step plan tree w tree' w') :
    ∃ done', w'.Recalls plan tree' done' := by
  cases hw with
  | hit hphase htodo hstored => exact ⟨_, h.hit hphase htodo hstored⟩
  | @miss c cs hphase htodo hstored =>
    refine ⟨done, h.configurations, h.stored, { h.found with }, fun _ c' cs' htodo' d hd heq => ?_⟩
    obtain ⟨rfl, rfl⟩ := List.cons.inj (htodo.symm.trans htodo')
    obtain ⟨r, hr⟩ := h.stored d hd
    rw [heq, hstored] at hr
    cases hr
  | analyze hphase _ =>
    refine ⟨done, h.configurations, h.stored, h.found, fun _ => h.fresh ?_⟩
    simp [hphase]
  | @keep c cs analysis hphase htodo =>
    obtain ⟨hfits, hsave⟩ := hstores.save_eq_ok hcache htodo hphase
    have hmem : ∀ {d}, d ∈ done ++ c :: cs → (w.unit, d) ∈ plan.passes units := by
      intro d hd
      rw [← htodo, ← h.configurations] at hd
      exact Plan.mem_passes_iff.mpr ⟨hunit, hd⟩
    have hstored := lookup_of_save hsave hfits
    rw [← stored?_eq_lookup hcache] at hstored
    refine ⟨_, h.concat htodo (fun d hd => ?_) hstored ⟨rfl, rfl, rfl⟩⟩
    obtain ⟨r, hr⟩ := h.stored d hd
    rw [hr]
    refine stored?_of_save_ne hcache hr hsave fun heq => ?_
    exact h.fresh (by simp [hphase]) c cs htodo d hd
      (hkeys _ (hmem (List.mem_append_left _ hd)) _ (hmem (by simp)) heq).2
  | fail hphase htodo =>
    obtain ⟨_, _, hresult, -⟩ := hstores _ _ _ htodo hphase
    cases hresult

/-- A record that another worker stores does not show. -/
theorem Worker.Recalls.of_ne (hcache : plan.cache = some store)
    (hkeys : KeysTell (plan.passes units)) (hunit : w.unit ∈ units) (hother : v.unit ∈ units)
    (hne : w.unit ≠ v.unit) (h : w.Recalls plan tree done) {done' : List Configuration}
    (hv : v.Recalls plan tree done') (hstores : v.Stores plan store tree)
    (hstep : Worker.Step plan tree v tree' v') : w.Recalls plan tree' done := by
  cases hstep with
  | @keep c cs analysis hphase htodo =>
    obtain ⟨-, hsave⟩ := hstores.save_eq_ok hcache htodo hphase
    have hmem : (v.unit, c) ∈ plan.passes units :=
      Plan.mem_passes_iff.mpr ⟨hother, by simp [hv.configurations, htodo]⟩
    have hsame : ∀ d ∈ done, plan.stored? (plan.keep tree v.unit c.signature analysis) w.unit
        d.signature = plan.stored? tree w.unit d.signature := by
      intro d hd
      have hmem' : (w.unit, d) ∈ plan.passes units :=
        Plan.mem_passes_iff.mpr ⟨hunit, by simp [h.configurations, hd]⟩
      obtain ⟨r, hr⟩ := h.stored d hd
      rw [hr]
      exact stored?_of_save_ne hcache hr hsave fun heq => hne (hkeys _ hmem' _ hmem heq).1
    have hrecords := List.filterMap_congr hsame
    refine ⟨h.configurations, fun d hd => ?_, ?_, h.fresh⟩
    · rw [hsame d hd]
      exact h.stored d hd
    · have hfound := h.found
      simp only [Plan.recall, ← hrecords] at hfound
      exact { hfound with }
  | _ => exact h

namespace Stage

/-- At each stage of a run in which nothing is lost, all workers have what the records tell. -/
theorem recalls_of_run (hcache : plan.cache = some store) (hkeys : KeysTell (plan.passes units))
    (hnodup : units.Nodup)
    (hrun : Relation.ReflTransGen (Succeeds plan store) (.start plan tree units) s) :
    s.Sound units fun tree w => ∃ done, w.Recalls plan tree done := by
  induction hrun with
  | refl => exact sound_start fun unit _ => ⟨[], Worker.recalls_fresh plan tree unit⟩
  | tail _ hstep ih =>
    have hunits := fun v hv => ih.unit_mem (w := v) hv
    have hholds := ih.holds
    cases hstep with
    | work hworkers hw hstores =>
      have hmap := ih.workers
      rw [hworkers] at hmap
      rw [hworkers, forall_middle_iff] at hunits hholds
      obtain ⟨done, hself⟩ := hholds.1
      refine ih.work hworkers hw (hself.step hcache hkeys hunits.1 hstores hw) fun v hv => ?_
      obtain ⟨done', hother⟩ := hholds.2 v hv
      exact ⟨done', hother.of_ne hcache hkeys (hunits.2 v hv) hunits.1
        (unit_ne_of_mem hnodup hmap hv) hself hstores hw⟩
    | submit hworkers hphase htodo htold =>
      rw [hworkers, forall_middle_iff] at hholds
      obtain ⟨done, hself⟩ := hholds.1
      exact ih.submit hworkers hphase htodo htold ⟨done, { hself with }⟩

variable (hs : s.Sound units fun tree w => ∃ done, w.Recalls plan tree done)
  (htold : ∀ w ∈ s.workers, w.told = true)

include hs htold

/-- When all workers are through, each has what the records of its unit tell. -/
theorem Sound.agrees_recall (hw : w ∈ s.workers) :
    w.outcome.Agrees (plan.recall s.tree w.unit (plan.configurations w.unit)) ∧
      ∀ c ∈ plan.configurations w.unit, ∃ r, plan.stored? s.tree w.unit c.signature = some r := by
  obtain ⟨done, h⟩ := hs.holds w hw
  have hdone := h.configurations
  rw [(hs.through w hw (htold w hw)).2, List.append_nil] at hdone
  rw [hdone]
  exact ⟨h.found, h.stored⟩

/-- When all workers are through, each pass has a record. -/
theorem Sound.exists_stored (hunit : unit ∈ units) (hc : c ∈ plan.configurations unit) :
    ∃ r, plan.stored? s.tree unit c.signature = some r := by
  rw [← hs.workers] at hunit
  obtain ⟨w, hw, rfl⟩ := List.mem_map.mp hunit
  exact (hs.agrees_recall htold hw).2 c hc

end Stage

end Recall

section Warm

/-- Whether a worker has found all its results in the store so far, and is to look for more. -/
def Worker.Warm (plan : Plan) (start tree : FileTree) (w : Worker) : Prop :=
  tree = start ∧ w.phase = .ready ∧ w.outcome.misses = 0 ∧ ∃ done, w.Recalls plan tree done

/-- Workers whose results are all stored make no pass, and leave the tree as it is. -/
theorem invariant_warm (hfound : ∀ u ∈ units, ∀ c ∈ plan.configurations u,
      ∃ r, plan.stored? tree u c.signature = some r) :
    Worker.Invariant plan units (Worker.Warm plan tree) where
  step := by
    rintro _ tree' w w' hunit ⟨rfl, hready, hmisses, done, h⟩ hw
    cases hw with
    | hit hphase htodo hstored => exact ⟨rfl, hready, hmisses, _, h.hit hphase htodo hstored⟩
    | @miss c cs hphase htodo hstored =>
      obtain ⟨r, hr⟩ := hfound w.unit hunit c (by simp [h.configurations, htodo])
      cases hstored.symm.trans hr
    | analyze hphase _ => cases hphase.symm.trans hready
    | keep hphase _ => cases hphase.symm.trans hready
    | fail hphase _ => cases hphase.symm.trans hready
  other := by
    rintro _ tree' w v v' - - - ⟨rfl, hwarm⟩ ⟨-, hready, -⟩ hv
    cases hv with
    | keep hphase _ => cases hphase.symm.trans hready
    | _ => exact ⟨rfl, hwarm⟩
  told := by
    rintro _ w ⟨rfl, hready, hmisses, done, h⟩
    exact ⟨rfl, hready, hmisses, done, { h with }⟩

/-- If all results are stored, no order of the workers leads to a miss. -/
theorem Stage.warm_of_run (hnodup : units.Nodup)
    (hfound : ∀ u ∈ units, ∀ c ∈ plan.configurations u,
      ∃ r, plan.stored? tree u c.signature = some r)
    (hrun : Relation.ReflTransGen (Step plan) (.start plan tree units) s) :
    s.Sound units (Worker.Warm plan tree) :=
  sound_of_run (invariant_warm hfound) hnodup
    (fun unit _ => ⟨rfl, rfl, rfl, [], Worker.recalls_fresh plan tree unit⟩) hrun

theorem Stage.Sound.recalls (hs : s.Sound units (Worker.Warm plan tree)) :
    s.Sound units fun tree w => ∃ done, w.Recalls plan tree done :=
  { hs with holds := fun w hw => (hs.holds w hw).2.2.2 }

theorem Stage.Sound.misses_eq_zero (hs : s.Sound units (Worker.Warm plan tree)) :
    s.progress.misses = 0 := by
  refine List.sum_eq_zero fun n hn => ?_
  obtain ⟨w, hw, rfl⟩ := List.mem_map.mp hn
  exact (hs.holds w hw).2.2.1

/-- If all results are stored, each report counts hits only. -/
theorem Plan.Gives.misses_eq_zero {result : Except Error Report}
    (h : plan.Gives tree files result)
    (hunits : SourceUnit.loadAll tree plan.includePaths files = units) (hne : units ≠ [])
    (hfound : ∀ u ∈ units, ∀ c ∈ plan.configurations u,
      ∃ r, plan.stored? tree u c.signature = some r) :
    ∃ warm, result = .ok warm ∧ warm.cacheMisses = 0 ∧
      warm.cacheHits = warm.configurationsChecked := by
  subst hunits
  have hgives := h
  cases h with
  | noUnits hnil => exact absurd hnil hne
  | report _ hrun htold =>
    have hwarm := Stage.warm_of_run (SourceUnit.nodup_loadAll _ _ _) hfound hrun
    rw [hwarm.report_eq_ok htold] at hgives ⊢
    refine ⟨_, rfl, hwarm.misses_eq_zero, ?_⟩
    rw [← hits_add_misses_of_gives hgives]
    exact (congrArg (_ + ·) hwarm.misses_eq_zero).symm

end Warm

end MacroSweep.Run
