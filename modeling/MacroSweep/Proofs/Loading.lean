import MacroSweep.Proofs.Ordered
import MacroSweep.Proofs.Path
import MacroSweep.SourceUnit.Load

/-! What holds of every unit that is loaded: its paths are in normal spelling, its dependencies are
in order, and each fingerprint is that of the bytes that stand there. -/
namespace MacroSweep

open Source Text

namespace Source

variable {d : Directive} {m : Mentions} {cs : List Char} {name : String}

/-- All names that conditions ask about are identifiers. -/
def Mentions.Sound (m : Mentions) : Prop :=
  ∀ name ∈ m.conditionals.toList, isIdentifier name.toList = true

theorem isIdentifier_of_leadingIdentifier? (h : leadingIdentifier? cs = some name) :
    isIdentifier name.toList = true := by
  unfold leadingIdentifier? at h
  simp only at h
  split at h
  · next hi =>
    cases h
    simpa using hi
  · cases h

theorem isIdentifier_of_mem_conditionNames (h : name ∈ conditionNames cs) :
    isIdentifier name.toList = true := by
  fun_induction conditionNames cs with
  | case1 => simp at h
  | case2 c cs hd ih => exact ih h
  | case3 c cs hd hw name' rest hp ih => exact ih h
  | case4 c cs hd hw name' rest hp he ih => exact ih h
  | case5 c cs hd hw name' rest hp he ih =>
    rcases List.mem_cons.mp h with rfl | h
    · simp only [name', String.toList_ofList, isIdentifier, hw, Bool.true_and]
      exact List.all_takeWhile
    · exact ih h
  | case6 c cs hd hw ih => exact ih h

theorem Mentions.sound_insertAll (hm : m.Sound) (cs : List Char) :
    Mentions.Sound { m with conditionals := m.conditionals.insertAll (conditionNames cs) } := by
  intro name hn
  rcases SortedSet.mem_or_mem_of_mem_insertAll hn with hn | hn
  · exact isIdentifier_of_mem_conditionNames hn
  · exact hm name hn

theorem Mentions.sound_add (hm : m.Sound) (d : Directive) : (m.add d).Sound := by
  unfold Mentions.add
  split
  · exact sound_insertAll hm d.rest
  · exact sound_insertAll hm d.rest
  · split
    · next hl =>
      intro name hn
      rcases SortedSet.eq_or_mem_of_mem_insert hn with rfl | hn
      · exact isIdentifier_of_leadingIdentifier? hl
      · exact hm name hn
    · exact hm
  · split
    · next hl =>
      intro name hn
      rcases SortedSet.eq_or_mem_of_mem_insert hn with rfl | hn
      · exact isIdentifier_of_leadingIdentifier? hl
      · exact hm name hn
    · exact hm
  · split
    · exact hm
    · exact hm
  · split
    · exact hm
    · exact hm
  · exact hm

theorem mentions_sound (content : List Char) : (mentions content).Sound := by
  have general : ∀ (ds : List Directive) (m : Mentions), m.Sound →
      (ds.foldl Mentions.add m).Sound := by
    intro ds
    induction ds with
    | nil => exact fun m hm => hm
    | cons d ds ih => exact fun m hm => ih _ (Mentions.sound_add hm d)
  apply general
  intro name hn
  cases hn

end Source

namespace SourceUnit

variable {tree : FileTree} {includePaths : List Path} {queue : List Pending} {p : Pending}
  {path own file : Path} {bytes : List UInt8} {c : Closure} {unit : SourceUnit}

/-- The path is in normal spelling, and the fingerprint is that of the bytes that stand there. -/
def Fingerprinted (tree : FileTree) (path : Path) (fingerprint : String) : Prop :=
  path.IsNormal ∧ ∃ bytes, tree.read path = .ok bytes ∧ fingerprint = Digest.fingerprint bytes

/-- What holds of the files found so far. -/
structure Closure.Sound (tree : FileTree) (c : Closure) : Prop where
  dependencies : ∀ e ∈ c.dependencies.toList, Fingerprinted tree e.1 e.2
  conditionals : ∀ name ∈ c.conditionals.toList, isIdentifier name.toList = true

theorem Closure.sound_empty : Closure.Sound tree {} where
  dependencies e he := by cases he
  conditionals name hn := by cases hn

theorem isNormal_of_resolve? (h : resolve? tree includePaths p = some path) : path.IsNormal := by
  unfold resolve? at h
  obtain ⟨q, -, rfl⟩ := Option.map_eq_some_iff.mp h
  exact Path.isNormal_normalize q

theorem Closure.sound_mention (hc : c.Sound tree) (bytes : List UInt8) :
    (c.mention (mentionsOf bytes)).Sound tree := by
  refine ⟨hc.dependencies, ?_⟩
  intro name hn
  rcases SortedSet.mem_or_mem_of_mem_insertAll hn with hn | hn
  · exact mentions_sound _ name hn
  · exact hc.conditionals name hn

/-- A file that is found leaves all fingerprints right. -/
theorem Closure.sound_add (hc : c.Sound tree) (hp : path.IsNormal)
    (hb : tree.read path = .ok bytes) : (c.add path bytes).Sound tree := by
  apply Closure.sound_mention
  refine ⟨?_, hc.conditionals⟩
  intro e he
  rcases SortedMap.eq_or_mem_of_mem_put he with ⟨hk, hv⟩ | he
  · have hnormal : e.1.IsNormal := by
      rcases SortedMap.mem_put he with he | ⟨d, hd, he⟩
      · rwa [he]
      · rw [he]
        exact (hc.dependencies d hd).1
    have heq : path = e.1 := hp.eq_of_same hnormal (by simp [Path.same, hk])
    rw [← heq, hv]
    exact ⟨hp, bytes, hb, rfl⟩
  · exact hc.dependencies e he

theorem follow_cons_of_none (h : nextFile? tree includePaths own c p = none) :
    follow tree includePaths own (p :: queue) c = follow tree includePaths own queue c := by
  rw [follow]
  split
  · rfl
  · next h' =>
    rw [h] at h'
    cases h'

theorem follow_cons_of_some (h : nextFile? tree includePaths own c p = some (path, bytes)) :
    follow tree includePaths own (p :: queue) c =
      follow tree includePaths own (queue ++ (mentionsOf bytes).includes.map (⟨path, ·⟩))
        (c.add path bytes) := by
  rw [follow]
  split
  · next h' =>
    rw [h] at h'
    cases h'
  · next h' =>
    rw [h] at h'
    cases h'
    rfl

theorem follow_sound (hc : c.Sound tree) : (follow tree includePaths own queue c).Sound tree := by
  fun_induction follow tree includePaths own queue c with
  | case1 => exact hc
  | case2 _ _ _ _ ih => exact ih hc
  | case3 c p queue path bytes h ih =>
    obtain ⟨hr, -, hb⟩ := nextFile?_eq_some_iff.mp h
    exact ih (Closure.sound_add hc (isNormal_of_resolve? hr) hb)

/-- What holds of a unit loaded from a file. -/
structure LoadedFrom (tree : FileTree) (file : Path) (unit : SourceUnit) : Prop where
  path_eq : unit.path = file.normalize
  fingerprint : ∃ bytes, tree.read file = .ok bytes ∧ unit.fingerprint = Digest.fingerprint bytes
  dependencies : ∀ d ∈ unit.dependencies, Fingerprinted tree d.path d.fingerprint
  ordered : unit.dependencies.Pairwise fun d e => compare d.path e.path = .lt
  conditionals : ∀ name ∈ unit.conditionals.toList, isIdentifier name.toList = true

theorem loadedFrom_of_load (h : load tree includePaths file = .ok unit) :
    LoadedFrom tree file unit := by
  unfold load at h
  split at h
  · cases h
  · next bytes hb =>
    cases h
    have hc : (follow tree includePaths file.normalize
        ((mentionsOf bytes).includes.map (⟨file.normalize, ·⟩))
        (Closure.mention {} (mentionsOf bytes))).Sound tree :=
      follow_sound (Closure.sound_mention Closure.sound_empty bytes)
    exact {
      path_eq := rfl
      fingerprint := ⟨bytes, hb, rfl⟩
      dependencies := by
        intro d hd
        obtain ⟨e, he, rfl⟩ := List.mem_map.mp hd
        exact hc.dependencies e he
      ordered := List.pairwise_map.mpr (SortedMap.increasing _)
      conditionals := fun name hn => hc.conditionals name (SortedSet.mem_of_mem_diff hn) }

theorem mem_of_mem_dedup {units : List SourceUnit} (h : unit ∈ dedup units) : unit ∈ units := by
  fun_induction dedup units with
  | case1 u v rest hsame ih =>
    rcases List.mem_cons.mp (ih h) with rfl | h
    · exact List.mem_cons_self
    · exact List.mem_cons_of_mem _ (List.mem_cons_of_mem _ h)
  | case2 u v rest hsame ih =>
    rcases List.mem_cons.mp h with rfl | h
    · exact List.mem_cons_self
    · exact List.mem_cons_of_mem _ (ih h)
  | case3 => exact h

theorem exists_load_of_mem_loadAll {files : List Path}
    (h : unit ∈ loadAll tree includePaths files) :
    ∃ file ∈ files, load tree includePaths file = .ok unit := by
  have hloaded := List.mem_mergeSort.mp (mem_of_mem_dedup h)
  obtain ⟨file, hfile, hload⟩ := List.mem_filterMap.mp hloaded
  refine ⟨file, hfile, ?_⟩
  cases hl : load tree includePaths file with
  | error e =>
    rw [hl] at hload
    cases hload
  | ok u =>
    rw [hl] at hload
    cases hload
    rfl

/-- The unit of a text that mentions nothing. -/
theorem load_of_no_mentions {bytes : List UInt8} (hread : tree.read file = .ok bytes)
    (h : mentionsOf bytes = ⟨∅, ∅, []⟩) :
    load tree includePaths file = .ok ⟨file.normalize, Digest.fingerprint bytes, [], ∅⟩ := by
  unfold load
  simp only [hread, h, List.map_nil, follow]
  rfl

/-- What is loaded is known by the normal spelling of the file and by what is read. -/
theorem load_congr {file' : Path} (hpath : file.normalize = file'.normalize)
    (hread : tree.read file = tree.read file') :
    load tree includePaths file = load tree includePaths file' := by
  simp only [load, hpath, hread]

theorem exists_mem_dedup {units : List SourceUnit} (h : unit ∈ units) :
    ∃ u ∈ dedup units, compare unit.path u.path = .eq := by
  fun_induction dedup units generalizing unit with
  | case1 u v rest hsame ih =>
    simp only [List.mem_cons] at h ih
    rcases h with h | rfl | h
    · exact ih (.inl h)
    · -- The unit that is left out has the path of the one before it.
      have heq : compare u.path unit.path = .eq := by simpa [Path.same] using hsame
      obtain ⟨w, hw, hu⟩ := ih (.inl rfl)
      exact ⟨w, hw, Std.TransCmp.eq_trans (Std.OrientedCmp.eq_symm heq) hu⟩
    · exact ih (.inr h)
  | case2 u v rest hsame ih =>
    rcases List.mem_cons.mp h with rfl | h
    · exact ⟨_, List.mem_cons_self, by simp⟩
    · obtain ⟨w, hw, heq⟩ := ih h
      exact ⟨w, List.mem_cons_of_mem _ hw, heq⟩
  | case3 => exact ⟨unit, h, by simp⟩

theorem pairwise_dedup {units : List SourceUnit}
    (h : units.Pairwise fun u v => (compare u.path v.path).isLE) :
    (dedup units).Pairwise fun u v => compare u.path v.path = .lt := by
  fun_induction dedup units with
  | case1 u v rest hsame ih =>
    exact ih (h.sublist (.cons_cons u (List.sublist_cons_self v rest)))
  | case2 u v rest hsame ih =>
    obtain ⟨hu, hv⟩ := List.pairwise_cons.mp h
    have huv : compare u.path v.path = .lt := by
      have hle := hu v List.mem_cons_self
      cases hc : compare u.path v.path with
      | lt => rfl
      | eq => simp [Path.same, hc] at hsame
      | gt => simp [hc] at hle
    refine List.pairwise_cons.mpr ⟨fun w hw => ?_, ih hv⟩
    rcases List.mem_cons.mp (mem_of_mem_dedup hw) with rfl | hw
    · exact huv
    · exact Std.TransCmp.lt_of_lt_of_isLE huv ((List.pairwise_cons.mp hv).1 w hw)
  | case3 units hunits =>
    cases units with
    | nil => exact .nil
    | cons u rest =>
      cases rest with
      | nil => exact List.pairwise_singleton _ u
      | cons v rest => exact (hunits u v rest rfl).elim

theorem pairwise_loadAll (tree : FileTree) (includePaths files : List Path) :
    (loadAll tree includePaths files).Pairwise fun u v => compareOn SourceUnit.path u v = .lt := by
  refine pairwise_dedup (List.pairwise_mergeSort (fun _ _ _ => Std.TransCmp.isLE_trans) ?_ _)
  intro u v
  rw [Std.OrientedOrd.eq_swap (a := v.path)]
  cases compare u.path v.path <;> rfl

theorem nodup_loadAll (tree : FileTree) (includePaths files : List Path) :
    (loadAll tree includePaths files).Nodup := by
  refine (pairwise_loadAll tree includePaths files).imp fun {u v} hlt heq => ?_
  subst heq
  simp [compareOn] at hlt

/-- A file that can be loaded gives a unit, or another file with its path does. -/
theorem exists_mem_loadAll {files : List Path} (hfile : file ∈ files)
    (h : load tree includePaths file = .ok unit) :
    ∃ u ∈ loadAll tree includePaths files, compare unit.path u.path = .eq := by
  apply exists_mem_dedup
  rw [List.mem_mergeSort]
  exact List.mem_filterMap.mpr ⟨file, hfile, by rw [h]; rfl⟩

theorem mem_loadAll_of_subset {files files' : List Path}
    (hload : ∀ file ∈ files, ∀ file' ∈ files', file.normalize = file'.normalize →
      load tree includePaths file = load tree includePaths file')
    (hsub : ∀ file ∈ files, ∃ file' ∈ files', file.normalize = file'.normalize)
    (h : unit ∈ loadAll tree includePaths files) : unit ∈ loadAll tree includePaths files' := by
  obtain ⟨file, hfile, hunit⟩ := exists_load_of_mem_loadAll h
  obtain ⟨file', hfile', heq⟩ := hsub file hfile
  have hunit' : load tree includePaths file' = .ok unit :=
    (hload file hfile file' hfile' heq).symm.trans hunit
  obtain ⟨u, hu, hpath⟩ := exists_mem_loadAll hfile' hunit'
  -- The unit that is there has the same path, so it was loaded from the same file.
  obtain ⟨other, hother, hload'⟩ := exists_load_of_mem_loadAll hu
  have hpaths : file.normalize = other.normalize := by
    rw [(loadedFrom_of_load hunit).path_eq, (loadedFrom_of_load hload').path_eq] at hpath
    exact (Path.isNormal_normalize file).eq_of_same (Path.isNormal_normalize other)
      (beq_iff_eq.mpr hpath)
  have hsame := (hload file hfile other hother hpaths).symm.trans hunit
  rw [hload'] at hsame
  rwa [← Except.ok.inj hsame]

/-- The units are known by the normal spellings of the files, in whatever order and however often
these are given. -/
theorem loadAll_congr {files files' : List Path}
    (hspelled : ∀ file ∈ files ++ files', tree.read file.normalize = tree.read file)
    (hsame : ∀ p, p ∈ files.map Path.normalize ↔ p ∈ files'.map Path.normalize) :
    loadAll tree includePaths files = loadAll tree includePaths files' := by
  have hload : ∀ file ∈ files ++ files', ∀ file' ∈ files ++ files',
      file.normalize = file'.normalize →
        load tree includePaths file = load tree includePaths file' := by
    intro file hfile file' hfile' heq
    refine load_congr heq ?_
    rw [← hspelled file hfile, heq, hspelled file' hfile']
  have hsub : ∀ file ∈ files, ∃ file' ∈ files', file.normalize = file'.normalize := by
    intro file hfile
    obtain ⟨file', hfile', heq⟩ := List.mem_map.mp ((hsame _).mp (List.mem_map_of_mem hfile))
    exact ⟨file', hfile', heq.symm⟩
  have hsub' : ∀ file' ∈ files', ∃ file ∈ files, file'.normalize = file.normalize := by
    intro file' hfile'
    obtain ⟨file, hfile, heq⟩ := List.mem_map.mp ((hsame _).mpr (List.mem_map_of_mem hfile'))
    exact ⟨file, hfile, heq.symm⟩
  have hleft : ∀ {file}, file ∈ files → file ∈ files ++ files' := List.mem_append_left _
  have hright : ∀ {file}, file ∈ files' → file ∈ files ++ files' := List.mem_append_right _
  refine eq_of_pairwise_lt (pairwise_loadAll tree includePaths files)
    (pairwise_loadAll tree includePaths files') fun u => ⟨?_, ?_⟩
  · exact mem_loadAll_of_subset (fun f hf f' hf' => hload f (hleft hf) f' (hright hf')) hsub
  · exact mem_loadAll_of_subset (fun f hf f' hf' => hload f (hright hf) f' (hleft hf')) hsub'

end SourceUnit

end MacroSweep
