import MacroSweep.Proofs.Loading
import Mathlib.Logic.Relation

/-! A unit is loaded with all that it includes. Includes are followed as long as they lead to files
that are not known, also where files include one another; in the end every include of a known file
leads to a known file, or to none that can be read. -/
namespace MacroSweep.SourceUnit

open Source Text

variable {tree : FileTree} {includePaths : List Path} {queue : List Pending} {pending : Pending}
  {path unit p q : Path} {bytes : List UInt8} {c : Closure} {name : String}

/-- The places where an include is looked for: beside the file, if it is quoted, and along the
include paths. -/
def candidates (includePaths : List Path) (source : Path) (target : Include) : List Path :=
  ((if target.system then [] else [source.directory]) ++ includePaths).map (·.join ⟨target.target⟩)

/-- Whether a path is the first of a list at which a file stands. -/
def IsFirstFile (tree : FileTree) (paths : List Path) (p : Path) : Prop :=
  ∃ before after, paths = before ++ p :: after ∧ tree.isFile p = true ∧
    ∀ q ∈ before, tree.isFile q = false

/-- Whether the file at a path holds an include that leads to another file: the first that stands
where it is looked for, in its normal spelling, can be read. -/
def Includes (tree : FileTree) (includePaths : List Path) (p q : Path) : Prop :=
  ∃ bytes target found, tree.read p = .ok bytes ∧ target ∈ (mentionsOf bytes).includes ∧
    IsFirstFile tree (candidates includePaths p target) found ∧ found.normalize = q ∧
    ∃ bytes', tree.read q = .ok bytes'

theorem resolve?_eq_some_iff : resolve? tree includePaths pending = some q ↔
    ∃ found, IsFirstFile tree (candidates includePaths pending.source pending.target) found ∧
      found.normalize = q := by
  have hcandidates : (searchDirectories includePaths pending).map (·.join ⟨pending.target.target⟩) =
      candidates includePaths pending.source pending.target := by
    unfold searchDirectories candidates
    split <;> rfl
  rw [resolve?, hcandidates, Option.map_eq_some_iff]
  simp only [List.find?_eq_some_iff_append, IsFirstFile, Bool.not_eq_true']
  constructor
  · rintro ⟨found, ⟨hfile, before, after, heq, hbefore⟩, hq⟩
    exact ⟨found, ⟨before, after, heq, hfile, hbefore⟩, hq⟩
  · rintro ⟨found, ⟨before, after, heq, hfile, hbefore⟩, hq⟩
    exact ⟨found, ⟨hfile, before, after, heq, hbefore⟩, hq⟩

namespace Closure

/-- The files of a unit that are known so far. -/
def known (c : Closure) (unit : Path) : List Path := unit :: c.dependencies.keys

/-- Whether a set holds all that some files mention and nothing else. -/
def Gathers (tree : FileTree) (mentioned : Mentions → SortedSet String) (files : List Path)
    (names : SortedSet String) : Prop :=
  ∀ name, names.contains name = true ↔ ∃ p ∈ files, ∃ bytes, tree.read p = .ok bytes ∧
    (mentioned (mentionsOf bytes)).contains name = true

/-- What holds while includes are followed. -/
structure Tracks (tree : FileTree) (includePaths : List Path) (unit : Path) (queue : List Pending)
    (c : Closure) : Prop where
  normal : ∀ p ∈ c.known unit, p.IsNormal
  reached : ∀ p ∈ c.known unit, Relation.ReflTransGen (Includes tree includePaths) unit p
  queued : ∀ pending ∈ queue, pending.source ∈ c.known unit ∧
    ∃ bytes, tree.read pending.source = .ok bytes ∧ pending.target ∈ (mentionsOf bytes).includes
  -- An include of a known file waits, or leads to a known file or to none that can be read.
  followed : ∀ p ∈ c.known unit, ∀ bytes, tree.read p = .ok bytes →
    ∀ target ∈ (mentionsOf bytes).includes, ⟨p, target⟩ ∈ queue ∨
      ∀ q bytes', resolve? tree includePaths ⟨p, target⟩ = some q → tree.read q = .ok bytes' →
        q ∈ c.known unit
  own : unit ∉ c.dependencies.keys
  conditionals : Gathers tree Mentions.conditionals (c.known unit) c.conditionals
  defines : Gathers tree Mentions.defines (c.known unit) c.defines

/-- What another file mentions is added. -/
theorem Gathers.insertAll {mentioned : Mentions → SortedSet String} {files files' : List Path}
    {names : SortedSet String} (h : Gathers tree mentioned files names)
    (hread : tree.read path = .ok bytes) (hfiles : ∀ p, p ∈ files' ↔ p = path ∨ p ∈ files) :
    Gathers tree mentioned files' (names.insertAll (mentioned (mentionsOf bytes)).toList) := by
  intro name
  rw [SortedSet.contains_insertAll, ← SortedSet.contains_iff_mem, h name]
  constructor
  · rintro (hname | ⟨p, hp, hname⟩)
    · exact ⟨path, (hfiles path).mpr (.inl rfl), bytes, hread, hname⟩
    · exact ⟨p, (hfiles p).mpr (.inr hp), hname⟩
  · rintro ⟨p, hp, bytes', hread', hname⟩
    rcases (hfiles p).mp hp with rfl | hp
    · rw [hread] at hread'
      obtain rfl := Except.ok.inj hread'
      exact .inl hname
    · exact .inr ⟨p, hp, bytes', hread', hname⟩

theorem tracks_start (includePaths : List Path) (hunit : unit.IsNormal)
    (hread : tree.read unit = .ok bytes) :
    Tracks tree includePaths unit ((mentionsOf bytes).includes.map (⟨unit, ·⟩))
      (mention {} (mentionsOf bytes)) := by
  have hempty : ∀ mentioned, Gathers tree mentioned [] ∅ := by
    intro mentioned name
    constructor
    · intro hname
      cases hname
    · rintro ⟨p, hp, -⟩
      cases hp
  have hfiles : ∀ p, p ∈ [unit] ↔ p = unit ∨ p ∈ ([] : List Path) := by simp
  refine ⟨?_, ?_, ?_, ?_, ?_, (hempty _).insertAll hread hfiles, (hempty _).insertAll hread hfiles⟩
  · intro p hp
    rwa [List.mem_singleton.mp hp]
  · intro p hp
    rw [List.mem_singleton.mp hp]
  · intro pending hpending
    obtain ⟨target, htarget, rfl⟩ := List.mem_map.mp hpending
    exact ⟨List.mem_cons_self, bytes, hread, htarget⟩
  · intro p hp bytes' hread' target htarget
    obtain rfl := List.mem_singleton.mp hp
    rw [hread] at hread'
    obtain rfl := Except.ok.inj hread'
    exact .inl (List.mem_map.mpr ⟨target, htarget, rfl⟩)
  · exact List.not_mem_nil

namespace Tracks

/-- A path in normal spelling is known if it is among those of the unit's files. -/
theorem knows_iff (h : Tracks tree includePaths unit queue c) (hp : p.IsNormal) :
    c.knows unit p = true ↔ p ∈ c.known unit := by
  rw [knows, Bool.or_eq_true, known, List.mem_cons]
  constructor
  · rintro (hsame | hfound)
    · exact .inl (hp.eq_of_same (h.normal unit List.mem_cons_self) hsame)
    · obtain ⟨e, he, hsame⟩ := List.any_eq_true.mp hfound
      have hmem : e.1 ∈ c.dependencies.keys := List.mem_map_of_mem he
      rw [hp.eq_of_same (h.normal e.1 (List.mem_cons_of_mem _ hmem)) hsame]
      exact .inr hmem
  · rintro (rfl | hmem)
    · exact .inl (by simp [Path.same])
    · obtain ⟨e, he, rfl⟩ := List.mem_map.mp hmem
      exact .inr (List.any_eq_true.mpr ⟨e, he, by simp⟩)

/-- An include that leads to no new file is done with. -/
theorem skip (h : Tracks tree includePaths unit (pending :: queue) c)
    (hnone : nextFile? tree includePaths unit c pending = none) :
    Tracks tree includePaths unit queue c := by
  refine { h with
    queued := fun pending' hmem => h.queued pending' (List.mem_cons_of_mem _ hmem)
    followed := ?_ }
  intro p hp bytes hread target htarget
  rcases h.followed p hp bytes hread target htarget with hmem | hdone
  · rcases List.mem_cons.mp hmem with rfl | hmem
    · refine .inr fun q bytes' hresolve hread' => ?_
      rw [← h.knows_iff (isNormal_of_resolve? hresolve), ← Bool.not_eq_false]
      intro hnew
      rw [nextFile?_eq_some_iff.mpr ⟨hresolve, hnew, hread'⟩] at hnone
      cases hnone
    · exact .inl hmem
  · exact .inr hdone

/-- A new file is added to those that were found. -/
theorem mem_keys_add (h : Tracks tree includePaths unit queue c) (hp : path.IsNormal)
    (hnew : path ∉ c.known unit) (bytes : List UInt8) :
    p ∈ (c.add path bytes).dependencies.keys ↔ p = path ∨ p ∈ c.dependencies.keys := by
  have hkeys : ∀ e ∈ c.dependencies.toList, compare path e.1 ≠ .eq := by
    intro e he heq
    have hmem : e.1 ∈ c.known unit := List.mem_cons_of_mem _ (List.mem_map_of_mem he)
    have hsame : path = e.1 := hp.eq_of_same (h.normal e.1 hmem) (beq_iff_eq.mpr heq)
    exact hnew (hsame ▸ hmem)
  have hput := (SortedMap.put_perm (v := Digest.fingerprint bytes) hkeys).map (·.1)
  exact hput.mem_iff.trans List.mem_cons

/-- A file that is found is known from now on, and its includes wait. -/
theorem visit (h : Tracks tree includePaths unit (pending :: queue) c)
    (hnext : nextFile? tree includePaths unit c pending = some (path, bytes)) :
    Tracks tree includePaths unit (queue ++ (mentionsOf bytes).includes.map (⟨path, ·⟩))
      (c.add path bytes) := by
  obtain ⟨hresolve, hknown, hread⟩ := nextFile?_eq_some_iff.mp hnext
  have hpath := isNormal_of_resolve? hresolve
  have hnew : path ∉ c.known unit := by
    rw [← h.knows_iff hpath, hknown]
    exact Bool.false_ne_true
  have hkeys := fun p => h.mem_keys_add (p := p) hpath hnew bytes
  have hmem : ∀ p, p ∈ (c.add path bytes).known unit ↔ p = path ∨ p ∈ c.known unit := by
    intro p
    rw [known, known, List.mem_cons, List.mem_cons, hkeys]
    exact or_left_comm
  refine ⟨?_, ?_, ?_, ?_, ?_, h.conditionals.insertAll hread hmem, h.defines.insertAll hread hmem⟩
  · intro p hp
    rcases (hmem p).mp hp with rfl | hp
    · exact hpath
    · exact h.normal p hp
  · intro p hp
    rcases (hmem p).mp hp with rfl | hp
    · obtain ⟨hsource, bytes', hread', htarget⟩ := h.queued pending List.mem_cons_self
      obtain ⟨found, hfound, hnormal⟩ := resolve?_eq_some_iff.mp hresolve
      exact (h.reached _ hsource).tail
        ⟨bytes', pending.target, found, hread', htarget, hfound, hnormal, bytes, hread⟩
    · exact h.reached p hp
  · intro pending' hpending
    rcases List.mem_append.mp hpending with hpending | hpending
    · obtain ⟨hsource, htarget⟩ := h.queued pending' (List.mem_cons_of_mem _ hpending)
      exact ⟨(hmem _).mpr (.inr hsource), htarget⟩
    · obtain ⟨target, htarget, rfl⟩ := List.mem_map.mp hpending
      exact ⟨(hmem _).mpr (.inl rfl), bytes, hread, htarget⟩
  · intro p hp bytes' hread' target htarget
    rcases (hmem p).mp hp with rfl | hp
    · rw [hread] at hread'
      obtain rfl := Except.ok.inj hread'
      exact .inl (List.mem_append_right _ (List.mem_map.mpr ⟨target, htarget, rfl⟩))
    · rcases h.followed p hp bytes' hread' target htarget with hwaits | hdone
      · rcases List.mem_cons.mp hwaits with rfl | hwaits
        · refine .inr fun q bytes'' hq _ => ?_
          rw [hresolve] at hq
          exact (hmem q).mpr (.inl (Option.some.inj hq).symm)
        · exact .inl (List.mem_append_left _ hwaits)
      · exact .inr fun q bytes'' hq hreadq => (hmem q).mpr (.inr (hdone q bytes'' hq hreadq))
  · rw [hkeys, not_or]
    exact ⟨fun heq => hnew (heq ▸ List.mem_cons_self), h.own⟩

/-- When all includes are followed, the known files are those that the unit includes. -/
theorem mem_known_iff (h : Tracks tree includePaths unit [] c) :
    p ∈ c.known unit ↔ Relation.ReflTransGen (Includes tree includePaths) unit p := by
  refine ⟨h.reached p, fun hreach => ?_⟩
  induction hreach with
  | refl => exact List.mem_cons_self
  | @tail p q _ hincludes ih =>
    obtain ⟨bytes, target, found, hread, htarget, hfound, hnormal, bytes', hread'⟩ := hincludes
    have hresolve : resolve? tree includePaths ⟨p, target⟩ = some q :=
      resolve?_eq_some_iff.mpr ⟨found, hfound, hnormal⟩
    rcases h.followed p ih bytes hread target htarget with hwaits | hdone
    · cases hwaits
    · exact hdone q bytes' hresolve hread'

end Tracks

theorem tracks_follow (h : Tracks tree includePaths unit queue c) :
    Tracks tree includePaths unit [] (follow tree includePaths unit queue c) := by
  fun_induction follow tree includePaths unit queue c with
  | case1 c => exact h
  | case2 c pending queue hnone ih => exact ih (h.skip hnone)
  | case3 c pending queue path bytes hsome ih => exact ih (h.visit hsome)

end Closure

/-- The unit of a file that can be read has as dependencies the other files that it includes,
directly or through others, in strict order of their paths. The names it leaves open are those that
conditions in its files ask about, without those that its files define. -/
theorem load_eq_include_closure (includePaths : List Path) {file : Path}
    (hread : tree.read file = .ok bytes) (hspelled : tree.read file.normalize = tree.read file) :
    ∃ unit, load tree includePaths file = .ok unit ∧ unit.path = file.normalize ∧
      (∀ p, p ∈ unit.dependencies.map (·.path) ↔ p ≠ file.normalize ∧
        Relation.ReflTransGen (Includes tree includePaths) file.normalize p) ∧
      (unit.dependencies.Pairwise fun d e => compare d.path e.path = .lt) ∧
      ∀ name, unit.conditionals.contains name = true ↔
        (∃ p ∈ unit.files, ∃ bytes, tree.read p = .ok bytes ∧
          (mentionsOf bytes).conditionals.contains name = true) ∧
        ¬∃ p ∈ unit.files, ∃ bytes, tree.read p = .ok bytes ∧
          (mentionsOf bytes).defines.contains name = true := by
  have htracks := Closure.tracks_follow
    (Closure.tracks_start includePaths file.isNormal_normalize (hspelled.trans hread))
  generalize hfollow : follow tree includePaths file.normalize _ _ = c at htracks
  have hload : load tree includePaths file = .ok {
      path := file.normalize
      fingerprint := Digest.fingerprint bytes
      dependencies := c.dependencies.toList.map fun e => ⟨e.1, e.2⟩
      conditionals := c.conditionals.diff c.defines } := by
    simp only [load, hread, hfollow]
  have hkeys : (c.dependencies.toList.map fun e => (⟨e.1, e.2⟩ : Dependency)).map (·.path) =
      c.dependencies.keys := by
    rw [List.map_map]
    rfl
  refine ⟨_, hload, rfl, ?_, (loadedFrom_of_load hload).ordered, ?_⟩
  · intro p
    rw [hkeys, ← htracks.mem_known_iff, Closure.known, List.mem_cons]
    constructor
    · intro hp
      exact ⟨fun heq => htracks.own (heq ▸ hp), .inr hp⟩
    · rintro ⟨hne, hp⟩
      exact hp.resolve_left hne
  · intro name
    rw [SortedSet.contains_diff, Bool.and_eq_true, Bool.not_eq_true', ← Bool.not_eq_true,
      htracks.conditionals name, htracks.defines name, files, hkeys]
    rfl

section Mutual

def mutualSource : List UInt8 := encode "#include <a.h>\n#ifdef X\n#endif\n".toList

def mutualHeader : List UInt8 := encode "#include \"../../m.c\"\n#define X\n".toList

/-- A file at the top and a header in another directory that include one another. The header leads
up beyond the top. -/
def mutualTree : FileTree :=
  ((FileTree.put {} ["m.c"] (.file mutualSource)).put ["inc"] .directory).put ["inc", "a.h"]
    (.file mutualHeader)

/-- The file is loaded with the header that includes it. -/
theorem load_mutualTree : Includes mutualTree [⟨"/inc"⟩] ⟨"/m.c"⟩ ⟨"/inc/a.h"⟩ ∧
    Includes mutualTree [⟨"/inc"⟩] ⟨"/inc/a.h"⟩ ⟨"/m.c"⟩ ∧
    ∃ unit, load mutualTree [⟨"/inc"⟩] ⟨"/./m.c"⟩ = .ok unit ∧
      ⟨"/inc/a.h"⟩ ∈ unit.dependencies.map (·.path) ∧ ⟨"/m.c"⟩ ∉ unit.dependencies.map (·.path) ∧
      unit.conditionals.contains "X" = false := by
  have hheader : Includes mutualTree [⟨"/inc"⟩] ⟨"/m.c"⟩ ⟨"/inc/a.h"⟩ :=
    ⟨mutualSource, ⟨1, "a.h", true⟩, ⟨"/inc/a.h"⟩, rfl, by decide +kernel,
      ⟨[], [], by decide +kernel, by decide +kernel, by simp⟩, by decide +kernel, mutualHeader, rfl⟩
  have hback : Includes mutualTree [⟨"/inc"⟩] ⟨"/inc/a.h"⟩ ⟨"/m.c"⟩ :=
    ⟨mutualHeader, ⟨1, "../../m.c", false⟩, ⟨"/inc/../../m.c"⟩, rfl, by decide +kernel,
      ⟨[], [⟨"/inc/../../m.c"⟩], by decide +kernel, by decide +kernel, by simp⟩,
      by decide +kernel, mutualSource, rfl⟩
  have hnormal : (⟨"/./m.c"⟩ : Path).normalize = ⟨"/m.c"⟩ := by decide +kernel
  have hread : mutualTree.read ⟨"/./m.c"⟩ = .ok mutualSource := rfl
  obtain ⟨unit, hload, -, hdependencies, -, hconditionals⟩ :=
    load_eq_include_closure [⟨"/inc"⟩] hread (by rw [hnormal]; rfl)
  rw [hnormal] at hdependencies
  have hknown := (hdependencies ⟨"/inc/a.h"⟩).mpr ⟨by simp, .single hheader⟩
  refine ⟨hheader, hback, unit, hload, hknown, fun h => ((hdependencies _).mp h).1 rfl, ?_⟩
  rw [← Bool.not_eq_true, hconditionals]
  rintro ⟨-, hdefined⟩
  exact hdefined ⟨⟨"/inc/a.h"⟩, List.mem_cons_of_mem _ hknown, mutualHeader, rfl,
    by decide +kernel⟩

end Mutual

end MacroSweep.SourceUnit
