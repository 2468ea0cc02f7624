import MacroSweep.Proofs.Loading
import MacroSweep.Proofs.Spelling
import MacroSweep.Proofs.Store
import Mathlib.Data.List.Find

/-! Units are loaded as before when only results were stored. The files that loading asks for read
the same, as long as none of them stands among the records and each path reads like its normal
spelling. -/
namespace MacroSweep

open Cache

namespace FileTree

variable {tree : FileTree} {p : Path}

theorem toOption_eq_of_iff {α : Type} {x y : Except FileError α}
    (h : ∀ a, x = .ok a ↔ y = .ok a) : x.toOption = y.toOption := by
  cases hx : x with
  | ok a => rw [(h a).mp hx]
  | error e =>
    cases hy : y with
    | ok a =>
      rw [(h a).mpr hy] at hx
      cases hx
    | error e' => rfl

theorem eq_ok_of_toOption {α : Type} {x y : Except FileError α} {a : α}
    (h : x.toOption = y.toOption) (hy : y = .ok a) : x = .ok a := by
  rw [hy] at h
  cases x with
  | ok b => exact congrArg Except.ok (Option.some.inj h)
  | error e => cases h

theorem isFile_eq (tree : FileTree) (p : Path) : tree.isFile p = (tree.read p).toOption.isSome := by
  rw [isFile, read]
  cases tree.lookup p with
  | error e => rfl
  | ok node => cases node <;> rfl

end FileTree

namespace Cache

variable {store : Store} {tree tree' : FileTree} {p : Path} {q : Place} {bytes : List UInt8}

/-- Whether a path, if it leads to a file, does not lead into the directory of records. -/
def Outside (store : Store) (tree : FileTree) (p : Path) : Prop :=
  ∀ q bytes, tree.locate p = .ok q → tree.node? q = some (.file bytes) →
    tree.placeOf store.directory ≠ q.dropLast

/-- A path in normal spelling that leads to no file of the directory of records reads as before when
only those were altered. -/
theorem toOption_read_of_outside
    (h : FileTree.Alters (FileTree.inside (tree.placeOf store.directory)) tree tree')
    (hwf : tree.WellFormed) (hp : p.IsNormal) (hout : Outside store tree p)
    (hout' : Outside store tree' p) : (tree'.read p).toOption = (tree.read p).toOption := by
  refine FileTree.toOption_eq_of_iff fun bytes => ⟨fun hread => ?_, fun hread => ?_⟩
  · obtain ⟨q, hq, hfile⟩ := FileTree.read_eq_ok_iff.mp hread
    have hdirectory := hout' q bytes hq hfile
    rw [h.placeOf] at hdirectory
    have hshort := (FileTree.locate_eq_ok_iff.mp hq).2.1
    refine hwf.readable_of_isNormal hp hshort bytes ?_
    rw [← h.placeOf, FileTree.placeOf_of_locate hq]
    exact (h.files q bytes (Ne.symm hdirectory)).mp hfile
  · obtain ⟨q, hq, hfile⟩ := FileTree.read_eq_ok_iff.mp hread
    refine h.read ?_ hread
    rw [FileTree.placeOf_of_locate hq]
    exact (hout q bytes hq hfile).symm

end Cache

namespace SourceUnit

variable {store : Store} {tree tree' : FileTree} {includePaths files : List Path}
  {p n own : Path} {bytes : List UInt8} {c : Closure} {queue : List Pending} {pending : Pending}

/-- The paths that loading may ask for: the given files, and wherever the includes of files that are
read are looked for. -/
inductive Asked (tree : FileTree) (includePaths files : List Path) : Path → Prop where
  | input {file : Path} (h : file ∈ files) : Asked tree includePaths files file
  | included {p dir : Path} {bytes : List UInt8} {target : Source.Include}
      (hp : Asked tree includePaths files p) (hread : tree.read p.normalize = .ok bytes)
      (htarget : target ∈ (mentionsOf bytes).includes)
      (hdir : dir ∈ searchDirectories includePaths ⟨p.normalize, target⟩) :
      Asked tree includePaths files (dir.join ⟨target.target⟩)

/-- Whether each path that loading may ask for reads like its normal spelling, and none of the files
that it finds lies in the directory of records. -/
structure Orderly (store : Store) (includePaths files : List Path) (tree : FileTree) : Prop where
  spelled : ∀ p, Asked tree includePaths files p →
    (tree.read p.normalize).toOption = (tree.read p).toOption
  outside : ∀ p, Asked tree includePaths files p → Outside store tree p.normalize

/-- Trees between which results were stored, with nothing that loading asks for among them. -/
structure Reloads (store : Store) (includePaths files : List Path) (tree tree' : FileTree) :
    Prop where
  wellFormed : tree.WellFormed
  alters : FileTree.Alters (FileTree.inside (tree.placeOf store.directory)) tree tree'
  before : Orderly store includePaths files tree
  after : Orderly store includePaths files tree'

/-- A path that loading asks for before and after. -/
def AskedTwice (includePaths files : List Path) (tree tree' : FileTree) (p : Path) : Prop :=
  Asked tree includePaths files p ∧ Asked tree' includePaths files p

/-- The normal spelling of such a path, if a file is read there. -/
def FoundTwice (includePaths files : List Path) (tree tree' : FileTree) (n : Path) : Prop :=
  ∃ p bytes, AskedTwice includePaths files tree tree' p ∧ n = p.normalize ∧ tree.read n = .ok bytes

/-- An include that stands in such a file. -/
def KnownTwice (includePaths files : List Path) (tree tree' : FileTree) (pending : Pending) :
    Prop :=
  ∃ p bytes, AskedTwice includePaths files tree tree' p ∧ pending.source = p.normalize ∧
    tree.read p.normalize = .ok bytes ∧ pending.target ∈ (mentionsOf bytes).includes

namespace Reloads

variable (h : Reloads store includePaths files tree tree')

include h

theorem toOption_read_normalize (hp : AskedTwice includePaths files tree tree' p) :
    (tree'.read p.normalize).toOption = (tree.read p.normalize).toOption :=
  toOption_read_of_outside h.alters h.wellFormed p.isNormal_normalize (h.before.outside p hp.1)
    (h.after.outside p hp.2)

theorem toOption_read (hp : AskedTwice includePaths files tree tree' p) :
    (tree'.read p).toOption = (tree.read p).toOption := by
  rw [← h.after.spelled p hp.2, h.toOption_read_normalize hp, h.before.spelled p hp.1]

/-- An include of a file that loading asks for is looked for in the same places. -/
theorem askedTwice_of_knownTwice (hp : KnownTwice includePaths files tree tree' pending)
    {dir : Path} (hdir : dir ∈ searchDirectories includePaths pending) :
    AskedTwice includePaths files tree tree' (dir.join ⟨pending.target.target⟩) := by
  obtain ⟨source, target⟩ := pending
  obtain ⟨p, bytes, hasked, rfl, hread, htarget⟩ := hp
  have hread' := FileTree.eq_ok_of_toOption (h.toOption_read_normalize hasked) hread
  exact ⟨.included hasked.1 hread htarget hdir, .included hasked.2 hread' htarget hdir⟩

theorem resolve?_eq (hp : KnownTwice includePaths files tree tree' pending) :
    resolve? tree' includePaths pending = resolve? tree includePaths pending := by
  refine congrArg (Option.map Path.normalize) (List.find?_congr fun p hmem => ?_)
  obtain ⟨dir, hdir, rfl⟩ := List.mem_map.mp hmem
  rw [FileTree.isFile_eq, FileTree.isFile_eq,
    h.toOption_read (h.askedTwice_of_knownTwice hp hdir)]

theorem foundTwice_of_resolve? (hp : KnownTwice includePaths files tree tree' pending)
    (hn : resolve? tree includePaths pending = some n) :
    FoundTwice includePaths files tree tree' n := by
  obtain ⟨p, hfind, rfl⟩ := Option.map_eq_some_iff.mp hn
  obtain ⟨dir, hdir, rfl⟩ := List.mem_map.mp (List.mem_of_find?_eq_some hfind)
  have hasked := h.askedTwice_of_knownTwice hp hdir
  have hfile : (tree.read (dir.join ⟨pending.target.target⟩)).toOption.isSome = true := by
    rw [← FileTree.isFile_eq]
    exact List.find?_some hfind
  obtain ⟨bytes, hbytes⟩ := Option.isSome_iff_exists.mp hfile
  have hread : (tree.read (dir.join ⟨pending.target.target⟩).normalize).toOption =
      (Except.ok bytes : Except FileError _).toOption :=
    (h.before.spelled _ hasked.1).trans hbytes
  exact ⟨_, bytes, hasked, rfl, FileTree.eq_ok_of_toOption hread rfl⟩

/-- The same file comes next. -/
theorem nextFile?_eq (own : Path) (c : Closure)
    (hp : KnownTwice includePaths files tree tree' pending) :
    nextFile? tree' includePaths own c pending = nextFile? tree includePaths own c pending := by
  unfold nextFile?
  rw [h.resolve?_eq hp]
  cases hn : resolve? tree includePaths pending with
  | none => rfl
  | some n =>
    obtain ⟨p, bytes, hasked, rfl, hread⟩ := h.foundTwice_of_resolve? hp hn
    have hread' := FileTree.eq_ok_of_toOption (h.toOption_read_normalize hasked) hread
    simp only [Option.bind_eq_bind, Option.bind_some, hread, hread']

/-- Includes are followed to the same files. -/
theorem follow_eq (hqueue : ∀ pending ∈ queue, KnownTwice includePaths files tree tree' pending) :
    follow tree' includePaths own queue c = follow tree includePaths own queue c := by
  fun_induction follow tree includePaths own queue c with
  | case1 => rw [follow]
  | case2 c pending queue hnone ih =>
    have hnext := h.nextFile?_eq own c (hqueue pending List.mem_cons_self)
    rw [follow_cons_of_none (hnext.trans hnone)]
    exact ih fun p hp => hqueue p (List.mem_cons_of_mem _ hp)
  | case3 c pending queue path bytes hsome ih =>
    have hpending := hqueue pending List.mem_cons_self
    have hnext := h.nextFile?_eq own c hpending
    obtain ⟨hresolve, -, hread⟩ := nextFile?_eq_some_iff.mp hsome
    obtain ⟨p, -, hasked, rfl, -⟩ := h.foundTwice_of_resolve? hpending hresolve
    rw [follow_cons_of_some (hnext.trans hsome)]
    refine ih fun pending' hmem => ?_
    rcases List.mem_append.mp hmem with hmem | hmem
    · exact hqueue pending' (List.mem_cons_of_mem _ hmem)
    · obtain ⟨target, htarget, rfl⟩ := List.mem_map.mp hmem
      exact ⟨p, bytes, hasked, rfl, hread, htarget⟩

theorem load_eq {file : Path} (hfile : file ∈ files) :
    (load tree' includePaths file).toOption = (load tree includePaths file).toOption := by
  have hasked : AskedTwice includePaths files tree tree' file := ⟨.input hfile, .input hfile⟩
  have hsame := h.toOption_read hasked
  cases hread : tree.read file with
  | error cause =>
    cases hread' : tree'.read file with
    | error cause' => simp only [load, hread, hread', Except.toOption]
    | ok bytes =>
      rw [hread, hread'] at hsame
      cases hsame
  | ok bytes =>
    have hread' := FileTree.eq_ok_of_toOption hsame hread
    have hnormal := FileTree.eq_ok_of_toOption (h.before.spelled file hasked.1) hread
    have hqueue : ∀ pending ∈ (mentionsOf bytes).includes.map (Pending.mk file.normalize),
        KnownTwice includePaths files tree tree' pending := by
      intro pending hmem
      obtain ⟨target, htarget, rfl⟩ := List.mem_map.mp hmem
      exact ⟨file, bytes, hasked, rfl, hnormal, htarget⟩
    simp only [load, hread, hread', h.follow_eq hqueue]

/-- The same units are loaded. -/
theorem loadAll_eq : loadAll tree' includePaths files = loadAll tree includePaths files := by
  have hunits : files.filterMap (fun file => (load tree' includePaths file).toOption) =
      files.filterMap fun file => (load tree includePaths file).toOption :=
    List.filterMap_congr fun file hfile => h.load_eq hfile
  rw [loadAll, loadAll, hunits]

end Reloads

end SourceUnit

end MacroSweep
