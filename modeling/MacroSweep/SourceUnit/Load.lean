import MacroSweep.SourceUnit.Basic

/-! Loading of source units: includes are followed until no new file is found. -/
namespace MacroSweep.SourceUnit

open Source Text

/-- An include still to be followed, and the file it stands in. -/
structure Pending where
  source : Path
  target : Include

/-- What is known of the files of a unit. -/
structure Closure where
  dependencies : SortedMap Path String := ∅
  conditionals : SortedSet String := ∅
  defines : SortedSet String := ∅

/-- Adds what a file mentions. -/
def Closure.mention (c : Closure) (m : Mentions) : Closure :=
  { c with
    conditionals := c.conditionals.insertAll m.conditionals.toList
    defines := c.defines.insertAll m.defines.toList }

/-- What the text in bytes mentions. -/
def mentionsOf (bytes : List UInt8) : Mentions := mentions (decodeLossy bytes)

/-- The directories in which an included file is looked for. -/
def searchDirectories (includePaths : List Path) (p : Pending) : List Path :=
  if p.target.system then includePaths else p.source.directory :: includePaths

/-- The file an include stands for: the first that exists, in its normal spelling. -/
def resolve? (tree : FileTree) (includePaths : List Path) (p : Pending) : Option Path :=
  (((searchDirectories includePaths p).map (·.join ⟨p.target.target⟩)).find? tree.isFile).map
    Path.normalize

/-- Whether a path is that of the unit or of a file found for it. -/
def Closure.knows (c : Closure) (unit path : Path) : Bool :=
  path.same unit || c.dependencies.contains path

/-- The closure with one more file. -/
def Closure.add (c : Closure) (path : Path) (bytes : List UInt8) : Closure :=
  { c with dependencies := c.dependencies.insert path (Digest.fingerprint bytes) }.mention
    (mentionsOf bytes)

/-- The file an include leads to, with its bytes, if it is not known. -/
def nextFile? (tree : FileTree) (includePaths : List Path) (unit : Path) (c : Closure)
    (p : Pending) : Option (Path × List UInt8) := do
  let path ← resolve? tree includePaths p
  if c.knows unit path then none
  else
    match tree.read path with
    | .ok bytes => some (path, bytes)
    | .error _ => none

theorem nextFile?_eq_some_iff {tree : FileTree} {includePaths : List Path} {unit path : Path}
    {c : Closure} {p : Pending} {bytes : List UInt8} :
    nextFile? tree includePaths unit c p = some (path, bytes) ↔
      resolve? tree includePaths p = some path ∧ c.knows unit path = false ∧
        tree.read path = .ok bytes := by
  unfold nextFile?
  cases hr : resolve? tree includePaths p with
  | none => simp
  | some path' =>
    simp only [Option.bind_eq_bind, Option.bind_some]
    constructor
    · intro h
      split at h
      · cases h
      · next hknown =>
        split at h
        · next hread =>
          cases h
          exact ⟨rfl, Bool.eq_false_iff.mpr hknown, hread⟩
        · cases h
    · rintro ⟨hpath, hknown, hread⟩
      cases hpath
      simp [hknown, hread]

theorem countP_lt_of_mem {α : Type} {p q : α → Bool} {l : List α} {a : α} (ha : a ∈ l)
    (hpq : ∀ b, p b = true → q b = true) (hp : p a = false) (hq : q a = true) :
    l.countP p < l.countP q := by
  induction l with
  | nil => cases ha
  | cons b l ih =>
    have hle : l.countP p ≤ l.countP q := List.countP_mono_left fun b _ => hpq b
    rcases List.mem_cons.mp ha with rfl | ha
    · simp only [List.countP_cons, hp, hq, if_true, Bool.false_eq_true, if_false]
      omega
    · have hlt := ih ha
      simp only [List.countP_cons]
      split
      · next hb => simp [hpq b hb, hlt]
      · omega

namespace Closure

/-- How many paths that may be followed are not known. -/
def unknown (c : Closure) (unit : Path) : Nat :=
  (textsUpTo Path.limit).countP fun text => !c.knows unit ⟨String.ofList text⟩

theorem knows_add (c : Closure) (unit path p : Path) (bytes : List UInt8) :
    (c.add path bytes).knows unit p = (p.same path || c.knows unit p) := by
  simp only [knows, add, mention, SortedMap.contains_insert]
  exact Bool.or_left_comm ..

/-- A file that is read has a path that may be followed, so fewer such paths are unknown after
it. -/
theorem unknown_add_lt {tree : FileTree} {unit path : Path} {c : Closure} {bytes : List UInt8}
    (hknown : c.knows unit path = false) (hread : tree.read path = .ok bytes) :
    (c.add path bytes).unknown unit < c.unknown unit := by
  have hlength : path.text.toList.length ≤ Path.limit := by
    have hshort := FileTree.byteLength_lt_of_read hread
    have hle := length_le_byteLength path.text.toList
    omega
  refine countP_lt_of_mem (mem_textsUpTo hlength) (fun text htext => ?_) ?_ ?_
  · simp_all [knows_add]
  · simp [knows_add, Path.same]
  · simp [hknown]

end Closure

/-- Follows includes, the oldest first. Each file is read once, so this ends also where files
include one another. -/
def follow (tree : FileTree) (includePaths : List Path) (unit : Path) (queue : List Pending)
    (c : Closure) : Closure :=
  match queue with
  | [] => c
  | p :: queue =>
    match _h : nextFile? tree includePaths unit c p with
    | none => follow tree includePaths unit queue c
    | some (path, bytes) =>
      follow tree includePaths unit (queue ++ (mentionsOf bytes).includes.map (⟨path, ·⟩))
        (c.add path bytes)
termination_by (c.unknown unit, queue.length)
decreasing_by
  · exact Prod.Lex.right _ (Nat.lt_succ_self _)
  · obtain ⟨-, hknown, hread⟩ := nextFile?_eq_some_iff.mp _h
    exact Prod.Lex.left _ _ (Closure.unknown_add_lt hknown hread)

/-- Loads the unit of a file. Includes that cannot be found or read are left out. -/
def load (tree : FileTree) (includePaths : List Path) (file : Path) :
    Except LoadError SourceUnit :=
  let path := file.normalize
  match tree.read file with
  | .error cause => .error ⟨path, cause⟩
  | .ok bytes =>
    let m := mentionsOf bytes
    let c := follow tree includePaths path (m.includes.map (⟨path, ·⟩)) (Closure.mention {} m)
    .ok {
      path
      fingerprint := Digest.fingerprint bytes
      dependencies := c.dependencies.toList.map fun e => ⟨e.1, e.2⟩
      conditionals := c.conditionals.diff c.defines }

/-- Keeps the first of neighbours with the same path. -/
def dedup : List SourceUnit → List SourceUnit
  | u :: v :: rest => if u.path.same v.path then dedup (u :: rest) else u :: dedup (v :: rest)
  | units => units

/-- Loads files that can be read, in order of path and each once. -/
def loadAll (tree : FileTree) (includePaths : List Path) (files : List Path) : List SourceUnit :=
  let units := files.filterMap fun file => (load tree includePaths file).toOption
  dedup (units.mergeSort fun u v => (compare u.path v.path).isLE)

end MacroSweep.SourceUnit
