import MacroSweep.FileTree.Basic
import MacroSweep.Proofs.Ordered
import MacroSweep.Proofs.Text
import Mathlib.Data.Set.Insert

/-! What stays as it is when directories are made and files are written, moved or taken away: the
files at all other places, and whatever paths lead to them. -/
namespace MacroSweep

/-- A path of few characters is not too long. -/
theorem Path.isTooLong_of_length {p : Path} (h : 4 * p.text.toList.length < limit) :
    p.isTooLong = false := by
  have general : ∀ (n : Nat) (cs : List Char),
      cs.foldl (fun n c => n + c.utf8Size) n ≤ n + 4 * cs.length := by
    intro n cs
    induction cs generalizing n with
    | nil => exact Nat.le_refl n
    | cons c cs ih =>
      have hc := c.utf8Size_le_four
      have hcs := ih (n + c.utf8Size)
      simp only [List.length_cons, List.foldl_cons]
      omega
  have hle := general 0 p.text.toList
  rw [Nat.zero_add] at hle
  exact decide_eq_false (Nat.not_le.mpr (Nat.lt_of_le_of_lt hle h))

namespace FileTree

open Text

variable {tree tree' : FileTree} {place q : Place} {node : Node} {steps : List Step}
  {p dir temporary : Path} {bytes b : List UInt8}

theorem exists_of_bind_eq_ok {α β : Type} {x : Except FileError α} {f : α → Except FileError β}
    {b : β} (h : x >>= f = .ok b) : ∃ a, x = .ok a ∧ f a = .ok b := by
  cases x with
  | error e => cases h
  | ok a => exact ⟨a, rfl, h⟩

theorem node?_put (hplace : place ≠ []) (q : Place) :
    (tree.put place node).node? q = if q = place then some node else tree.node? q := by
  by_cases hq : q = []
  · have hne : q ≠ place := fun h => hplace (h ▸ hq)
    simp [node?, hq, Ne.symm hplace]
  · have hcompare : compare q place = .eq ↔ q = place := Std.LawfulEqOrd.compare_eq_iff_eq
    simp only [node?, hq, if_false, put, SortedMap.find?_insert, hcompare]

theorem node?_erase (hplace : place ≠ []) (q : Place) :
    (tree.erase place).node? q = if q = place then none else tree.node? q := by
  by_cases hq : q = []
  · have hne : q ≠ place := fun h => hplace (h ▸ hq)
    simp [node?, hq, Ne.symm hplace]
  · have hcompare : compare q place = .eq ↔ q = place := Std.LawfulEqOrd.compare_eq_iff_eq
    simp only [node?, hq, if_false, erase, SortedMap.find?_erase, hcompare]

theorem ne_nil_of_node?_ne (h : tree.node? q ≠ some .directory) : q ≠ [] := by
  rintro rfl
  exact h rfl

/-- The place that steps lead to, whatever stands on the way. -/
def placeFrom (start : Place) (steps : List Step) : Place := steps.foldl step start

/-- The place of a path, whatever stands on the way. -/
def placeOf (tree : FileTree) (p : Path) : Place := placeFrom (tree.origin p) p.steps

theorem placeFrom_of_walk (h : tree.walk place steps = .ok q) : placeFrom place steps = q := by
  induction steps generalizing place with
  | nil => exact Except.ok.inj h
  | cons s steps ih =>
    rw [walk] at h
    split at h
    · cases h
    · cases h
    · exact ih h

theorem locate_eq_ok_iff : tree.locate p = .ok q ↔
    p.text ≠ "" ∧ p.isTooLong = false ∧ tree.walk (tree.origin p) p.steps = .ok q := by
  unfold locate
  split
  · next hempty => simp [hempty]
  · next htext =>
    split
    · next hlong => simp [hlong]
    · next hshort => simp [htext, hshort]

theorem placeOf_of_locate (h : tree.locate p = .ok q) : tree.placeOf p = q :=
  placeFrom_of_walk (locate_eq_ok_iff.mp h).2.2

theorem placeOf_congr (h : tree'.base = tree.base) (p : Path) :
    tree'.placeOf p = tree.placeOf p := by
  simp only [placeOf, origin, h]

theorem walk_of_directories
    (hdirectories : ∀ q, tree.node? q = some .directory → tree'.node? q = some .directory)
    {start : Place} (hw : tree.walk start steps = .ok q) : tree'.walk start steps = .ok q := by
  induction steps generalizing start with
  | nil => exact hw
  | cons s steps ih =>
    rw [walk] at hw ⊢
    split at hw
    · cases hw
    · cases hw
    · next hd =>
      rw [hdirectories _ hd]
      exact ih hw

/-- A path leads to the same place if what was a directory still is. -/
theorem locate_of_directories (hbase : tree'.base = tree.base)
    (hdirectories : ∀ q, tree.node? q = some .directory → tree'.node? q = some .directory)
    (hl : tree.locate p = .ok q) : tree'.locate p = .ok q := by
  have horigin : tree'.origin p = tree.origin p := by simp only [origin, hbase]
  rw [locate_eq_ok_iff] at hl ⊢
  rw [horigin]
  exact ⟨hl.1, hl.2.1, walk_of_directories hdirectories hl.2.2⟩

/-- A path that is read leads to a place with a file. -/
theorem read_eq_ok_iff :
    tree.read p = .ok bytes ↔ ∃ q, tree.locate p = .ok q ∧ tree.node? q = some (.file bytes) := by
  constructor
  · intro h
    obtain ⟨node, hl, h⟩ := exists_of_bind_eq_ok h
    obtain ⟨q, hq, hl⟩ := exists_of_bind_eq_ok hl
    refine ⟨q, hq, ?_⟩
    split at hl
    · next n hn =>
      cases hl
      rw [hn]
      cases node with
      | file b =>
        cases h
        rfl
      | directory => cases h
    · cases hl
  · rintro ⟨q, hq, hn⟩
    simp only [read, lookup, hq, bind, Except.bind, hn]

theorem node?_placeOf_of_read (h : tree.read p = .ok bytes) :
    tree.node? (tree.placeOf p) = some (.file bytes) := by
  obtain ⟨q, hq, hn⟩ := read_eq_ok_iff.mp h
  rwa [placeOf_of_locate hq]

/-- A path that reads the file at its place, if one stands there. -/
def Readable (tree : FileTree) (p : Path) : Prop :=
  ∀ bytes, tree.node? (tree.placeOf p) = some (.file bytes) → tree.read p = .ok bytes

theorem Readable.read_eq_ok_iff (h : tree.Readable p) :
    tree.read p = .ok bytes ↔ tree.node? (tree.placeOf p) = some (.file bytes) :=
  ⟨node?_placeOf_of_read, h bytes⟩

theorem readable_of_read (h : tree.read p = .ok bytes) : tree.Readable p := by
  intro b hb
  rw [node?_placeOf_of_read h] at hb
  rw [h, Node.file.inj (Option.some.inj hb)]

/-- The places in the directory at a place. -/
def inside (place : Place) : Set Place := {q | q.dropLast = place}

/-- The tree after files were written or taken away at some places, and directories were made: what
was a directory still is, and no other file is new or gone. -/
structure Alters (places : Set Place) (tree tree' : FileTree) : Prop where
  base : tree'.base = tree.base
  directories : ∀ q, tree.node? q = some .directory → tree'.node? q = some .directory
  files : ∀ q bytes, q ∉ places →
    (tree'.node? q = some (.file bytes) ↔ tree.node? q = some (.file bytes))

namespace Alters

variable {places places' : Set Place}

theorem refl (places : Set Place) (tree : FileTree) : Alters places tree tree :=
  ⟨rfl, fun _ h => h, fun _ _ _ => Iff.rfl⟩

theorem trans {tree'' : FileTree} (h : Alters places tree tree')
    (h' : Alters places tree' tree'') : Alters places tree tree'' :=
  ⟨h'.base.trans h.base, fun q hq => h'.directories q (h.directories q hq),
    fun q b hq => (h'.files q b hq).trans (h.files q b hq)⟩

theorem mono (h : Alters places tree tree') (hsub : places ⊆ places') :
    Alters places' tree tree' :=
  { h with files := fun q b hq => h.files q b fun hmem => hq (hsub hmem) }

variable (h : Alters places tree tree')

include h

theorem placeOf (p : Path) : tree'.placeOf p = tree.placeOf p := placeOf_congr h.base p

theorem locate (hq : tree.locate p = .ok q) : tree'.locate p = .ok q :=
  locate_of_directories h.base h.directories hq

/-- What is read from another place is read as before. -/
theorem read (hout : tree.placeOf p ∉ places) (hread : tree.read p = .ok bytes) :
    tree'.read p = .ok bytes := by
  obtain ⟨q, hq, hn⟩ := FileTree.read_eq_ok_iff.mp hread
  rw [placeOf_of_locate hq] at hout
  exact FileTree.read_eq_ok_iff.mpr ⟨q, h.locate hq, (h.files q bytes hout).mpr hn⟩

theorem readable (hout : tree.placeOf p ∉ places) (hreadable : tree.Readable p) :
    tree'.Readable p := by
  intro b hb
  rw [h.placeOf, h.files _ b hout] at hb
  exact h.read hout (hreadable b hb)

/-- What stands at another place is read or not as before. -/
theorem toOption_read (hout : tree.placeOf p ∉ places) (hreadable : tree.Readable p) :
    (tree'.read p).toOption = (tree.read p).toOption := by
  have hiff : ∀ b, tree'.read p = .ok b ↔ tree.read p = .ok b := by
    intro b
    rw [(h.readable hout hreadable).read_eq_ok_iff, hreadable.read_eq_ok_iff, h.placeOf,
      h.files _ b hout]
  cases hread : tree.read p with
  | ok b => rw [(hiff b).mpr hread]
  | error e =>
    cases hread' : tree'.read p with
    | ok b =>
      rw [(hiff b).mp hread'] at hread
      cases hread
    | error e' => rfl

end Alters

section Directories

variable {made : FileTree} {failure : FileFailure}

theorem alters_put_directory (h : tree.node? place = none) :
    Alters ∅ tree (tree.put place .directory) := by
  have hplace : place ≠ [] := by
    rintro rfl
    cases h
  refine ⟨rfl, fun q hq => ?_, fun q b _ => ?_⟩
  · rw [node?_put hplace]
    split
    · rfl
    · exact hq
  · rw [node?_put hplace]
    split
    · next he => simp [he, h]
    · rfl

/-- The tree that is left, whether all went well or not. -/
def left : Except FileFailure FileTree → FileTree
  | .ok tree => tree
  | .error failure => failure.tree

theorem alters_makeDirectories (tree : FileTree) (place : Place) (steps : List Step) :
    Alters ∅ tree (left (tree.makeDirectories place steps)) := by
  induction steps generalizing tree place with
  | nil => exact .refl ∅ tree
  | cons s steps ih =>
    rw [makeDirectories]
    split
    · exact ih tree _
    · exact .refl ∅ tree
    · next hn => exact (alters_put_directory hn).trans (ih _ _)

theorem alters_createDirectories (tree : FileTree) (dir : Path) :
    Alters ∅ tree (left (tree.createDirectories dir)) := by
  rw [createDirectories]
  split
  · exact .refl ∅ tree
  · split
    · exact .refl ∅ tree
    · exact alters_makeDirectories tree _ _

theorem alters_of_createDirectories (h : tree.createDirectories dir = .ok made) :
    Alters ∅ tree made := by
  have halters := alters_createDirectories tree dir
  rwa [h] at halters

/-- Directories that were made are there, so making them again changes nothing. -/
theorem makeDirectories_again (h : tree.makeDirectories place steps = .ok made)
    (hdirectories : ∀ q, made.node? q = some .directory → tree'.node? q = some .directory) :
    tree'.makeDirectories place steps = .ok tree' := by
  induction steps generalizing tree place with
  | nil => rfl
  | cons s steps ih =>
    have hnext : made.node? (step place s) = some .directory ∧
        ∃ tree : FileTree, tree.makeDirectories (step place s) steps = .ok made := by
      rw [makeDirectories] at h
      split at h
      · next hn =>
        have halters := alters_makeDirectories tree (step place s) steps
        rw [h] at halters
        exact ⟨halters.directories _ hn, tree, h⟩
      · cases h
      · next hn =>
        have halters := alters_makeDirectories (tree.put (step place s) .directory)
          (step place s) steps
        rw [h] at halters
        refine ⟨halters.directories _ ?_, _, h⟩
        rw [node?_put (ne_nil_of_node?_ne (by rw [hn]; simp)), if_pos rfl]
    obtain ⟨hdirectory, tree, h⟩ := hnext
    rw [makeDirectories]
    simp only [hdirectories _ hdirectory]
    exact ih h

/-- What kept a directory from being made is still there. -/
theorem makeDirectories_fails_again (h : tree.makeDirectories place steps = .error failure) :
    failure.tree.makeDirectories place steps = .error failure := by
  induction steps generalizing tree place with
  | nil => cases h
  | cons s steps ih =>
    have halters := alters_makeDirectories tree place (s :: steps)
    rw [h] at halters
    rw [makeDirectories] at h ⊢
    split at h
    · next hn =>
      have hdirectory : failure.tree.node? (step place s) = _ := halters.directories _ hn
      rw [hdirectory]
      exact ih h
    · next hn =>
      cases h
      simp [hn]
    · next hn =>
      have hput := alters_makeDirectories (tree.put (step place s) .directory) (step place s) steps
      rw [h] at hput
      have hdirectory : failure.tree.node? (step place s) = some .directory := by
        refine hput.directories _ ?_
        rw [node?_put (ne_nil_of_node?_ne (by rw [hn]; simp)), if_pos rfl]
      rw [hdirectory]
      exact ih h

theorem createDirectories_again (h : tree.createDirectories dir = .ok made)
    (hbase : tree'.base = made.base)
    (hdirectories : ∀ q, made.node? q = some .directory → tree'.node? q = some .directory) :
    tree'.createDirectories dir = .ok tree' := by
  have horigin : tree'.origin dir = tree.origin dir := by
    simp only [origin, hbase, (alters_of_createDirectories h).base]
  rw [createDirectories] at h ⊢
  split at h
  · next hdir => rw [if_pos hdir]
  · next hdir =>
    split at h
    · cases h
    · next hlong =>
      rw [if_neg hdir, if_neg hlong, horigin]
      exact makeDirectories_again h hdirectories

theorem createDirectories_fails_again (h : tree.createDirectories dir = .error failure) :
    failure.tree.createDirectories dir = .error failure := by
  have halters := alters_createDirectories tree dir
  rw [h] at halters
  have horigin : failure.tree.origin dir = tree.origin dir := by
    have hbase : failure.tree.base = tree.base := halters.base
    simp only [origin, hbase]
  rw [createDirectories] at h ⊢
  split at h
  · cases h
  · next hdir =>
    split at h
    · next hlong =>
      cases h
      rw [if_neg hdir, if_pos hlong]
    · next hlong =>
      rw [if_neg hdir, if_neg hlong, horigin]
      exact makeDirectories_fails_again h

end Directories

section Replacing

variable {start : Place} {source : Path}

/-- A file that is written leaves the directories as they are. -/
theorem node?_put_eq_directory_iff (hn : tree.node? q ≠ some .directory) (bytes : List UInt8)
    (r : Place) :
    (tree.put q (.file bytes)).node? r = some .directory ↔ tree.node? r = some .directory := by
  rw [node?_put (ne_nil_of_node?_ne hn)]
  split
  · next he => simp [he, hn]
  · rfl

theorem locate_put_iff (hn : tree.node? start ≠ some .directory) :
    (tree.put start (.file bytes)).locate p = .ok q ↔ tree.locate p = .ok q := by
  have hdirectories := node?_put_eq_directory_iff hn bytes
  exact ⟨locate_of_directories rfl fun r => (hdirectories r).mp,
    locate_of_directories rfl fun r => (hdirectories r).mpr⟩

/-- A file is written where its path leads, if no directory stands there. -/
theorem write_eq_ok_iff : tree.write p bytes = .ok tree' ↔
    ∃ q, tree.locate p = .ok q ∧ tree.node? q ≠ some .directory ∧
      tree' = tree.put q (.file bytes) := by
  constructor
  · intro h
    obtain ⟨q, hq, h⟩ := exists_of_bind_eq_ok h
    split at h
    · cases h
    · next hn =>
      cases h
      exact ⟨q, hq, hn, rfl⟩
  · rintro ⟨q, hq, hn, rfl⟩
    simp only [write, hq, bind, Except.bind]

theorem removeFile_eq_ok (hq : tree.locate p = .ok q) (hfile : tree.node? q = some (.file bytes)) :
    tree.removeFile p = .ok (tree.erase q) := by
  simp only [removeFile, hq, hfile, bind, Except.bind]

theorem removeFile_eq_error (h : ∀ q, tree.locate p = .ok q → tree.node? q = some .directory) :
    (tree.removeFile p).toOption = none := by
  cases hq : tree.locate p with
  | error e => simp [removeFile, hq, bind, Except.bind, Except.toOption]
  | ok q => simp [removeFile, hq, h q hq, bind, Except.bind, Except.toOption]

theorem moveFile_eq (hstart : tree.locate source = .ok start)
    (hfile : tree.node? start = some (.file bytes)) (hq : tree.locate p = .ok q) :
    tree.moveFile source p =
      if tree.node? q = some .directory then .error .isDirectory
      else .ok ((tree.erase start).put q (.file bytes)) := by
  simp only [moveFile, hstart, hq, hfile, bind, Except.bind]
  cases hn : tree.node? q with
  | none => simp
  | some node => cases node <;> simp

/-- The tree after a file was written at a place and taken away. -/
def discard (tree : FileTree) (start : Place) (bytes : List UInt8) : FileTree :=
  (tree.put start (.file bytes)).erase start

theorem node?_discard (hstart : tree.node? start ≠ some .directory) (r : Place) :
    (tree.discard start bytes).node? r = if r = start then none else tree.node? r := by
  have hne := ne_nil_of_node?_ne hstart
  rw [discard, node?_erase hne, node?_put hne]
  split <;> rfl

theorem node?_discard_eq_directory_iff (hstart : tree.node? start ≠ some .directory) (r : Place) :
    (tree.discard start bytes).node? r = some .directory ↔ tree.node? r = some .directory := by
  rw [node?_discard hstart]
  split
  · next he => simp [he, hstart]
  · rfl

theorem alters_discard (hstart : tree.node? start ≠ some .directory) (bytes : List UInt8) :
    Alters {start} tree (tree.discard start bytes) := by
  refine ⟨rfl, fun r => (node?_discard_eq_directory_iff hstart r).mpr, fun r b hr => ?_⟩
  rw [node?_discard hstart, if_neg (Set.mem_singleton_iff.not.mp hr)]

/-- The tree after a file was written at a place and moved to another. -/
def transfer (tree : FileTree) (start q : Place) (bytes : List UInt8) : FileTree :=
  (tree.discard start bytes).put q (.file bytes)

theorem node?_discard_ne (hstart : tree.node? start ≠ some .directory)
    (hq : tree.node? q ≠ some .directory) :
    (tree.discard start bytes).node? q ≠ some .directory :=
  mt (node?_discard_eq_directory_iff hstart q).mp hq

theorem node?_transfer_eq_directory_iff (hstart : tree.node? start ≠ some .directory)
    (hq : tree.node? q ≠ some .directory) (r : Place) :
    (tree.transfer start q bytes).node? r = some .directory ↔ tree.node? r = some .directory :=
  (node?_put_eq_directory_iff (node?_discard_ne hstart hq) bytes r).trans
    (node?_discard_eq_directory_iff hstart r)

theorem alters_transfer (hstart : tree.node? start ≠ some .directory)
    (hq : tree.node? q ≠ some .directory) (bytes : List UInt8) :
    Alters {start, q} tree (tree.transfer start q bytes) := by
  refine ⟨rfl, fun r => (node?_transfer_eq_directory_iff hstart hq r).mpr, fun r b hr => ?_⟩
  obtain ⟨hne, hne'⟩ : r ≠ start ∧ r ≠ q := not_or.mp hr
  rw [transfer, node?_put (ne_nil_of_node?_ne hq), if_neg hne', node?_discard hstart, if_neg hne]

/-- A file that is there after a transfer was there before, or is the one that was moved. -/
theorem eq_or_file_of_transfer {r : Place} (hstart : tree.node? start ≠ some .directory)
    (hq : tree.node? q ≠ some .directory)
    (h : (tree.transfer start q bytes).node? r = some (.file b)) :
    b = bytes ∨ tree.node? r = some (.file b) := by
  rw [transfer, node?_put (ne_nil_of_node?_ne hq), node?_discard hstart] at h
  split_ifs at h
  · exact .inl (Node.file.inj (Option.some.inj h)).symm
  · exact .inr h

theorem read_transfer (hstart : tree.node? start ≠ some .directory)
    (hq : tree.node? q ≠ some .directory) (hp : tree.locate p = .ok q) (bytes : List UInt8) :
    (tree.transfer start q bytes).read p = .ok bytes := by
  refine read_eq_ok_iff.mpr ⟨q, (alters_transfer hstart hq bytes).locate hp, ?_⟩
  rw [transfer, node?_put (ne_nil_of_node?_ne hq), if_pos rfl]

/-- A file is replaced if no directory has one of the two names. If one has the name of the file,
what was written is gone again, and if one has the other name, nothing was written. -/
theorem replaceFile_cases (tree : FileTree) (temporary p : Path) (bytes : List UInt8) :
    (∃ start q, tree.locate temporary = .ok start ∧ tree.node? start ≠ some .directory ∧
      tree.locate p = .ok q ∧ tree.node? q ≠ some .directory ∧
      tree.replaceFile temporary p bytes = .ok (tree.transfer start q bytes)) ∨
    (∃ start cause, tree.locate temporary = .ok start ∧ tree.node? start ≠ some .directory ∧
      (∀ q, tree.locate p = .ok q → tree.node? q = some .directory) ∧
      tree.replaceFile temporary p bytes = .error ⟨cause, tree.discard start bytes⟩) ∨
    ∃ cause, (∀ start, tree.locate temporary = .ok start → tree.node? start = some .directory) ∧
      tree.replaceFile temporary p bytes = .error ⟨cause, tree⟩ := by
  by_cases hblocked : ∀ start, tree.locate temporary = .ok start →
      tree.node? start = some .directory
  · cases hwrite : tree.write temporary bytes with
    | ok written =>
      obtain ⟨start, hstart, hnode, -⟩ := write_eq_ok_iff.mp hwrite
      exact absurd (hblocked start hstart) hnode
    | error cause =>
      refine .inr (.inr ⟨cause, hblocked, ?_⟩)
      simp only [replaceFile, hwrite, removeFile_eq_error hblocked, Option.getD_none]
  · simp only [not_forall] at hblocked
    obtain ⟨start, hstart, hnode⟩ := hblocked
    have hwrite : tree.write temporary bytes = .ok (tree.put start (.file bytes)) :=
      write_eq_ok_iff.mpr ⟨start, hstart, hnode, rfl⟩
    have hstart' : (tree.put start (.file bytes)).locate temporary = .ok start :=
      (locate_put_iff hnode).mpr hstart
    have hfile : (tree.put start (.file bytes)).node? start = some (.file bytes) := by
      rw [node?_put (ne_nil_of_node?_ne hnode), if_pos rfl]
    have hremove := removeFile_eq_ok hstart' hfile
    cases hq : (tree.put start (.file bytes)).locate p with
    | error cause =>
      refine .inr (.inl ⟨start, cause, hstart, hnode, fun q hq' => ?_, ?_⟩)
      · rw [(locate_put_iff hnode).mpr hq'] at hq
        cases hq
      · have hmove : (tree.put start (.file bytes)).moveFile temporary p = .error cause := by
          simp only [moveFile, hstart', hq, bind, Except.bind]
        simp only [replaceFile, hwrite, hmove, hremove]
        rfl
    | ok q =>
      have hq' := (locate_put_iff hnode).mp hq
      have hmove := moveFile_eq hstart' hfile hq
      have hiff := node?_put_eq_directory_iff hnode bytes q
      by_cases hdirectory : tree.node? q = some .directory
      · rw [if_pos (hiff.mpr hdirectory)] at hmove
        refine .inr (.inl ⟨start, .isDirectory, hstart, hnode, fun r hr => ?_, ?_⟩)
        · rwa [← Except.ok.inj (hq'.symm.trans hr)]
        · simp only [replaceFile, hwrite, hmove, hremove]
          rfl
      · rw [if_neg (mt hiff.mp hdirectory)] at hmove
        refine .inl ⟨start, q, hstart, hnode, hq', hdirectory, ?_⟩
        simp only [replaceFile, hwrite, hmove]
        rfl

end Replacing

section Join

variable {start : Place} {name cs : List Char}

/-- The steps that the pieces of a text ask for. -/
def stepsOf (cs : List Char) : List Step := (splitOn '/' cs).map Step.ofPiece

/-- Whether a text is the name of a file. -/
def IsFileName (name : List Char) : Prop :=
  name ≠ [] ∧ name ≠ ['.'] ∧ name ≠ ['.', '.'] ∧ '/' ∉ name

theorem stepsOf_fileName (h : IsFileName name) : stepsOf name = [.into (String.ofList name)] := by
  rw [stepsOf, splitOn_of_notMem h.2.2.2, List.map_singleton, Step.ofPiece,
    if_neg (not_or.mpr ⟨h.1, h.2.1⟩), if_neg h.2.2.1]

theorem placeFrom_append (start : Place) (steps more : List Step) :
    placeFrom start (steps ++ more) = placeFrom (placeFrom start steps) more :=
  List.foldl_append

/-- A name after a slash leads into the directory before it. -/
theorem placeFrom_stepsOf_slash (h : IsFileName name) (start : Place) (cs : List Char) :
    placeFrom start (stepsOf (cs ++ '/' :: name)) =
      placeFrom start (stepsOf cs) ++ [String.ofList name] := by
  have hsteps : stepsOf (cs ++ '/' :: name) = stepsOf cs ++ stepsOf name := by
    simp only [stepsOf, splitOn_append_cons, List.map_append]
  rw [hsteps, stepsOf_fileName h, placeFrom_append]
  rfl

/-- A name after a text that ends in a slash, or after none. -/
theorem placeFrom_stepsOf_append (h : IsFileName name) (start : Place)
    (hcs : cs = [] ∨ cs.getLast? = some '/') :
    placeFrom start (stepsOf (cs ++ name)) =
      placeFrom start (stepsOf cs) ++ [String.ofList name] := by
  rcases hcs with rfl | hlast
  · rw [List.nil_append, stepsOf_fileName h]
    rfl
  · obtain ⟨ds, rfl⟩ := List.getLast?_eq_some_iff.mp hlast
    have hstay : placeFrom start (stepsOf (ds ++ ['/'])) = placeFrom start (stepsOf ds) := by
      have hsteps : stepsOf (ds ++ ['/']) = stepsOf ds ++ [.stay] := by
        simp only [stepsOf, splitOn_append_cons, List.map_append]
        rfl
      rw [hsteps, placeFrom_append]
      rfl
    rw [List.append_assoc, List.singleton_append, placeFrom_stepsOf_slash h, hstay]

theorem placeOf_cons {c : Char} (h : p.text.toList = c :: cs) (tree : FileTree) :
    tree.placeOf p =
      if c = '/' then placeFrom [] (stepsOf cs) else placeFrom tree.base (stepsOf (c :: cs)) := by
  by_cases hc : c = '/'
  · subst hc
    simp [placeOf, origin, Path.isAbsolute, Path.steps, h, stepsOf]
  · simp [placeOf, origin, Path.isAbsolute, Path.steps, h, hc, stepsOf]

/-- The place of a file in a directory. -/
theorem placeOf_join (h : IsFileName name) (tree : FileTree) (dir : Path) :
    tree.placeOf (dir.join ⟨String.ofList name⟩) = tree.placeOf dir ++ [String.ofList name] := by
  obtain ⟨n, ns, hname⟩ := List.exists_cons_of_ne_nil h.1
  have hn : n ≠ '/' := by
    rintro rfl
    exact h.2.2.2 (by simp [hname])
  have hrelative : (⟨String.ofList name⟩ : Path).isAbsolute = false := by
    simp [Path.isAbsolute, hname, hn]
  cases hdir : dir.text.toList with
  | nil =>
    have htext : dir.text = "" := by simpa using hdir
    have hplace : tree.placeOf dir = placeFrom tree.base (stepsOf []) := by
      simp [placeOf, origin, Path.isAbsolute, Path.steps, hdir, stepsOf]
    rw [Path.join, if_pos (.inr htext), placeOf_cons (by simpa using hname), if_neg hn, ← hname,
      hplace]
    exact placeFrom_stepsOf_append h tree.base (.inl rfl)
  | cons c cs =>
    have htext : dir.text ≠ "" := by
      intro he
      simp [he] at hdir
    rw [Path.join, if_neg (by simp [hrelative, htext]), placeOf_cons hdir]
    split
    · next hlast =>
      rw [hdir] at hlast
      have hjoined : (dir.text ++ String.ofList name).toList = c :: (cs ++ name) := by simp [hdir]
      rw [placeOf_cons hjoined]
      split
      · apply placeFrom_stepsOf_append h
        cases cs with
        | nil => exact .inl rfl
        | cons d ds => exact .inr (by simpa using hlast)
      · exact placeFrom_stepsOf_append h tree.base (.inr hlast)
    · have hjoined : (dir.text ++ "/" ++ String.ofList name).toList = c :: (cs ++ '/' :: name) := by
        simp [hdir]
      rw [placeOf_cons hjoined]
      split
      · exact placeFrom_stepsOf_slash h [] cs
      · exact placeFrom_stepsOf_slash h tree.base (c :: cs)

end Join

end FileTree

end MacroSweep
