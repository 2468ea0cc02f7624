import MacroSweep.Cache.Store
import MacroSweep.Proofs.Agreement
import MacroSweep.Proofs.FileTree
import MacroSweep.Proofs.Loading
import MacroSweep.Proofs.Record
import MacroSweep.Proofs.Signature
import Mathlib.Data.Set.Function

/-! What stored results are worth. A record is genuine if some pass found what it tells; a genuine
record that is current tells what the pass at hand would find, and storing results leaves every
record of the directory genuine. -/
namespace MacroSweep

variable {contents : Set (List UInt8)} {place : Place} {tree tree' : FileTree}

/-- The files of a unit with their fingerprints, itself first. -/
def SourceUnit.stamps (u : SourceUnit) : List Dependency :=
  ⟨u.path, u.fingerprint⟩ :: u.dependencies

/-- The path is in normal spelling, and the fingerprint is that of the bytes that stand there, which
are among `contents`. -/
def Dependency.Stands (contents : Set (List UInt8)) (tree : FileTree) (d : Dependency) : Prop :=
  d.path.IsNormal ∧
    ∃ bytes ∈ contents, tree.read d.path = .ok bytes ∧ d.fingerprint = Digest.fingerprint bytes

/-- Files with one fingerprint read alike. -/
theorem Dependency.Stands.read_eq {d : Dependency} (hinj : Set.InjOn Digest.fingerprint contents)
    (h : d.Stands contents tree) (h' : d.Stands contents tree') :
    tree.read d.path = tree'.read d.path := by
  obtain ⟨-, bytes, hmem, hread, hfp⟩ := h
  obtain ⟨-, bytes', hmem', hread', hfp'⟩ := h'
  have he : bytes = bytes' := hinj hmem hmem' (hfp.symm.trans hfp')
  rw [hread, hread', he]

@[simp] theorem Digest.length_toList_fingerprint (bytes : List UInt8) :
    (fingerprint bytes).toList.length = 64 := by
  simp [fingerprint, hash, hexDigits, wordBytes, List.length_flatMap]

theorem Digest.isFileName_fingerprint (bytes : List UInt8) :
    FileTree.IsFileName (fingerprint bytes ++ ".json").toList := by
  have hlen : 5 ≤ (fingerprint bytes ++ ".json").toList.length := by simp
  have hdigit : ∀ n < 16, Nat.digitChar n ≠ '/' := by decide
  refine ⟨?_, ?_, ?_, ?_⟩
  · intro h
    simp [h] at hlen
  · intro h
    simp [h] at hlen
  · intro h
    simp [h] at hlen
  · rw [String.toList_append, List.mem_append, fingerprint, String.toList_ofList, List.mem_flatMap]
    rintro (⟨byte, -, hmem⟩ | hmem)
    · have hbyte := byte.toNat_lt
      simp only [hexDigits, List.mem_cons, List.not_mem_nil, or_false] at hmem
      rcases hmem with h | h
      · exact hdigit _ (by omega) h.symm
      · exact hdigit _ (by omega) h.symm
    · revert hmem
      decide

namespace Cache

open Checker

namespace Ticket

theorem toList_fileName (ticket : Ticket) : ticket.fileName.toList =
    '.' :: (Nat.toDigits 10 ticket.process ++ '.' :: (Nat.toDigits 10 ticket.count ++
      ['.', 't', 'm', 'p'])) := by
  have htext : ticket.fileName =
      "." ++ Nat.repr ticket.process ++ "." ++ Nat.repr ticket.count ++ ".tmp" := rfl
  simp [htext]

theorem isFileName (ticket : Ticket) : FileTree.IsFileName ticket.fileName.toList := by
  have hdigits : ∀ n, '/' ∉ Nat.toDigits 10 n := by
    intro n hmem
    exact absurd (Nat.isDigit_of_mem_toDigits (by decide) (by decide) hmem) (by decide)
  rw [toList_fileName]
  refine ⟨by simp, by simp, ?_, ?_⟩
  · intro h
    have hlength := congrArg List.length h
    simp at hlength
    omega
  · simp [hdigits]

/-- No temporary file has the name of a record. -/
theorem fileName_ne (ticket : Ticket) (name : String) : ticket.fileName ≠ name ++ ".json" := by
  intro h
  have hlast := congrArg (fun text : String => text.toList.getLast?) h
  simp [toList_fileName, List.getLast?_cons, List.getLast?_append] at hlast

end Ticket

variable {store : Store} {unit : SourceUnit} {signature : String} {r : Record} {pass : Pass}
  {analysis : Analysis} {ds es : List Dependency} {ticket : Ticket}

/-- Whether all that a pass looks at is told by fingerprints and the signature. -/
structure Grounded (contents : Set (List UInt8)) (pass : Pass) : Prop where
  stamps : ∀ d ∈ pass.unit.stamps, d.Stands contents pass.tree
  legible : Configuration.Legible pass.configuration.defines

/-- Whether a record tells what some pass found. -/
def Genuine (contents : Set (List UInt8)) (r : Record) : Prop :=
  ∃ (store : Store) (pass : Pass) (analysis : Analysis),
    Grounded contents pass ∧ store.tag = directives.versionTag pass.settings ∧
      directives.run pass = .ok analysis ∧
      r = store.record pass.unit pass.configuration.signature analysis

/-- Whether every file of the directory at a place that can be read as a record is genuine. -/
def Sound (contents : Set (List UInt8)) (place : Place) (tree : FileTree) : Prop :=
  ∀ q bytes r, q.dropLast = place → tree.node? q = some (.file bytes) →
    Record.decode? bytes = some r → Genuine contents r

theorem eq_of_sameDependencies (h : Store.sameDependencies ds es = true)
    (hd : ∀ d ∈ ds, d.path.IsNormal) (he : ∀ e ∈ es, e.path.IsNormal) : ds = es := by
  fun_induction Store.sameDependencies ds es with
  | case1 => rfl
  | case2 d ds e es ih =>
    simp only [Bool.and_eq_true, beq_iff_eq] at h
    obtain ⟨⟨hpath, hfp⟩, hrest⟩ := h
    obtain ⟨dpath, dfp⟩ := d
    obtain ⟨epath, efp⟩ := e
    obtain rfl : dpath = epath :=
      (hd _ List.mem_cons_self).eq_of_same (he _ List.mem_cons_self) hpath
    obtain rfl : dfp = efp := hfp
    rw [ih hrest (fun d h => hd d (List.mem_cons_of_mem _ h))
      (fun e h => he e (List.mem_cons_of_mem _ h))]
  | case3 => cases h

/-- A genuine record that is current tells what the pass would find. -/
theorem Genuine.run_eq (hinj : Set.InjOn Digest.fingerprint contents) (hr : Genuine contents r)
    (hpass : Grounded contents pass) (htag : store.tag = directives.versionTag pass.settings)
    (hcurrent : store.isCurrent pass.unit pass.configuration.signature r = true) :
    directives.run pass = .ok ⟨r.findings, r.facts⟩ := by
  obtain ⟨store', past, analysis, hpast, htag', hrun, rfl⟩ := hr
  simp only [Store.isCurrent, Store.record, Bool.and_eq_true, beq_iff_eq] at hcurrent
  obtain ⟨⟨⟨⟨⟨-, hunit⟩, hsignature⟩, hversion⟩, hfp⟩, hdeps⟩ := hcurrent
  have hpath : past.unit.path = pass.unit.path :=
    (hpast.stamps _ List.mem_cons_self).1.eq_of_same (hpass.stamps _ List.mem_cons_self).1 hunit
  have hdependencies : past.unit.dependencies = pass.unit.dependencies :=
    eq_of_sameDependencies hdeps (fun d h => (hpast.stamps d (List.mem_cons_of_mem _ h)).1)
      (fun d h => (hpass.stamps d (List.mem_cons_of_mem _ h)).1)
  have hstamps : past.unit.stamps = pass.unit.stamps := by
    rw [SourceUnit.stamps, SourceUnit.stamps, hpath, hfp, hdependencies]
  have hagree : Walk.Agree past pass := {
    settings := settings_eq_of_versionTag (htag'.symm.trans (hversion.trans htag))
    path := hpath
    dependencies := hdependencies
    reads := by
      intro p hp
      obtain ⟨d, hd, rfl⟩ : ∃ d ∈ past.unit.stamps, d.path = p := List.mem_map.mp hp
      exact (hpast.stamps d hd).read_eq hinj (hpass.stamps d (hstamps ▸ hd))
    defines := Configuration.defines_eq_of_signature hpast.legible hpass.legible hsignature }
  rw [← run_directives_congr hagree, hrun]
  rfl

section Places

variable {path path' : Path} {signature' : String}

/-- The name of the file of a key. -/
def keyName (path : Path) (signature : String) : String :=
  Digest.fingerprint (Store.keyBytes path signature) ++ ".json"

theorem isFileName_keyName (path : Path) (signature : String) :
    FileTree.IsFileName (keyName path signature).toList :=
  Digest.isFileName_fingerprint _

theorem recordPath_eq (store : Store) (path : Path) (signature : String) :
    store.recordPath path signature = store.directory.join ⟨keyName path signature⟩ := rfl

/-- Records stand in the directory of the store. -/
theorem placeOf_recordPath (store : Store) (tree : FileTree) (path : Path) (signature : String) :
    tree.placeOf (store.recordPath path signature) =
      tree.placeOf store.directory ++ [keyName path signature] := by
  have hjoin := FileTree.placeOf_join (isFileName_keyName path signature) tree store.directory
  rw [String.ofList_toList] at hjoin
  rw [recordPath_eq, hjoin]

theorem placeOf_temporaryPath (store : Store) (tree : FileTree) (ticket : Ticket) :
    tree.placeOf (store.temporaryPath ticket) =
      tree.placeOf store.directory ++ [ticket.fileName] := by
  have hjoin := FileTree.placeOf_join ticket.isFileName tree store.directory
  rw [String.ofList_toList] at hjoin
  rw [Store.temporaryPath, hjoin]

theorem keyName_eq_iff : keyName path signature = keyName path' signature' ↔
    Digest.fingerprint (Store.keyBytes path signature) =
      Digest.fingerprint (Store.keyBytes path' signature') := by
  refine ⟨fun h => ?_, fun h => by rw [keyName, h, keyName]⟩
  have hchars := congrArg String.toList h
  rw [keyName, keyName, String.toList_append, String.toList_append] at hchars
  exact String.toList_inj.mp (List.append_cancel_right hchars)

/-- Records with one place have one fingerprint for their keys. -/
theorem placeOf_recordPath_eq_iff : tree.placeOf (store.recordPath path signature) =
      tree.placeOf (store.recordPath path' signature') ↔
    Digest.fingerprint (Store.keyBytes path signature) =
      Digest.fingerprint (Store.keyBytes path' signature') := by
  rw [placeOf_recordPath, placeOf_recordPath, List.append_cancel_left_eq, List.singleton_inj,
    keyName_eq_iff]

/-- The places that storing a result may touch: that of the temporary file and that of the
record. -/
def touched (store : Store) (tree : FileTree) (path : Path) (signature : String)
    (ticket : Ticket) : Set Place :=
  {tree.placeOf (store.temporaryPath ticket), tree.placeOf (store.recordPath path signature)}

theorem touched_subset (store : Store) (tree : FileTree) (path : Path) (signature : String)
    (ticket : Ticket) : touched store tree path signature ticket ⊆
      FileTree.inside (tree.placeOf store.directory) := by
  intro q hq
  rw [touched, placeOf_temporaryPath, placeOf_recordPath] at hq
  rcases hq with hq | hq
  · rw [hq]
    exact List.dropLast_concat
  · rw [Set.mem_singleton_iff.mp hq]
    exact List.dropLast_concat

theorem placeOf_recordPath_ne_temporaryPath (store : Store) (tree : FileTree) (path : Path)
    (signature : String) (ticket : Ticket) : tree.placeOf (store.recordPath path signature) ≠
      tree.placeOf (store.temporaryPath ticket) := by
  rw [placeOf_recordPath, placeOf_temporaryPath]
  intro h
  exact ticket.fileName_ne _ (List.singleton_inj.mp (List.append_cancel_left h)).symm

/-- The record of another key is not touched. -/
theorem notMem_touched (hne : Digest.fingerprint (Store.keyBytes path' signature') ≠
      Digest.fingerprint (Store.keyBytes path signature)) (ticket : Ticket) :
    tree.placeOf (store.recordPath path' signature') ∉
      touched store tree path signature ticket := by
  rintro (h | h)
  · exact placeOf_recordPath_ne_temporaryPath store tree path' signature' ticket h
  · exact hne (placeOf_recordPath_eq_iff.mp h)

end Places

theorem lookup_eq_some (h : store.lookup tree unit signature = some r) :
    ∃ bytes, tree.read (store.recordPath unit.path signature) = .ok bytes ∧
      Record.decode? bytes = some r ∧ store.isCurrent unit signature r = true := by
  simp only [Store.lookup, Option.bind_eq_bind, Option.bind_eq_some_iff] at h
  obtain ⟨bytes, hread, s, hdecode, hs⟩ := h
  split at hs
  · next hcurrent =>
    cases hs
    refine ⟨bytes, ?_, hdecode, hcurrent⟩
    cases hr : tree.read (store.recordPath unit.path signature) with
    | error e =>
      rw [hr] at hread
      cases hread
    | ok b =>
      rw [hr] at hread
      cases hread
      rfl
  · cases hs

/-- What is found in a sound directory is genuine. -/
theorem Sound.genuine_of_lookup (hs : Sound contents place tree)
    (hplace : tree.placeOf store.directory = place)
    (h : store.lookup tree unit signature = some r) : Genuine contents r := by
  obtain ⟨bytes, hread, hdecode, -⟩ := lookup_eq_some h
  have hfile := FileTree.node?_placeOf_of_read hread
  rw [placeOf_recordPath, hplace] at hfile
  exact hs _ bytes r List.dropLast_concat hfile hdecode

section Saving

open FileTree

variable {path path' : Path} {signature' : String} {ticket' : Ticket} {error : StoreError}

/-- Whether a result can be stored. -/
def Store.Accepts (store : Store) (tree : FileTree) (path : Path) (signature : String)
    (ticket : Ticket) : Prop :=
  ∃ made start q, tree.createDirectories store.directory = .ok made ∧
    made.locate (store.temporaryPath ticket) = .ok start ∧ made.node? start ≠ some .directory ∧
    made.locate (store.recordPath path signature) = .ok q ∧ made.node? q ≠ some .directory

/-- What storing a result does: the record takes its place, or what was written is gone again
because a directory stands there, or no more than directories are made. -/
theorem save_cases (store : Store) (tree : FileTree) (unit : SourceUnit) (signature : String)
    (analysis : Analysis) (ticket : Ticket) :
    (∃ made start q, tree.createDirectories store.directory = .ok made ∧
      made.locate (store.temporaryPath ticket) = .ok start ∧ made.node? start ≠ some .directory ∧
      made.locate (store.recordPath unit.path signature) = .ok q ∧
      made.node? q ≠ some .directory ∧
      store.save tree unit signature analysis ticket =
        .ok (made.transfer start q (store.record unit signature analysis).encode)) ∨
    (∃ made start error, tree.createDirectories store.directory = .ok made ∧
      made.locate (store.temporaryPath ticket) = .ok start ∧ made.node? start ≠ some .directory ∧
      (∀ q, made.locate (store.recordPath unit.path signature) = .ok q →
        made.node? q = some .directory) ∧
      store.save tree unit signature analysis ticket = .error error ∧
      error.tree = made.discard start (store.record unit signature analysis).encode) ∨
    ∃ error, (∀ made start, tree.createDirectories store.directory = .ok made →
        made.locate (store.temporaryPath ticket) = .ok start → made.node? start = some .directory) ∧
      store.save tree unit signature analysis ticket = .error error ∧
      error.tree = left (tree.createDirectories store.directory) := by
  cases hmade : tree.createDirectories store.directory with
  | error failure =>
    refine .inr (.inr ⟨.createDirectory store.directory failure, ?_, ?_, rfl⟩)
    · intro made start h
      cases h
    · simp only [Store.save, hmade]
  | ok made =>
    rcases replaceFile_cases made (store.temporaryPath ticket)
      (store.recordPath unit.path signature) (store.record unit signature analysis).encode with
      ⟨start, q, hstart, hnode, hq, hnode', h⟩ | ⟨start, cause, hstart, hnode, hblocked, h⟩ |
      ⟨cause, hblocked, h⟩
    · refine .inl ⟨made, start, q, rfl, hstart, hnode, hq, hnode', ?_⟩
      simp only [Store.save, hmade, h]
    · exact .inr (.inl ⟨made, start, .write (store.recordPath unit.path signature) ⟨cause, _⟩, rfl,
        hstart, hnode, hblocked, by simp only [Store.save, hmade, h]; rfl, rfl⟩)
    · refine .inr (.inr ⟨.write (store.recordPath unit.path signature) ⟨cause, made⟩, ?_,
        by simp only [Store.save, hmade, h], rfl⟩)
      intro made' start h' hstart
      obtain rfl := Except.ok.inj h'
      exact hblocked start hstart

theorem save_eq_ok (h : store.save tree unit signature analysis ticket = .ok tree') :
    ∃ made start q, tree.createDirectories store.directory = .ok made ∧
      made.locate (store.temporaryPath ticket) = .ok start ∧ made.node? start ≠ some .directory ∧
      made.locate (store.recordPath unit.path signature) = .ok q ∧
      made.node? q ≠ some .directory ∧
      tree' = made.transfer start q (store.record unit signature analysis).encode := by
  rcases save_cases store tree unit signature analysis ticket with
    ⟨made, start, q, hmade, hstart, hnode, hq, hnode', hsave⟩ |
    ⟨_, _, error, -, -, -, -, hsave, -⟩ | ⟨error, -, hsave, -⟩
  · exact ⟨made, start, q, hmade, hstart, hnode, hq, hnode', Except.ok.inj (h.symm.trans hsave)⟩
  · cases h.symm.trans hsave
  · cases h.symm.trans hsave

theorem exists_save_iff : (∃ tree', store.save tree unit signature analysis ticket = .ok tree') ↔
    store.Accepts tree unit.path signature ticket := by
  constructor
  · rintro ⟨tree', h⟩
    obtain ⟨made, start, q, hmade, hstart, hnode, hq, hnode', -⟩ := save_eq_ok h
    exact ⟨made, start, q, hmade, hstart, hnode, hq, hnode'⟩
  · intro haccepts
    rcases save_cases store tree unit signature analysis ticket with
      ⟨made, start, q, -, -, -, -, -, hsave⟩ | ⟨made, _, _, hmade, -, -, hblocked, -⟩ |
      ⟨_, hblocked, -⟩
    · exact ⟨_, hsave⟩
    · obtain ⟨made', start, q, hmade', -, -, hq, hnode⟩ := haccepts
      obtain rfl := Except.ok.inj (hmade.symm.trans hmade')
      exact absurd (hblocked q hq) hnode
    · obtain ⟨made, start, q, hmade, hstart, hnode, -⟩ := haccepts
      exact absurd (hblocked made start hmade hstart) hnode

/-- The files that a stored result may touch are its record and the temporary file. -/
theorem alters_of_save (h : store.save tree unit signature analysis ticket = .ok tree') :
    Alters (touched store tree unit.path signature ticket) tree tree' := by
  obtain ⟨made, start, q, hmade, hstart, hnode, hq, hnode', rfl⟩ := save_eq_ok h
  have hext := alters_of_createDirectories hmade
  have htouched : touched store tree unit.path signature ticket = {start, q} := by
    rw [touched, ← hext.placeOf, ← hext.placeOf, placeOf_of_locate hstart, placeOf_of_locate hq]
  rw [htouched]
  exact (hext.mono (Set.empty_subset _)).trans (alters_transfer hnode hnode' _)

theorem read_of_save (h : store.save tree unit signature analysis ticket = .ok tree') :
    tree'.read (store.recordPath unit.path signature) =
      .ok (store.record unit signature analysis).encode := by
  obtain ⟨made, start, q, -, -, hnode, hq, hnode', rfl⟩ := save_eq_ok h
  exact read_transfer hnode hnode' hq _

/-- A result that cannot be stored leaves all files as they are, but the temporary one. -/
theorem alters_of_save_error
    (h : store.save tree unit signature analysis ticket = .error error) :
    Alters {tree.placeOf (store.temporaryPath ticket)} tree error.tree := by
  rcases save_cases store tree unit signature analysis ticket with
    ⟨made, start, q, -, -, -, -, -, hsave⟩ | ⟨made, start, error', hmade, hstart, hnode, -, hsave,
      htree⟩ | ⟨error', -, hsave, htree⟩
  · cases h.symm.trans hsave
  · obtain rfl := Except.error.inj (h.symm.trans hsave)
    have hext := alters_of_createDirectories hmade
    rw [htree, ← hext.placeOf, placeOf_of_locate hstart]
    exact (hext.mono (Set.empty_subset _)).trans (alters_discard hnode _)
  · obtain rfl := Except.error.inj (h.symm.trans hsave)
    rw [htree]
    exact (alters_createDirectories tree store.directory).mono (Set.empty_subset _)

theorem keep_of_save (h : store.save tree unit signature analysis ticket = .ok tree') :
    store.keep tree unit signature analysis ticket = tree' := by
  simp only [Store.keep, h]

theorem keep_of_save_error (h : store.save tree unit signature analysis ticket = .error error) :
    store.keep tree unit signature analysis ticket = error.tree := by
  simp only [Store.keep, h]

theorem alters_keep (store : Store) (tree : FileTree) (unit : SourceUnit) (signature : String)
    (analysis : Analysis) (ticket : Ticket) :
    Alters (touched store tree unit.path signature ticket) tree
      (store.keep tree unit signature analysis ticket) := by
  cases h : store.save tree unit signature analysis ticket with
  | ok tree' =>
    rw [keep_of_save h]
    exact alters_of_save h
  | error error =>
    rw [keep_of_save_error h]
    exact (alters_of_save_error h).mono (Set.singleton_subset_iff.mpr (Set.mem_insert _ _))

/-- The files that are there after a result was offered are those that were there before and the
record. -/
theorem eq_or_file_of_keep {q : Place} {bytes : List UInt8}
    (h : (store.keep tree unit signature analysis ticket).node? q = some (.file bytes)) :
    bytes = (store.record unit signature analysis).encode ∨ tree.node? q = some (.file bytes) := by
  rcases save_cases store tree unit signature analysis ticket with
    ⟨made, start, r, hmade, -, hnode, -, hnode', hsave⟩ | ⟨made, start, error, hmade, -, hnode, -,
      hsave, htree⟩ | ⟨error, -, hsave, htree⟩
  · rw [keep_of_save hsave] at h
    refine (eq_or_file_of_transfer hnode hnode' h).imp id fun h => ?_
    exact ((alters_of_createDirectories hmade).files q bytes (Set.notMem_empty q)).mp h
  · rw [keep_of_save_error hsave, htree, node?_discard hnode] at h
    split at h
    · cases h
    · exact .inr (((alters_of_createDirectories hmade).files q bytes (Set.notMem_empty q)).mp h)
  · rw [keep_of_save_error hsave, htree] at h
    exact .inr (((alters_createDirectories tree _).files q bytes (Set.notMem_empty q)).mp h)

/-- A directory stays sound when a genuine record is stored. -/
theorem Sound.keep (hs : Sound contents place tree)
    (hr : Genuine contents (store.record unit signature analysis)) (ticket : Ticket) :
    Sound contents place (store.keep tree unit signature analysis ticket) := by
  intro q bytes s hlast hfile hdecode
  rcases eq_or_file_of_keep hfile with hrecord | hfile
  · rw [hrecord] at hdecode
    rwa [Record.eq_of_decode?_encode hdecode]
  · exact hs q bytes s hlast hfile hdecode

/-- Whether a result can be stored is settled by the directories there are. -/
theorem accepts_iff_of_directories {made : FileTree}
    (hmade : tree.createDirectories store.directory = .ok made) (hbase : tree'.base = made.base)
    (hdirectories : ∀ q, tree'.node? q = some .directory ↔ made.node? q = some .directory) :
    store.Accepts tree' path signature ticket ↔ store.Accepts tree path signature ticket := by
  have hagain := createDirectories_again hmade hbase fun q => (hdirectories q).mpr
  constructor
  · rintro ⟨made', start, q, hmade', hstart, hnode, hq, hnode'⟩
    obtain rfl := Except.ok.inj (hagain.symm.trans hmade')
    have hlocate := fun p q => locate_of_directories (p := p) (q := q) hbase.symm
      fun r => (hdirectories r).mp
    exact ⟨made, start, q, hmade, hlocate _ _ hstart, mt (hdirectories start).mpr hnode,
      hlocate _ _ hq, mt (hdirectories q).mpr hnode'⟩
  · rintro ⟨made', start, q, hmade', hstart, hnode, hq, hnode'⟩
    obtain rfl := Except.ok.inj (hmade.symm.trans hmade')
    have hlocate := fun p q => locate_of_directories (p := p) (q := q) hbase
      fun r => (hdirectories r).mpr
    exact ⟨tree', start, q, hagain, hlocate _ _ hstart, mt (hdirectories start).mp hnode,
      hlocate _ _ hq, mt (hdirectories q).mp hnode'⟩

/-- What can be stored does not change when a result is offered. -/
theorem accepts_keep_iff : store.Accepts (store.keep tree unit signature analysis ticket) path
      signature' ticket' ↔ store.Accepts tree path signature' ticket' := by
  rcases save_cases store tree unit signature analysis ticket with
    ⟨made, start, q, hmade, -, hnode, -, hnode', hsave⟩ | ⟨made, start, error, hmade, -, hnode, -,
      hsave, htree⟩ | ⟨error, -, hsave, htree⟩
  · rw [keep_of_save hsave]
    exact accepts_iff_of_directories hmade rfl (node?_transfer_eq_directory_iff hnode hnode')
  · rw [keep_of_save_error hsave, htree]
    exact accepts_iff_of_directories hmade rfl (node?_discard_eq_directory_iff hnode)
  · rw [keep_of_save_error hsave, htree]
    cases hmade : tree.createDirectories store.directory with
    | ok made => exact accepts_iff_of_directories hmade rfl fun q => Iff.rfl
    | error failure =>
      have hfails := createDirectories_fails_again hmade
      constructor
      · rintro ⟨made, start, q, h, -⟩
        cases hfails.symm.trans h
      · rintro ⟨made, start, q, h, -⟩
        cases hmade.symm.trans h

/-- A record can still be read where it stands after a result was offered. -/
theorem readable_keep (hreadable : tree.Readable (store.recordPath path' signature')) :
    (store.keep tree unit signature analysis ticket).Readable
      (store.recordPath path' signature') := by
  by_cases hkey : Digest.fingerprint (Store.keyBytes path' signature') =
      Digest.fingerprint (Store.keyBytes unit.path signature)
  · cases hsave : store.save tree unit signature analysis ticket with
    | ok tree' =>
      rw [keep_of_save hsave, Store.recordPath, hkey]
      exact readable_of_read (read_of_save hsave)
    | error error =>
      rw [keep_of_save_error hsave]
      exact (alters_of_save_error hsave).readable
        (placeOf_recordPath_ne_temporaryPath store tree path' signature' ticket) hreadable
  · exact (alters_keep store tree unit signature analysis ticket).readable
      (notMem_touched hkey ticket) hreadable

open Classical in
/-- What a record holds after a result was offered. -/
theorem toOption_read_keep (unit : SourceUnit) (signature : String) (analysis : Analysis)
    (ticket : Ticket) (hreadable : tree.Readable (store.recordPath path' signature')) :
    ((store.keep tree unit signature analysis ticket).read
        (store.recordPath path' signature')).toOption =
      if store.Accepts tree unit.path signature ticket ∧
          Digest.fingerprint (Store.keyBytes path' signature') =
            Digest.fingerprint (Store.keyBytes unit.path signature) then
        some (store.record unit signature analysis).encode
      else (tree.read (store.recordPath path' signature')).toOption := by
  by_cases haccepts : store.Accepts tree unit.path signature ticket
  · obtain ⟨tree', hsave⟩ := exists_save_iff.mpr haccepts
    rw [keep_of_save hsave]
    split
    · next hkey =>
      rw [Store.recordPath, hkey.2]
      exact congrArg Except.toOption (read_of_save hsave)
    · next hkey =>
      exact (alters_of_save hsave).toOption_read
        (notMem_touched (fun heq => hkey ⟨haccepts, heq⟩) ticket) hreadable
  · rw [if_neg fun h => haccepts h.1]
    cases hsave : store.save tree unit signature analysis ticket with
    | ok tree' => exact absurd (exists_save_iff.mp ⟨tree', hsave⟩) haccepts
    | error error =>
      rw [keep_of_save_error hsave]
      exact (alters_of_save_error hsave).toOption_read
        (placeOf_recordPath_ne_temporaryPath store tree path' signature' ticket) hreadable

theorem lookup_congr
    (h : (tree.read (store.recordPath unit.path signature)).toOption =
      (tree'.read (store.recordPath unit.path signature)).toOption) :
    store.lookup tree unit signature = store.lookup tree' unit signature := by
  simp only [Store.lookup, h]

end Saving

section PlainDirectory

open FileTree

variable {dir : Path} {name : String}

theorem steps_of_relative {p : Path} (h : p.isAbsolute = false) :
    p.steps = stepsOf p.text.toList := by
  rw [Path.steps, h]
  rfl

/-- A file name is a path of one step. -/
theorem steps_of_isFileName {p : Path} (h : IsFileName p.text.toList) :
    p.isAbsolute = false ∧ p.steps = [.into p.text] := by
  have hrelative : p.isAbsolute = false := by
    refine beq_eq_false_iff_ne.mpr fun he => h.2.2.2 ?_
    exact List.mem_of_head? he
  refine ⟨hrelative, ?_⟩
  rw [steps_of_relative hrelative, stepsOf_fileName h, String.ofList_toList]

section Join

variable (hdir : IsFileName dir.text.toList) (hname : IsFileName name.toList)

include hdir hname

theorem text_join : (dir.join ⟨name⟩).text.toList = dir.text.toList ++ '/' :: name.toList := by
  have hrelative : (⟨name⟩ : Path).isAbsolute = false := (steps_of_isFileName hname).1
  have hne : dir.text ≠ "" := fun he => hdir.1 (by rw [he]; rfl)
  have hlast : dir.text.toList.getLast? ≠ some '/' :=
    fun he => hdir.2.2.2 (List.mem_of_getLast? he)
  rw [Path.join, if_neg (by simp [hrelative, hne]), if_neg hlast]
  simp

/-- A file name in a directory is a path of two steps. -/
theorem steps_join : (dir.join ⟨name⟩).isAbsolute = false ∧
    (dir.join ⟨name⟩).steps = [.into dir.text, .into name] := by
  have htext := text_join hdir hname
  have hrelative : (dir.join ⟨name⟩).isAbsolute = false := by
    refine beq_eq_false_iff_ne.mpr fun he => hdir.2.2.2 ?_
    rw [htext, List.head?_append_of_ne_nil _ hdir.1] at he
    exact List.mem_of_head? he
  have hsplit : stepsOf (dir.join ⟨name⟩).text.toList =
      stepsOf dir.text.toList ++ stepsOf name.toList := by
    rw [htext, stepsOf, Text.splitOn_append_cons, List.map_append]
    rfl
  refine ⟨hrelative, ?_⟩
  rw [steps_of_relative hrelative, hsplit, stepsOf_fileName hdir, stepsOf_fileName hname,
    String.ofList_toList, String.ofList_toList]
  rfl

/-- A file in a directory that is there has its place. -/
theorem locate_join (hlength : dir.text.toList.length + name.toList.length ≤ 1000)
    (hbase : tree.node? tree.base = some .directory)
    (hdirectory : tree.node? (tree.base ++ [dir.text]) = some .directory) :
    tree.locate (dir.join ⟨name⟩) = .ok (tree.base ++ [dir.text, name]) := by
  have htext := text_join hdir hname
  obtain ⟨hrelative, hsteps⟩ := steps_join hdir hname
  refine locate_eq_ok_iff.mpr ⟨fun he => ?_, Path.isTooLong_of_length ?_, ?_⟩
  · simp [he] at htext
  · rw [htext, List.length_append, List.length_cons, Path.limit]
    omega
  · rw [origin, hrelative, hsteps]
    simp [walk, step, hbase, hdirectory]

end Join

/-- A result is stored in a directory that is there, unless a directory has the name of its file. -/
theorem save_of_directory (store : Store) (unit : SourceUnit) (signature : String)
    (analysis : Analysis) (ticket : Ticket) (hdir : IsFileName store.directory.text.toList)
    (hbase : tree.node? tree.base = some .directory)
    (hdirectory : tree.node? (tree.base ++ [store.directory.text]) = some .directory)
    (hfree : tree.node? (tree.base ++ [store.directory.text, ticket.fileName]) ≠ some .directory)
    (hlength : store.directory.text.toList.length + ticket.fileName.toList.length ≤ 900) :
    (tree.node? (tree.base ++ [store.directory.text, keyName unit.path signature]) ≠
        some .directory →
      store.save tree unit signature analysis ticket =
        .ok (tree.transfer (tree.base ++ [store.directory.text, ticket.fileName])
          (tree.base ++ [store.directory.text, keyName unit.path signature])
          (store.record unit signature analysis).encode)) ∧
    (tree.node? (tree.base ++ [store.directory.text, keyName unit.path signature]) =
        some .directory →
      ∃ error, store.save tree unit signature analysis ticket = .error error ∧
        error.tree = tree.discard (tree.base ++ [store.directory.text, ticket.fileName])
          (store.record unit signature analysis).encode) := by
  have hmade : tree.createDirectories store.directory = .ok tree := by
    obtain ⟨hrelative, hsteps⟩ := steps_of_isFileName hdir
    have hne : store.directory.text ≠ "" := fun he => hdir.1 (by rw [he]; rfl)
    have hlong : store.directory.isTooLong = false :=
      Path.isTooLong_of_length (by rw [Path.limit]; omega)
    rw [createDirectories, if_neg hne, if_neg (by simp [hlong]), origin, hrelative, hsteps]
    simp [makeDirectories, step, hdirectory]
  have htemporary : tree.locate (store.temporaryPath ticket) =
      .ok (tree.base ++ [store.directory.text, ticket.fileName]) :=
    locate_join hdir ticket.isFileName (by omega) hbase hdirectory
  have hkey : (keyName unit.path signature).toList.length = 69 := by simp [keyName]
  have hrecord : tree.locate (store.recordPath unit.path signature) =
      .ok (tree.base ++ [store.directory.text, keyName unit.path signature]) := by
    rw [recordPath_eq]
    exact locate_join hdir (isFileName_keyName unit.path signature) (by omega) hbase hdirectory
  rcases save_cases store tree unit signature analysis ticket with
    ⟨made, start, q, hmade', hstart, -, hq, hnode, hsave⟩ | ⟨made, start, error, hmade', hstart, -,
      hblocked, hsave, htree⟩ | ⟨error, hblocked, -⟩
  · obtain rfl := Except.ok.inj (hmade.symm.trans hmade')
    obtain rfl := Except.ok.inj (htemporary.symm.trans hstart)
    obtain rfl := Except.ok.inj (hrecord.symm.trans hq)
    exact ⟨fun _ => hsave, fun hdirectory => absurd hdirectory hnode⟩
  · obtain rfl := Except.ok.inj (hmade.symm.trans hmade')
    obtain rfl := Except.ok.inj (htemporary.symm.trans hstart)
    exact ⟨fun hnode => absurd (hblocked _ hrecord) hnode, fun _ => ⟨error, hsave, htree⟩⟩
  · exact absurd (hblocked tree _ hmade htemporary) hfree

end PlainDirectory

end Cache

end MacroSweep
