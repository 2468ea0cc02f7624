import MacroSweep.Proofs.RoundTrip
import MacroSweep.Proofs.Store

/-! The directory of records as a finite map from units and configurations to results. Whatever was
stored before and whatever failed to be, a look-up gives the last result that was stored under its
key, if that is still current, and nothing else. -/
namespace MacroSweep.Cache

open Checker

variable {directory path path' : Path} {signature signature' tag : String}
  {start tree tree' : FileTree} {unit : SourceUnit} {r : Record} {keys : Set (List UInt8)}

namespace Store

theorem keyBytes_eq_encode (path : Path) (signature : String) :
    keyBytes path signature = Text.encode (path.text.toList ++ '\x00' :: signature.toList) := by
  have hnul : Text.encode ('\x00' :: signature.toList) = 0 :: Text.encode signature.toList := rfl
  rw [Text.encode_append, hnul, keyBytes]

/-- The first NUL of a key tells the path from the signature. -/
theorem eq_of_keyBytes_eq (hpath : '\x00' ∉ path.text.toList) (hpath' : '\x00' ∉ path'.text.toList)
    (h : keyBytes path signature = keyBytes path' signature') :
    path = path' ∧ signature = signature' := by
  rw [keyBytes_eq_encode, keyBytes_eq_encode] at h
  have htexts := congrArg Text.decode? h
  rw [Text.decode?_encode, Text.decode?_encode] at htexts
  obtain ⟨htext, hsignature⟩ := Text.eq_of_append_cons hpath hpath' (Option.some.inj htexts)
  obtain ⟨text⟩ := path
  obtain ⟨text'⟩ := path'
  obtain rfl : text = text' := String.toList_inj.mp htext
  exact ⟨rfl, String.toList_inj.mp hsignature⟩

theorem sameDependencies_iff {ds es : List Dependency} : sameDependencies ds es = true ↔
    List.Forall₂ (fun d e => d.path.components = e.path.components ∧ d.fingerprint = e.fingerprint)
      ds es := by
  fun_induction sameDependencies ds es with
  | case1 => simp
  | case2 d ds e es ih =>
    rw [List.forall₂_cons, Bool.and_eq_true, Bool.and_eq_true, ih, Path.same_iff, beq_iff_eq]
  | case3 ds es hnil hcons =>
    refine ⟨fun h => absurd h (by simp), fun h => ?_⟩
    cases h with
    | nil => exact absurd rfl (hnil rfl)
    | cons hd hds => exact absurd rfl (hcons _ _ _ _ rfl)

end Store

/-- A result that is offered to the directory, with the tag of the checker that found it and what
names its temporary file. -/
structure Entry where
  tag : String
  unit : SourceUnit
  signature : String
  analysis : Analysis
  ticket : Ticket := {}

namespace Entry

def record (e : Entry) (directory : Path) : Record :=
  (⟨directory, e.tag⟩ : Store).record e.unit e.signature e.analysis

def save (e : Entry) (directory : Path) (tree : FileTree) : Except StoreError FileTree :=
  (⟨directory, e.tag⟩ : Store).save tree e.unit e.signature e.analysis e.ticket

def keyBytes (e : Entry) : List UInt8 := Store.keyBytes e.unit.path e.signature

/-- Whether the key of an entry is among `keys`, its path holds no NUL, and its numbers fit in
words. -/
structure Proper (keys : Set (List UInt8)) (e : Entry) : Prop where
  key : e.keyBytes ∈ keys
  path : '\x00' ∉ e.unit.path.text.toList
  fits : e.analysis.Fits

end Entry

/-- Entries that are offered one after the other, with those that were stored, the last one
first. -/
inductive Filled (directory : Path) (start : FileTree) : List Entry → FileTree → Prop where
  | start : Filled directory start [] start
  | stored {done : List Entry} {tree tree' : FileTree} (e : Entry) :
      Filled directory start done tree → e.save directory tree = .ok tree' →
      Filled directory start (e :: done) tree'
  | failed {done : List Entry} {tree : FileTree} {error : StoreError} (e : Entry) :
      Filled directory start done tree → e.save directory tree = .error error →
      Filled directory start done error.tree

/-- The last entry of a key. -/
def latest (done : List Entry) (path : Path) (signature : String) : Option Entry :=
  done.find? fun e => e.unit.path = path ∧ e.signature = signature

/-- Whether no file of the directory can be read as a record. -/
def Vacant (directory : Path) (tree : FileTree) : Prop :=
  ∀ q bytes, q.dropLast = tree.placeOf directory → tree.node? q = some (.file bytes) →
    Record.decode? bytes = none

/-- Whether the file of a key holds the record of an entry, or no record if there is none. -/
def Holds (directory : Path) (tree : FileTree) (path : Path) (signature : String) :
    Option Entry → Prop
  | none => ∀ bytes, tree.node? (tree.placeOf (Store.recordPath ⟨directory, ""⟩ path signature)) =
      some (.file bytes) → Record.decode? bytes = none
  | some e => tree.read (Store.recordPath ⟨directory, ""⟩ path signature) =
      .ok (e.record directory).encode

variable {done : List Entry} {found : Option Entry} {e : Entry} {error : StoreError}

theorem Vacant.holds (h : Vacant directory tree) (path : Path) (signature : String) :
    Holds directory tree path signature none := by
  intro bytes hfile
  refine h _ bytes ?_ hfile
  rw [placeOf_recordPath, List.dropLast_concat]

namespace Holds

/-- What a file holds stays when only other files are touched. -/
theorem of_alters {places : Set Place} (h : Holds directory tree path signature found)
    (halters : FileTree.Alters places tree tree')
    (hout : tree.placeOf (Store.recordPath ⟨directory, ""⟩ path signature) ∉ places) :
    Holds directory tree' path signature found := by
  cases found with
  | none =>
    intro bytes hfile
    rw [halters.placeOf, halters.files _ bytes hout] at hfile
    exact h bytes hfile
  | some last => exact halters.read hout h

/-- The record of an entry that is stored stands in its file. -/
theorem of_save_self (h : e.save directory tree = .ok tree') :
    Holds directory tree' e.unit.path e.signature (some e) := by
  have hread : tree'.read (Store.recordPath ⟨directory, e.tag⟩ e.unit.path e.signature) =
      .ok (e.record directory).encode := read_of_save h
  exact hread

/-- An entry of another key is stored in another file. -/
theorem of_save (h : Holds directory tree path signature found)
    (hsave : e.save directory tree = .ok tree')
    (hne : Digest.fingerprint (Store.keyBytes path signature) ≠ Digest.fingerprint e.keyBytes) :
    Holds directory tree' path signature found :=
  h.of_alters (alters_of_save hsave) (notMem_touched hne e.ticket)

/-- An entry that is not stored touches no record. -/
theorem of_save_error (h : Holds directory tree path signature found)
    (hsave : e.save directory tree = .error error) :
    Holds directory error.tree path signature found :=
  h.of_alters (alters_of_save_error hsave)
    (placeOf_recordPath_ne_temporaryPath ⟨directory, ""⟩ tree path signature e.ticket)

end Holds

/-- Among keys with fingerprints of their own, a fingerprint tells path and signature. -/
theorem Entry.Proper.eq_of_fingerprint_eq (hinj : Set.InjOn Digest.fingerprint keys)
    (he : e.Proper keys) (hkey : Store.keyBytes path signature ∈ keys)
    (hpath : '\x00' ∉ path.text.toList)
    (h : Digest.fingerprint (Store.keyBytes path signature) = Digest.fingerprint e.keyBytes) :
    e.unit.path = path ∧ e.signature = signature := by
  have hbytes : e.keyBytes = Store.keyBytes path signature := hinj he.key hkey h.symm
  exact Store.eq_of_keyBytes_eq he.path hpath hbytes

theorem latest_cons_of_not (h : ¬(e.unit.path = path ∧ e.signature = signature)) :
    latest (e :: done) path signature = latest done path signature :=
  List.find?_cons_of_neg (by simpa using h)

/-- The file of a key holds the record of the last entry that was stored under it. -/
theorem Filled.holds (hinj : Set.InjOn Digest.fingerprint keys) (hstart : Vacant directory start)
    (hfilled : Filled directory start done tree) (hdone : ∀ e ∈ done, e.Proper keys)
    (hkey : Store.keyBytes path signature ∈ keys) (hpath : '\x00' ∉ path.text.toList) :
    Holds directory tree path signature (latest done path signature) := by
  induction hfilled with
  | start => exact hstart.holds path signature
  | @stored done tree tree' e _ hsave ih =>
    have hrest := ih fun e' he' => hdone e' (List.mem_cons_of_mem e he')
    by_cases hsame : e.unit.path = path ∧ e.signature = signature
    · have hlatest : latest (e :: done) path signature = some e :=
        List.find?_cons_of_pos (by simpa using hsame)
      obtain ⟨rfl, rfl⟩ := hsame
      rw [hlatest]
      exact .of_save_self hsave
    · rw [latest_cons_of_not hsame]
      refine hrest.of_save hsave fun hfp => hsame ?_
      exact (hdone e List.mem_cons_self).eq_of_fingerprint_eq hinj hkey hpath hfp
  | failed e _ hsave ih => exact (ih hdone).of_save_error hsave

theorem lookup_eq_some_iff {store : Store} : store.lookup tree unit signature = some r ↔
    ∃ bytes, tree.read (store.recordPath unit.path signature) = .ok bytes ∧
      Record.decode? bytes = some r ∧ store.isCurrent unit signature r = true := by
  refine ⟨lookup_eq_some, ?_⟩
  rintro ⟨bytes, hread, hdecode, hcurrent⟩
  simp [Store.lookup, hread, Except.toOption, hdecode, hcurrent]

theorem isCurrent_record_iff :
    Store.isCurrent ⟨directory, tag⟩ unit signature (e.record directory) = true ↔
    e.unit.path.components = unit.path.components ∧ e.signature = signature ∧ e.tag = tag ∧
      e.unit.fingerprint = unit.fingerprint ∧ List.Forall₂
        (fun d d' => d.path.components = d'.path.components ∧ d.fingerprint = d'.fingerprint)
        e.unit.dependencies unit.dependencies := by
  simp only [Store.isCurrent, Entry.record, Store.record, Bool.and_eq_true, beq_iff_eq,
    Path.same_iff, Store.sameDependencies_iff, true_and, and_assoc]

/-- What is looked up is the record that stands in the file of the key, if it is current. -/
theorem Holds.lookup_eq_some_iff (h : Holds directory tree unit.path signature found)
    (hfits : ∀ e ∈ found, e.analysis.Fits) :
    Store.lookup ⟨directory, tag⟩ tree unit signature = some r ↔
      ∃ e, found = some e ∧ Store.isCurrent ⟨directory, tag⟩ unit signature (e.record directory) ∧
        r = e.record directory := by
  rw [Cache.lookup_eq_some_iff]
  cases found with
  | none =>
    constructor
    · rintro ⟨bytes, hread, hdecode, -⟩
      rw [h bytes (FileTree.node?_placeOf_of_read hread)] at hdecode
      cases hdecode
    · rintro ⟨e, he, -⟩
      cases he
  | some e =>
    have hfits := hfits e rfl
    have hdecode : Record.decode? (e.record directory).encode = some (e.record directory) :=
      Record.decode?_encode ⟨(by decide : layout < Text.wordSize), hfits.findings, hfits.facts⟩
    constructor
    · rintro ⟨bytes, hread, hr, hcurrent⟩
      obtain rfl := Except.ok.inj (h.symm.trans hread)
      obtain rfl := Option.some.inj (hdecode.symm.trans hr)
      exact ⟨e, rfl, hcurrent, rfl⟩
    · rintro ⟨e', he, hcurrent, rfl⟩
      obtain rfl := Option.some.inj he
      exact ⟨_, h, hdecode, hcurrent⟩

section Sample

/-- Three results: the second is of another configuration, the third takes the place of the
first. -/
def firstEntry : Entry where
  tag := "t"
  unit := ⟨⟨"a.c"⟩, "f", [⟨⟨"a.h"⟩, "g"⟩], ∅⟩
  signature := ""
  analysis := {}

def otherEntry : Entry := { firstEntry with signature := "A=1" }

theorem keyName_entries : keyName ⟨"a.c"⟩ "" ≠ keyName ⟨"b.c"⟩ "" ∧
    keyName ⟨"a.c"⟩ "A=1" ≠ keyName ⟨"b.c"⟩ "" ∧
    keyName ⟨"a.c"⟩ "" ≠ keyName ⟨"a.c"⟩ "A=1" := by
  decide +kernel

def blockedTree : FileTree :=
  (FileTree.put {} ["build"] .directory).put ["build", keyName ⟨"b.c"⟩ ""] .directory

theorem node?_blockedTree (q : Place) : blockedTree.node? q =
    if q = ["build", keyName ⟨"b.c"⟩ ""] then some .directory
    else if q = ["build"] then some .directory else if q = [] then some .directory else none := by
  rw [blockedTree, FileTree.node?_put (by simp), FileTree.node?_put (by simp)]
  rfl

/-- Whether the directories of a tree are those of the sample. -/
structure IsSample (tree : FileTree) : Prop where
  base : tree.base = []
  directories : ∀ q, tree.node? q = some .directory ↔ blockedTree.node? q = some .directory

/-- An entry of the sample is stored unless a directory has the name of its file. -/
theorem IsSample.save {e : Entry} (h : IsSample tree) (he : e.ticket = {}) :
    (keyName e.unit.path e.signature ≠ keyName ⟨"b.c"⟩ "" →
      ∃ tree', e.save ⟨"build"⟩ tree = .ok tree' ∧ IsSample tree') ∧
    (keyName e.unit.path e.signature = keyName ⟨"b.c"⟩ "" →
      ∃ error, e.save ⟨"build"⟩ tree = .error error ∧ IsSample error.tree) := by
  have hname : FileTree.IsFileName "build".toList := by
    unfold FileTree.IsFileName
    decide
  have hnode : ∀ q, tree.node? (tree.base ++ q) = some .directory ↔
      q = ["build", keyName ⟨"b.c"⟩ ""] ∨ q = ["build"] ∨ q = [] := by
    intro q
    rw [h.base, List.nil_append, h.directories, node?_blockedTree]
    split_ifs <;> simp_all
  have hroot : tree.node? tree.base = some .directory := by
    rw [h.base]
    rfl
  have hfree : tree.node? (tree.base ++ ["build", e.ticket.fileName]) ≠ some .directory := by
    rw [ne_eq, hnode]
    have hne : e.ticket.fileName ≠ keyName ⟨"b.c"⟩ "" := e.ticket.fileName_ne _
    simpa using hne
  have hlength : "build".toList.length + e.ticket.fileName.toList.length ≤ 900 := by
    rw [he]
    decide
  obtain ⟨hstored, hblocked⟩ := save_of_directory ⟨⟨"build"⟩, e.tag⟩ e.unit e.signature e.analysis
    e.ticket hname hroot ((hnode ["build"]).mpr (.inr (.inl rfl))) hfree hlength
  refine ⟨fun hne => ?_, fun heq => ?_⟩
  · have hnew : tree.node? (tree.base ++ ["build", keyName e.unit.path e.signature]) ≠
        some .directory := by
      rw [ne_eq, hnode]
      simpa using hne
    refine ⟨_, hstored hnew, h.base, fun q => ?_⟩
    exact (FileTree.node?_transfer_eq_directory_iff hfree hnew q).trans (h.directories q)
  · obtain ⟨error, hsave, htree⟩ := hblocked ((hnode _).mpr (.inl (by rw [heq])))
    refine ⟨error, hsave, ?_⟩
    rw [htree]
    exact ⟨h.base, fun q => (FileTree.node?_discard_eq_directory_iff hfree q).trans
      (h.directories q)⟩

theorem injOn_fingerprint_entries :
    Set.InjOn Digest.fingerprint {firstEntry.keyBytes, otherEntry.keyBytes} := by
  have hne : Digest.fingerprint firstEntry.keyBytes ≠ Digest.fingerprint otherEntry.keyBytes :=
    fun h => keyName_entries.2.2 (congrArg (· ++ ".json") h)
  rintro a (rfl | rfl) b (rfl | rfl) h
  · rfl
  · exact absurd h hne
  · exact absurd h.symm hne
  · rfl

end Sample

end MacroSweep.Cache
