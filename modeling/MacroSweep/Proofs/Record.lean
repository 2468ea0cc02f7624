import MacroSweep.Cache.Record
import MacroSweep.Proofs.Json
import MacroSweep.Proofs.Ordered

/-! Stored records: what is read from the bytes of a record is that record. -/
namespace MacroSweep

open Json

namespace Json

theorem isPlain_array {α : Type} {write : α → Json} (h : ∀ a, (write a).isPlain = true)
    (as : List α) : (Json.array (as.map write)).isPlain = true := by
  rw [isPlain]
  induction as with
  | nil => rfl
  | cons a as ih => rw [List.map_cons, arePlain, h a, ih, Bool.and_true]

theorem isPlain_object {fields : List (String × Json)} (h : ∀ f ∈ fields, f.2.isPlain = true) :
    (Json.object fields).isPlain = true := by
  rw [isPlain]
  induction fields with
  | nil => rfl
  | cons f fs ih =>
    rw [fieldsPlain, h f (by simp), ih fun g hg => h g (by simp [hg]), Bool.and_true]

theorem word?_nat {n m : Nat} (h : word? (.nat n) = some m) : m = n := by
  rw [word?] at h
  split at h
  · exact (Option.some.inj h).symm
  · cases h

/-- Whether all that a reader takes out of what a writer wrote is what was written. -/
def Inverts {α : Type} (read : Json → Option α) (write : α → Json) : Prop :=
  ∀ a b, read (write a) = some b → b = a

theorem inverts_list {α : Type} {read : Json → Option α} {write : α → Json}
    (h : Inverts read write) : Inverts (list? read) fun as => .array (as.map write) := by
  intro as bs hb
  rw [list?] at hb
  induction as generalizing bs with
  | nil => exact (Option.some.inj hb).symm
  | cons a as ih =>
    simp only [List.map_cons, List.mapM_cons, Option.bind_eq_bind, Option.bind_eq_some_iff,
      Option.pure_def, Option.some.injEq] at hb
    obtain ⟨b, hb, bs, hbs, rfl⟩ := hb
    rw [h a b hb, ih bs hbs]

/-- The fields of an object that leaves out those with no value. -/
def present (entries : List (String × Option Json)) : List (String × Json) :=
  entries.flatMap fun e => e.2.toList.map fun v => (e.1, v)

theorem present_cons (e : String × Option Json) (entries : List (String × Option Json)) :
    present (e :: entries) = (e.2.toList.map fun v => (e.1, v)) ++ present entries := rfl

theorem present_sublist (entries : List (String × Option Json)) :
    ((present entries).map (·.1)).Sublist (entries.map (·.1)) := by
  induction entries with
  | nil => exact .slnil
  | cons e entries ih =>
    obtain ⟨k, v⟩ := e
    cases v with
    | none => exact ih.cons k
    | some v => exact ih.cons_cons k

theorem lookup_present_of_notMem {name : String} {entries : List (String × Option Json)}
    (h : name ∉ entries.map (·.1)) : (present entries).lookup name = none := by
  rw [List.lookup_eq_none_iff]
  intro e he
  have hmem := (present_sublist entries).mem (List.mem_map_of_mem he)
  rw [bne_iff_ne]
  rintro rfl
  exact h hmem

theorem lookup_present {entries : List (String × Option Json)}
    (hn : (entries.map (·.1)).Nodup) :
    (entries.map (·.1)).map (fun name => (present entries).lookup name) = entries.map (·.2) := by
  induction entries with
  | nil => rfl
  | cons e entries ih =>
    obtain ⟨k, v⟩ := e
    rw [List.map_cons, List.nodup_cons] at hn
    have hself : (present ((k, v) :: entries)).lookup k = v := by
      cases v with
      | none =>
        have hrest : (present entries).lookup k = none := lookup_present_of_notMem hn.1
        exact hrest
      | some v => simp [present_cons]
    have hother : ∀ name ∈ entries.map (·.1),
        (present ((k, v) :: entries)).lookup name = (present entries).lookup name := by
      intro name hname
      have hne : (name == k) = false := by
        rw [beq_eq_false_iff_ne]
        rintro rfl
        exact hn.1 hname
      cases v <;> simp [present_cons, List.lookup_cons, hne]
    rw [List.map_cons, List.map_cons, List.map_cons, hself, List.map_congr_left hother, ih hn.2]

theorem isPlain_present {entries : List (String × Option Json)}
    (h : ∀ e ∈ entries, ∀ v ∈ e.2, v.isPlain = true) :
    (Json.object (present entries)).isPlain = true := by
  apply isPlain_object
  intro f hf
  obtain ⟨e, he, hf⟩ := List.mem_flatMap.mp hf
  obtain ⟨v, hv, rfl⟩ := List.mem_map.mp hf
  exact h e he v (Option.mem_toList.mp hv)

/-- Each field of an object is found by its name. -/
theorem record?_present (entries : List (String × Option Json)) (hn : (entries.map (·.1)).Nodup) :
    record? (entries.map (·.1)) (.object (present entries)) = some (entries.map (·.2)) := by
  rw [record?, if_pos, lookup_present hn]
  rw [List.all_eq_true]
  intro name _
  have hcount := List.nodup_iff_count.mp ((present_sublist entries).nodup hn) name
  rw [List.count_eq_countP, List.countP_map] at hcount
  exact decide_eq_true hcount

theorem inverts_string : Inverts string? .string := fun _ _ h => (Option.some.inj h).symm

theorem eq_of_orDefault_nullable? {value result : Option String}
    (h : orDefault none (nullable? string?) (value.map .string) = some result) :
    result = value := by
  cases value <;> exact (Option.some.inj h).symm

end Json

namespace Location

theorem ofJson?_toJson (l : Location) :
    ofJson? l.toJson = (do return ⟨l.file, ← word? (.nat l.line), ← word? (.nat l.column)⟩) := by
  have hfields : record? ["file", "line", "column"] l.toJson =
      some [some (.string l.file.text), some (.nat l.line), some (.nat l.column)] :=
    record?_present [("file", some (.string l.file.text)), ("line", some (.nat l.line)),
      ("column", some (.nat l.column))] (by simp)
  rw [ofJson?, hfields]
  rfl

theorem inverts_ofJson? : Inverts ofJson? toJson := by
  intro l m h
  simp only [ofJson?_toJson, Option.bind_eq_bind, Option.bind_eq_some_iff, Option.pure_def,
    Option.some.injEq] at h
  obtain ⟨line, hline, column, hcolumn, rfl⟩ := h
  rw [word?_nat hline, word?_nat hcolumn]

theorem isPlain_toJson (l : Location) : l.toJson.isPlain = true := rfl

end Location

namespace Note

theorem ofJson?_toJson (n : Note) :
    ofJson? n.toJson = (do return ⟨← Location.ofJson? n.location.toJson, n.text⟩) := by
  have hfields : record? ["location", "text"] n.toJson =
      some [some n.location.toJson, some (.string n.text)] :=
    record?_present [("location", some n.location.toJson), ("text", some (.string n.text))]
      (by simp)
  rw [ofJson?, hfields]
  rfl

theorem inverts_ofJson? : Inverts ofJson? toJson := by
  intro n m h
  simp only [ofJson?_toJson, Option.bind_eq_bind, Option.bind_eq_some_iff, Option.pure_def,
    Option.some.injEq] at h
  obtain ⟨location, hl, rfl⟩ := h
  rw [Location.inverts_ofJson? _ _ hl]

theorem isPlain_toJson (n : Note) : n.toJson.isPlain = true := rfl

end Note

theorem Severity.ofJson?_toJson (s : Severity) : Severity.ofJson? s.toJson = some s := by
  cases s <;> decide

namespace Finding

def entries (f : Finding) : List (String × Option Json) :=
  [("id", some (.string f.id)), ("severity", some f.severity.toJson),
    ("location", some f.location.toJson),
    ("call_stack",
      if f.callStack.isEmpty then none else some (.array (f.callStack.map Note.toJson))),
    ("message", some (.string f.message)), ("verbose", f.verbose.map .string),
    ("inconclusive", if f.inconclusive then some (.bool true) else none),
    ("symbol", f.symbol.map .string), ("standard_violation", f.standardViolation.map .string),
    ("remark", f.remark.map .string), ("macro_expansion", f.macroExpansion.map .string)]

theorem toJson_eq (f : Finding) : f.toJson = .object (present f.entries) := by
  by_cases hs : f.callStack.isEmpty = true <;> by_cases hi : f.inconclusive = true <;>
    simp [toJson, entries, present, hs, hi, Option.toList_map, Function.comp_def]

theorem eq_of_orDefault_callStack {notes : List Note} {f : Finding}
    (h : orDefault [] (list? Note.ofJson?)
      (if f.callStack.isEmpty then none else some (.array (f.callStack.map Note.toJson))) =
        some notes) : notes = f.callStack := by
  split at h
  · next he =>
    rw [List.isEmpty_iff.mp he]
    exact (Option.some.inj h).symm
  · exact inverts_list Note.inverts_ofJson? _ _ h

theorem eq_of_orDefault_inconclusive {f : Finding} {b : Bool}
    (h : orDefault false bool? (if f.inconclusive then some (.bool true) else none) = some b) :
    b = f.inconclusive := by
  cases hf : f.inconclusive with
  | false =>
    rw [hf] at h
    exact (Option.some.inj h).symm
  | true =>
    rw [hf] at h
    exact (Option.some.inj h).symm

/-- The parts of a finding are read from the fields it was written to. -/
theorem ofJson?_toJson (f : Finding) :
    ofJson? f.toJson = (do
      let severity ← Severity.ofJson? f.severity.toJson
      let location ← Location.ofJson? f.location.toJson
      let callStack ← orDefault [] (list? Note.ofJson?)
        (if f.callStack.isEmpty then none else some (.array (f.callStack.map Note.toJson)))
      let verbose ← orDefault none (nullable? string?) (f.verbose.map .string)
      let inconclusive ← orDefault false bool?
        (if f.inconclusive then some (.bool true) else none)
      let symbol ← orDefault none (nullable? string?) (f.symbol.map .string)
      let violation ← orDefault none (nullable? string?) (f.standardViolation.map .string)
      let remark ← orDefault none (nullable? string?) (f.remark.map .string)
      let expansion ← orDefault none (nullable? string?) (f.macroExpansion.map .string)
      return ⟨f.id, severity, location, callStack, f.message, verbose, inconclusive, symbol,
        violation, remark, expansion⟩) := by
  have hfields : record? fieldNames f.toJson = some (f.entries.map (·.2)) := by
    rw [toJson_eq]
    exact record?_present f.entries (by decide : fieldNames.Nodup)
  rw [ofJson?, hfields]
  rfl

theorem inverts_ofJson? : Inverts ofJson? toJson := by
  intro f g h
  simp only [ofJson?_toJson, Severity.ofJson?_toJson, Option.bind_eq_bind, Option.bind_some,
    Option.bind_eq_some_iff, Option.pure_def, Option.some.injEq] at h
  obtain ⟨location, hl, callStack, hc, verbose, hv, inconclusive, hi, symbol, hs, violation, hn,
    remark, hr, expansion, he, rfl⟩ := h
  rw [Location.inverts_ofJson? _ _ hl, eq_of_orDefault_callStack hc, eq_of_orDefault_nullable? hv,
    eq_of_orDefault_inconclusive hi, eq_of_orDefault_nullable? hs, eq_of_orDefault_nullable? hn,
    eq_of_orDefault_nullable? hr, eq_of_orDefault_nullable? he]

theorem isPlain_toJson (f : Finding) : f.toJson.isPlain = true := by
  have hstring : ∀ (s : Option String), ∀ v ∈ s.map Json.string, v.isPlain = true := by
    intro s v hv
    obtain ⟨t, -, rfl⟩ := Option.map_eq_some_iff.mp hv
    rfl
  rw [toJson_eq]
  apply isPlain_present
  simp only [entries, List.forall_mem_cons, List.not_mem_nil, false_implies, implies_true, and_true,
    Option.mem_some_iff, forall_eq']
  refine ⟨rfl, rfl, Location.isPlain_toJson _, ?_, rfl, hstring _, ?_, hstring _, hstring _,
    hstring _, hstring _⟩
  · intro v hv
    split at hv
    · cases hv
    · cases hv
      exact isPlain_array Note.isPlain_toJson _
  · intro v hv
    split at hv
    · cases hv
      rfl
    · cases hv

end Finding

namespace Dependency

theorem ofJson?_toJson (d : Dependency) : ofJson? d.toJson = some d := by
  have hfields : record? ["path", "fingerprint"] d.toJson =
      some [some (.string d.path.text), some (.string d.fingerprint)] :=
    record?_present [("path", some (.string d.path.text)),
      ("fingerprint", some (.string d.fingerprint))] (by simp)
  rw [ofJson?, hfields]
  rfl

theorem inverts_ofJson? : Inverts ofJson? toJson := by
  intro d e h
  rw [ofJson?_toJson] at h
  exact (Option.some.inj h).symm

end Dependency

namespace Program.Facts

/-- A definition as a field. -/
def siteField (e : String × SortedSet Location) : String × Json :=
  (e.1, .array (e.2.toList.map Location.toJson))

/-- Reads a definition from a field. -/
def siteOfField? (field : String × Json) : Option (String × SortedSet Location) := do
  return (field.1, SortedSet.ofList (← list? Location.ofJson? field.2))

theorem mapM_siteOfField? {entries result : List (String × SortedSet Location)}
    (h : (entries.map siteField).mapM siteOfField? = some result) : result = entries := by
  induction entries generalizing result with
  | nil => exact (Option.some.inj h).symm
  | cons e entries ih =>
    simp only [List.map_cons, List.mapM_cons, siteOfField?, siteField, Option.bind_eq_bind,
      Option.bind_eq_some_iff, Option.pure_def, Option.some.injEq] at h
    obtain ⟨_, ⟨sites, hs, rfl⟩, rest, hrest, rfl⟩ := h
    rw [inverts_list Location.inverts_ofJson? _ _ hs, SortedSet.ofList_toList, ih hrest]

theorem ofJson?_toJson (facts : Facts) :
    ofJson? facts.toJson = (do
      let definitions ← (facts.definitions.toList.map siteField).mapM siteOfField?
      let uses ← list? string? (.array (facts.uses.toList.map .string))
      return ⟨.ofList definitions, .ofList uses⟩) := by
  have hfields : record? ["definitions", "uses"] facts.toJson =
      some [some (.object (facts.definitions.toList.map siteField)),
        some (.array (facts.uses.toList.map .string))] :=
    record?_present [("definitions", some (.object (facts.definitions.toList.map siteField))),
      ("uses", some (.array (facts.uses.toList.map .string)))] (by simp)
  rw [ofJson?, hfields]
  simp only [Option.bind_eq_bind, Option.bind_some, orDefault, definitionsOfJson?,
    Option.bind_assoc, Option.pure_def, Option.bind_map]
  rfl

theorem inverts_ofJson? : Inverts ofJson? toJson := by
  intro facts other h
  simp only [ofJson?_toJson, Option.bind_eq_bind, Option.bind_eq_some_iff, Option.pure_def,
    Option.some.injEq] at h
  obtain ⟨definitions, hd, uses, hu, rfl⟩ := h
  rw [mapM_siteOfField? hd, inverts_list inverts_string _ _ hu, SortedMap.ofList_toList,
    SortedSet.ofList_toList]

theorem isPlain_toJson (facts : Facts) : facts.toJson.isPlain = true := by
  have hdefinitions : (Json.object (facts.definitions.toList.map siteField)).isPlain = true := by
    apply isPlain_object
    intro f hf
    obtain ⟨e, -, rfl⟩ := List.mem_map.mp hf
    exact isPlain_array Location.isPlain_toJson _
  have huses : (Json.array (facts.uses.toList.map .string)).isPlain = true :=
    isPlain_array (fun _ => rfl) _
  apply isPlain_object
  simp only [List.forall_mem_cons, List.not_mem_nil, false_implies, implies_true, and_true]
  exact ⟨hdefinitions, huses⟩

end Program.Facts

namespace Cache.Record

theorem ofJson?_toJson (r : Record) :
    ofJson? r.toJson = (do
      let format ← word? (.nat r.format)
      let dependencies ← list? Dependency.ofJson? (.array (r.dependencies.map Dependency.toJson))
      let findings ← list? Finding.ofJson? (.array (r.findings.map Finding.toJson))
      let facts ← Program.Facts.ofJson? r.facts.toJson
      return ⟨format, r.unit, r.signature, r.fingerprint, dependencies, r.checkerVersion, findings,
        facts⟩) := by
  have hfields : record? fieldNames r.toJson =
      some [some (.nat r.format), some (.string r.unit.text), some (.string r.signature),
        some (.string r.fingerprint), some (.array (r.dependencies.map Dependency.toJson)),
        some (.string r.checkerVersion), some (.array (r.findings.map Finding.toJson)),
        some r.facts.toJson] :=
    record?_present [("format", some (.nat r.format)), ("unit", some (.string r.unit.text)),
      ("signature", some (.string r.signature)), ("fingerprint", some (.string r.fingerprint)),
      ("dependencies", some (.array (r.dependencies.map Dependency.toJson))),
      ("checker_version", some (.string r.checkerVersion)),
      ("findings", some (.array (r.findings.map Finding.toJson))), ("partial", some r.facts.toJson)]
      (by simp)
  rw [ofJson?, hfields]
  rfl

theorem inverts_ofJson? : Inverts ofJson? toJson := by
  intro r s h
  simp only [ofJson?_toJson, Option.bind_eq_bind, Option.bind_eq_some_iff, Option.pure_def,
    Option.some.injEq] at h
  obtain ⟨format, hformat, dependencies, hd, findings, hf, facts, hfacts, rfl⟩ := h
  rw [word?_nat hformat, inverts_list Dependency.inverts_ofJson? _ _ hd,
    inverts_list Finding.inverts_ofJson? _ _ hf, Program.Facts.inverts_ofJson? _ _ hfacts]

theorem isPlain_toJson (r : Record) : r.toJson.isPlain = true := by
  have hdependencies : (Json.array (r.dependencies.map Dependency.toJson)).isPlain = true :=
    isPlain_array (fun _ => rfl) _
  have hfindings : (Json.array (r.findings.map Finding.toJson)).isPlain = true :=
    isPlain_array Finding.isPlain_toJson _
  apply isPlain_object
  simp only [List.forall_mem_cons, List.not_mem_nil, false_implies, implies_true, and_true]
  exact ⟨rfl, rfl, rfl, rfl, hdependencies, rfl, hfindings, r.facts.isPlain_toJson⟩

/-- What is read from the bytes of a record is the record. -/
theorem eq_of_decode?_encode {r s : Record} (h : decode? r.encode = some s) : s = r := by
  rw [decode?, encode, parse?_compact r.isPlain_toJson] at h
  exact inverts_ofJson? r s h

end Cache.Record

end MacroSweep
