import MacroSweep.Proofs.Record

/-! A record whose numbers fit in a word is read back from its bytes, whatever its texts are and
whichever of its optional fields are left out. -/
namespace MacroSweep

open Json

namespace Json

theorem word?_of_lt {n : Nat} (h : n < Text.wordSize) : word? (.nat n) = some n := if_pos h

/-- All items are read back if each one is. -/
theorem mapM_map_of_forall {α β : Type} {read : β → Option α} {write : α → β} {as : List α}
    (h : ∀ a ∈ as, read (write a) = some a) : (as.map write).mapM read = some as := by
  induction as with
  | nil => rfl
  | cons a as ih =>
    have ha := h a List.mem_cons_self
    have has := ih fun b hb => h b (List.mem_cons_of_mem a hb)
    simp only [List.map_cons, List.mapM_cons, ha, has, Option.bind_eq_bind, Option.bind_some,
      Option.pure_def]

theorem list?_of_forall {α : Type} {read : Json → Option α} {write : α → Json} {as : List α}
    (h : ∀ a ∈ as, read (write a) = some a) : list? read (.array (as.map write)) = some as :=
  mapM_map_of_forall h

theorem orDefault_nullable? (value : Option String) :
    orDefault none (nullable? string?) (value.map .string) = some value := by
  cases value <;> rfl

end Json

/-- Whether line and column fit in a word. -/
def Location.Fits (l : Location) : Prop := l.line < Text.wordSize ∧ l.column < Text.wordSize

theorem Location.ofJson?_toJson_of_fits {l : Location} (h : l.Fits) :
    Location.ofJson? l.toJson = some l := by
  rw [ofJson?_toJson, word?_of_lt h.1, word?_of_lt h.2]
  rfl

theorem Note.ofJson?_toJson_of_fits {n : Note} (h : n.location.Fits) :
    Note.ofJson? n.toJson = some n := by
  rw [ofJson?_toJson, Location.ofJson?_toJson_of_fits h]
  rfl

namespace Finding

/-- Whether the numbers of a finding fit in words. -/
structure Fits (f : Finding) : Prop where
  location : f.location.Fits
  callStack : ∀ n ∈ f.callStack, n.location.Fits

theorem orDefault_callStack {f : Finding} (h : ∀ n ∈ f.callStack, n.location.Fits) :
    orDefault [] (list? Note.ofJson?)
      (if f.callStack.isEmpty then none else some (.array (f.callStack.map Note.toJson))) =
        some f.callStack := by
  split
  · next hempty => rw [List.isEmpty_iff.mp hempty, orDefault]
  · exact list?_of_forall fun n hn => Note.ofJson?_toJson_of_fits (h n hn)

theorem orDefault_inconclusive (f : Finding) :
    orDefault false bool? (if f.inconclusive then some (.bool true) else none) =
      some f.inconclusive := by
  cases f.inconclusive <;> rfl

theorem ofJson?_toJson_of_fits {f : Finding} (h : f.Fits) : ofJson? f.toJson = some f := by
  rw [ofJson?_toJson, Severity.ofJson?_toJson, Location.ofJson?_toJson_of_fits h.location,
    orDefault_callStack h.callStack, orDefault_inconclusive]
  simp only [orDefault_nullable?, Option.bind_eq_bind, Option.bind_some, Option.pure_def]

end Finding

namespace Program.Facts

/-- Whether the places of all definitions fit in words. -/
def Fits (facts : Facts) : Prop := ∀ e ∈ facts.definitions.toList, ∀ l ∈ e.2.toList, l.Fits

theorem siteOfField?_siteField {e : String × SortedSet Location} (h : ∀ l ∈ e.2.toList, l.Fits) :
    siteOfField? (siteField e) = some e := by
  have hsites : list? Location.ofJson? (.array (e.2.toList.map Location.toJson)) =
      some e.2.toList :=
    list?_of_forall fun l hl => Location.ofJson?_toJson_of_fits (h l hl)
  rw [siteOfField?, siteField, hsites, Option.bind_eq_bind, Option.bind_some,
    SortedSet.ofList_toList]
  rfl

theorem ofJson?_toJson_of_fits {facts : Facts} (h : facts.Fits) :
    ofJson? facts.toJson = some facts := by
  have huses : list? string? (.array (facts.uses.toList.map .string)) = some facts.uses.toList :=
    list?_of_forall fun _ _ => rfl
  have hdefinitions := mapM_map_of_forall fun e he => siteOfField?_siteField (h e he)
  rw [ofJson?_toJson, hdefinitions, huses]
  simp only [Option.bind_eq_bind, Option.bind_some, Option.pure_def, SortedMap.ofList_toList,
    SortedSet.ofList_toList]

end Program.Facts

/-- Whether all numbers in the result of a pass fit in words. -/
structure Checker.Analysis.Fits (analysis : Analysis) : Prop where
  findings : ∀ f ∈ analysis.findings, f.Fits
  facts : analysis.facts.Fits

namespace Cache.Record

/-- Whether all numbers of a record fit in words. -/
structure Fits (r : Record) : Prop where
  format : r.format < Text.wordSize
  findings : ∀ f ∈ r.findings, f.Fits
  facts : r.facts.Fits

/-- A record is read back from its bytes. -/
theorem decode?_encode {r : Record} (h : r.Fits) : decode? r.encode = some r := by
  have hdependencies :
      list? Dependency.ofJson? (.array (r.dependencies.map Dependency.toJson)) =
        some r.dependencies :=
    list?_of_forall fun d _ => d.ofJson?_toJson
  have hfindings :
      list? Finding.ofJson? (.array (r.findings.map Finding.toJson)) = some r.findings :=
    list?_of_forall fun f hf => Finding.ofJson?_toJson_of_fits (h.findings f hf)
  rw [decode?, encode, parse?_compact r.isPlain_toJson, Option.bind_eq_bind, Option.bind_some,
    ofJson?_toJson, word?_of_lt h.format, hdependencies, hfindings,
    Program.Facts.ofJson?_toJson_of_fits h.facts]
  rfl

end Cache.Record

end MacroSweep
