import MacroSweep.Proofs.Entries

/-! Entries with children that are no fields. Such a child makes the entry a fault if it has tags of
its own, and it is passed over if it is written without content. -/
namespace MacroSweep.Suppression

open Markup Text

variable {c doc : Content} {name : String} {events : List (Event × Nat)} {ending : Ending}
  {el : EntryElement}

/-- The names of the elements that give fields. -/
def fieldNames : List String := ["id", "fileName", "lineNumber", "symbolName"]

/-- The names of the elements in a content, in either spelling. -/
def childNames : Content → List String
  | .nil => []
  | .text _ _ rest => childNames rest
  | .empty name _ rest => name :: childNames rest
  | .element name _ _ _ rest => name :: childNames rest

/-- The names of the elements in a content that have tags of their own. -/
def taggedNames : Content → List String
  | .nil => []
  | .text _ _ rest => taggedNames rest
  | .empty _ _ rest => taggedNames rest
  | .element name _ _ _ rest => name :: taggedNames rest

/-- A content without the elements that are no fields. -/
def onlyFields : Content → Content
  | .nil => .nil
  | .text raw line rest => .text raw line (onlyFields rest)
  | .empty name line rest =>
    if name ∈ fieldNames then .empty name line (onlyFields rest) else onlyFields rest
  | .element name first inside last rest =>
    if name ∈ fieldNames then .element name first inside last (onlyFields rest)
    else onlyFields rest

namespace EntryElement

/-- The content of an entry, if it has any. -/
def inside : EntryElement → Content
  | enclosing _ inside _ => inside
  | bare _ => .nil

/-- The element without the children that are no fields. -/
def withoutUnknown : EntryElement → EntryElement
  | enclosing first inside last => enclosing first (onlyFields inside) last
  | bare line => bare line

end EntryElement

theorem ofName?_eq_none_iff : Field.ofName? name = none ↔ name ∉ fieldNames := by
  unfold Field.ofName?
  split <;> simp_all [fieldNames]

/-- Texts of a field leave alone what is kept as unknown, and do not depend on it. -/
theorem foldl_set_unknown (field : Field) (values : List (List Char)) (e : Entry)
    (u : Option String) :
    values.foldl (fun e value => e.set field value) { e with unknown := u } =
      { values.foldl (fun e value => e.set field value) e with unknown := u } := by
  induction values generalizing e with
  | nil => rfl
  | cons value values ih =>
    have hset : { e with unknown := u }.set field value =
        { e.set field value with unknown := u } := by cases field <;> rfl
    rw [List.foldl_cons, hset, ih, List.foldl_cons]

theorem meet_unknown (h : name ∈ fieldNames) (e : Entry) (u : Option String)
    (values : List (List Char)) :
    { e with unknown := u }.meet name values = { e.meet name values with unknown := u } := by
  unfold Entry.meet
  split
  · next field _ => exact foldl_set_unknown field values e u
  · next hname => exact absurd h (ofName?_eq_none_iff.mp hname)

theorem meet_of_notMem (h : name ∉ fieldNames) (e : Entry) (values : List (List Char)) :
    e.meet name values = { e with unknown := e.unknown.or (some name) } := by
  rw [Entry.meet, ofName?_eq_none_iff.mpr h]

/-- What is kept as unknown is the first child with tags of its own that is no field. -/
theorem unknown_fill (e : Entry) (c : Content) : (e.fill c).unknown =
    e.unknown.or ((taggedNames c).find? fun name => name ∉ fieldNames) := by
  induction c generalizing e with
  | nil => simp [Entry.fill, taggedNames]
  | text raw line rest ih => exact ih e
  | empty name line rest ih => exact ih e
  | element name first inside last rest _ ih =>
    rw [Entry.fill, ih, taggedNames]
    by_cases hname : name ∈ fieldNames
    · have hmeet := meet_unknown hname e e.unknown inside.values
      have hkept : (e.meet name inside.values).unknown = e.unknown := by
        simpa using congrArg Entry.unknown hmeet
      rw [hkept, List.find?_cons_of_neg (by simpa using hname)]
    · rw [meet_of_notMem hname, List.find?_cons_of_pos (by simpa using hname)]
      cases e.unknown <;> rfl

/-- The children that are no fields change nothing but what is kept as unknown. -/
theorem fill_onlyFields (e : Entry) (c : Content) :
    { e with unknown := none }.fill (onlyFields c) = { e.fill c with unknown := none } := by
  induction c generalizing e with
  | nil => rfl
  | text raw line rest ih => exact ih e
  | empty name line rest ih =>
    rw [onlyFields]
    split <;> exact ih e
  | element name first inside last rest _ ih =>
    rw [onlyFields, Entry.fill, ← ih (e.meet name inside.values)]
    split
    · next hname => rw [Entry.fill, meet_unknown hname]
    · next hname => rw [meet_of_notMem hname]

theorem legible_onlyFields (h : c.Legible) : (onlyFields c).Legible := by
  induction c with
  | nil => trivial
  | text raw line rest ih => exact ⟨h.1, ih h.2⟩
  | empty name line rest ih =>
    rw [onlyFields]
    split <;> exact ih h
  | element name first inside last rest _ ih =>
    rw [onlyFields]
    split
    · exact ⟨h.1, ih h.2⟩
    · exact ih h.2

namespace EntryElement

theorem unknown_entry (el : EntryElement) : el.entry.unknown =
    (taggedNames el.inside).find? fun name => name ∉ fieldNames := by
  cases el with
  | enclosing first inside last => exact unknown_fill _ inside
  | bare line => rfl

theorem entry_withoutUnknown (el : EntryElement) :
    el.withoutUnknown.entry = { el.entry with unknown := none } := by
  cases el with
  | enclosing first inside last => exact fill_onlyFields { line := first } inside
  | bare line => rfl

theorem legible_withoutUnknown (h : el.content.Legible) : el.withoutUnknown.content.Legible := by
  cases el with
  | enclosing first inside last => exact ⟨legible_onlyFields h.1, trivial⟩
  | bare line => trivial

end EntryElement

/-- The first child with tags of its own that is no field is the fault of its entry. -/
theorem ofElement_of_find?_eq_some (h : el.content.Legible) (path : Path)
    (hname : (taggedNames el.inside).find? (fun name => name ∉ fieldNames) = some name) :
    Declared.ofElement path el =
      ⟨[], [⟨.listed path el.entry.line, .unknownElement name⟩]⟩ := by
  rw [← EntryElement.unknown_entry] at hname
  have hrule (origin : Origin) : el.entry.toRule origin = .error (.unknownElement name) := by
    rw [Entry.toRule, hname]
    rfl
  rw [ofElement_eq_ofEntry h, Declared.ofEntry, hrule]

/-- If all children with tags of their own are fields, the others make no difference. -/
theorem ofElement_of_find?_eq_none (h : el.content.Legible) (path : Path)
    (hnone : (taggedNames el.inside).find? (fun name => name ∉ fieldNames) = none) :
    Declared.ofElement path el = Declared.ofElement path el.withoutUnknown := by
  rw [← EntryElement.unknown_entry] at hnone
  have hentry : el.withoutUnknown.entry = el.entry := by
    rw [EntryElement.entry_withoutUnknown, ← hnone]
  rw [ofElement_eq_ofEntry h, ofElement_eq_ofEntry (EntryElement.legible_withoutUnknown h), hentry]

/-- In a document an entry gives one fault and no rule exactly if a child with tags of its own is no
field, or if the entry would give a fault without the children that are no fields. -/
theorem ofElement_fault_iff (h : IsDocument events ending doc) (path : Path) (line : Nat) :
    Declared.ofEvents path events ending line =
      ⟨(EntryElement.inDocument doc).flatMap fun el => (Declared.ofElement path el).rules,
        (EntryElement.inDocument doc).flatMap fun el => (Declared.ofElement path el).faults⟩ ∧
    ∀ el ∈ EntryElement.inDocument doc,
      ((∃ fault, Declared.ofElement path el = ⟨[], [fault]⟩) ↔
        (∃ name ∈ taggedNames el.inside, name ∉ fieldNames) ∨
          ∃ fault, Declared.ofElement path el.withoutUnknown = ⟨[], [fault]⟩) := by
  refine ⟨ofEvents_of_isDocument h path line, fun el hel => ?_⟩
  have hlegible := EntryElement.legible_of_mem_inDocument h.legible hel
  cases hfind : (taggedNames el.inside).find? fun name => name ∉ fieldNames with
  | some name =>
    have hname : name ∉ fieldNames := by simpa using List.find?_some hfind
    exact iff_of_true ⟨_, ofElement_of_find?_eq_some hlegible path hfind⟩
      (.inl ⟨name, List.mem_of_find?_eq_some hfind, hname⟩)
  | none =>
    have hfields : ¬∃ name ∈ taggedNames el.inside, name ∉ fieldNames := by
      simpa using hfind
    rw [ofElement_of_find?_eq_none hlegible path hfind, or_iff_right hfields]

/-- A field and a child that is none, with tags of its own. -/
def taggedColour : Content :=
  .element "id" 2 (.text ['x'] 2 .nil) 2 (.element "colour" 3 (.text ['r'] 3 .nil) 3 .nil)

/-- A document with two entries that have a child which is no field. The second one writes it
without content. -/
def colourDocument : Content :=
  .element "suppressions" 1
    (.element "suppress" 2 taggedColour 4
      (.element "suppress" 5 (.element "id" 5 (.text ['y'] 5 .nil) 5 (.empty "colour" 6 .nil)) 7
        .nil)) 8 .nil

theorem fault_of_colourDocument :
    IsDocument colourDocument.events .done colourDocument ∧
    Declared.ofEvents ⟨"s.xml"⟩ colourDocument.events .done 8 =
      ⟨[{ id := "y", origin := .listed ⟨"s.xml"⟩ 5 }],
        [⟨.listed ⟨"s.xml"⟩ 2, .unknownElement "colour"⟩]⟩ ∧
    ∃ el ∈ EntryElement.inDocument colourDocument,
      (∃ name ∈ taggedNames el.inside, name ∉ fieldNames) ∧
        ∃ fault, Declared.ofElement ⟨"s.xml"⟩ el = ⟨[], [fault]⟩ := by
  have hx : unescape ['x'] = .ok ['x'] := unescape_eq_self (by decide)
  have hy : unescape ['y'] = .ok ['y'] := unescape_eq_self (by decide)
  have hr : unescape ['r'] = .ok ['r'] := unescape_eq_self (by decide)
  have hdoc : IsDocument colourDocument.events .done colourDocument := by
    refine ⟨rfl, rfl, ⟨⟨⟨⟨_, hx⟩, trivial⟩, ⟨⟨_, hr⟩, trivial⟩, trivial⟩, ?_⟩, trivial⟩
    exact ⟨⟨⟨⟨_, hy⟩, trivial⟩, trivial⟩, trivial⟩
  obtain ⟨heq, hfault⟩ := ofElement_fault_iff hdoc ⟨"s.xml"⟩ 8
  have hmem : .enclosing 2 taggedColour 4 ∈ EntryElement.inDocument colourDocument :=
    List.mem_cons_self
  have hcolour : ∃ name ∈ taggedNames taggedColour, name ∉ fieldNames :=
    ⟨"colour", by decide, by decide⟩
  exact ⟨hdoc, heq.trans (by decide +kernel), _, hmem, hcolour, (hfault _ hmem).mpr (.inl hcolour)⟩

/-- A text with an entry whose child `colour` is written without content. -/
def emptyColourText : List Char :=
  "<suppressions><suppress><id>x</id><colour/></suppress></suppressions>".toList

/-- A child that is no field, but is written without content, leaves the entry a rule. -/
theorem rule_of_emptyColourText :
    ∃ doc el, IsDocument
        ((read emptyColourText).events.map fun event => (event.1, lineAt emptyColourText event.2))
        (read emptyColourText).ending doc ∧
      el ∈ EntryElement.inDocument doc ∧
      "colour" ∈ childNames el.inside ∧ "colour" ∉ fieldNames ∧
      Declared.ofDocument ⟨"supp.xml"⟩ emptyColourText =
        ⟨[{ id := "x", origin := .listed ⟨"supp.xml"⟩ 1 }], []⟩ := by
  have hx : unescape ['x'] = .ok ['x'] := unescape_eq_self (by decide)
  refine ⟨.element "suppressions" 1 (.element "suppress" 1 (.element "id" 1 (.text ['x'] 1 .nil) 1
    (.empty "colour" 1 .nil)) 1 .nil) 1 .nil, _, ⟨by decide +kernel, by decide +kernel, ?_⟩,
    List.mem_singleton_self _, by decide, by decide, by decide +kernel⟩
  exact ⟨⟨⟨⟨⟨_, hx⟩, trivial⟩, trivial⟩, trivial⟩, trivial⟩

end MacroSweep.Suppression
