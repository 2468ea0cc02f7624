import MacroSweep.Suppression.Structured

/-! The entries of a document as a tree. The reader goes over the events of a document with a stack
of names, an entry and a field in hand; what it gives for one entry depends on the element of the
entry alone, and a document that is no tree gives nothing. -/
namespace MacroSweep

namespace Markup

open Text

/-- The content of an element, or of a document: texts and elements one after another, with the
lines of their tags. -/
inductive Content where
  | nil
  | text (raw : List Char) (line : Nat) (rest : Content)
  | empty (name : String) (line : Nat) (rest : Content)
  | element (name : String) (first : Nat) (inside : Content) (last : Nat) (rest : Content)

namespace Content

/-- The events of a content in order. -/
def events : Content → List (Event × Nat)
  | nil => []
  | text raw line rest => (.text raw, line) :: rest.events
  | empty name line rest => (.empty name, line) :: rest.events
  | element name first inside last rest =>
    (.opening name, first) :: (inside.events ++ (.closing name, last) :: rest.events)

/-- Whether all references in the texts of a content can be replaced. -/
def Legible : Content → Prop
  | nil => True
  | text raw _ rest => (∃ value, unescape raw = .ok value) ∧ rest.Legible
  | empty _ _ rest => rest.Legible
  | element _ _ inside _ rest => inside.Legible ∧ rest.Legible

/-- The texts in a content, at any depth, with their references replaced. -/
def values : Content → List (List Char)
  | nil => []
  | text raw _ rest => (unescape raw).toOption.toList.map trim ++ rest.values
  | empty _ _ rest => rest.values
  | element _ _ inside _ rest => inside.values ++ rest.values

end Content

/-- A text without references is read as it stands. -/
theorem unescape_eq_self {cs : List Char} (h : '&' ∉ cs) : unescape cs = .ok cs := by
  have hrest : ∀ size, unescapeRest size cs = .ok cs := by
    intro size
    induction cs with
    | nil => rw [unescapeRest]
    | cons c cs ih =>
      rw [List.mem_cons, not_or] at h
      rw [unescapeRest, ih h.2]
      · rfl
      · exact Ne.symm h.1
  exact hrest _

end Markup

namespace Suppression

open Markup Text

variable {s t u : EntryState} {name : String} {line first last : Nat} {raw value : List Char}
  {inside rest c doc : Content} {events more : List (Event × Nat)} {e : Entry} {field : Field}
  {opened : List String} {ending : Ending} {path : Path}

/-- An entry after a child element: a field takes its texts, of which the last stays, and the first
other element is kept as unknown. -/
def Entry.meet (e : Entry) (name : String) (values : List (List Char)) : Entry :=
  match Field.ofName? name with
  | some field => values.foldl (fun e value => e.set field value) e
  | none => { e with unknown := e.unknown.or (some name) }

/-- An entry after the content of its element. -/
def Entry.fill (e : Entry) : Content → Entry
  | .nil => e
  | .text _ _ rest => e.fill rest
  | .empty _ _ rest => e.fill rest
  | .element name _ inside _ rest => (e.meet name inside.values).fill rest

/-- The element of an entry, with content between two tags or without any. -/
inductive EntryElement where
  | enclosing (first : Nat) (inside : Content) (last : Nat)
  | bare (line : Nat)

namespace EntryElement

/-- The element as the content of a root. -/
def content : EntryElement → Content
  | enclosing first inside last => .element "suppress" first inside last .nil
  | bare line => .empty "suppress" line .nil

/-- What is read from the element. -/
def entry : EntryElement → Entry
  | enclosing first inside _ => ({ line := first } : Entry).fill inside
  | bare line => { line }

/-- The elements of entries in the content of a root. -/
def inRoot : Content → List EntryElement
  | .nil => []
  | .text _ _ rest => inRoot rest
  | .empty name line rest => (if name = "suppress" then [bare line] else []) ++ inRoot rest
  | .element name first inside last rest =>
    (if name = "suppress" then [enclosing first inside last] else []) ++ inRoot rest

/-- The elements of entries in a document, which are those at depth one. -/
def inDocument : Content → List EntryElement
  | .nil => []
  | .text _ _ rest => inDocument rest
  | .empty _ _ rest => inDocument rest
  | .element _ _ inside _ rest => inRoot inside ++ inDocument rest

end EntryElement

namespace EntryState

theorem run_append (h : s.run events = .ok t) (more : List (Event × Nat)) :
    s.run (events ++ more) = t.run more := by
  induction events generalizing s with
  | nil =>
    cases h
    rfl
  | cons e events ih =>
    rw [run] at h
    rw [List.cons_append, run]
    cases hstep : s.step e.1 e.2 with
    | error error =>
      rw [hstep] at h
      cases h
    | ok u =>
      rw [hstep] at h
      exact ih h

theorem run_text (h : unescape raw = .ok value) :
    s.run (Content.text raw line rest).events = (s.setText (trim value)).run rest.events := by
  simp only [Content.events, run, step, h]

theorem run_empty :
    s.run (Content.empty name line rest).events = (s.pass name line).run rest.events := rfl

theorem run_element (hinside : (s.enter name first).run inside.events = .ok t)
    (hleave : t.leave name = some u) :
    s.run (Content.element name first inside last rest).events = u.run rest.events := by
  change (s.enter name first).run (inside.events ++ (.closing name, last) :: rest.events) = _
  rw [run_append hinside]
  simp only [run, step, hleave]

/-- A state with one more open element. -/
def push (s : EntryState) (name : String) : EntryState := { s with opened := name :: s.opened }

@[simp]
theorem length_opened_push : (s.push name).opened.length = s.opened.length + 1 := rfl

/-- An element that is neither an entry nor a child of one is only put on the stack. -/
theorem enter_eq_push (hentry : s.opened.length = 1 → name ≠ "suppress")
    (hchild : s.opened.length = 2 → s.current = none) : s.enter name line = s.push name := by
  unfold enter
  split
  · next hdepth _ =>
    rw [if_neg (hentry hdepth)]
    rfl
  · next hdepth hcurrent =>
    rw [hchild hdepth] at hcurrent
    cases hcurrent
  · rfl

theorem enter_suppress (s : EntryState) (hdepth : s.opened.length = 1)
    (hcurrent : s.current = none) :
    s.enter "suppress" line = { s with current := some { line } }.push "suppress" := by
  simp only [enter, hdepth, hcurrent, if_true, push]

theorem enter_child (s : EntryState) (hdepth : s.opened.length = 2)
    (hcurrent : s.current = some e) :
    s.enter name line =
      { s with
        current := some { e with
          unknown := if Field.ofName? name = none ∧ e.unknown = none then some name else e.unknown }
        field := Field.ofName? name }.push name := by
  simp only [enter, hdepth, hcurrent, push]

theorem leave_push_to_root (h : s.opened.length = 1) : (s.push name).leave name =
    some { s with current := none, entries := s.entries ++ s.current.toList } := by
  simp [push, leave, h]

theorem leave_push_to_entry (h : s.opened.length = 2) :
    (s.push name).leave name = some { s with field := none } := by
  simp [push, leave, h]

theorem leave_push (hroot : s.opened.length ≠ 1) (hentry : s.opened.length ≠ 2) :
    (s.push name).leave name = some s := by
  simp only [push, leave, ne_eq, not_true_eq_false, if_false]

theorem pass_eq_self (h : s.opened.length = 1 → name ≠ "suppress") : s.pass name line = s :=
  if_neg fun hname => h hname.1 hname.2

theorem setText_push (s : EntryState) (name : String) (value : List Char) :
    (s.push name).setText value = (s.setText value).push name := by
  unfold setText push
  dsimp only
  split <;> rfl

theorem foldl_setText_push (s : EntryState) (name : String) (values : List (List Char)) :
    values.foldl setText (s.push name) = (values.foldl setText s).push name := by
  induction values generalizing s with
  | nil => rfl
  | cons value values ih => rw [List.foldl_cons, setText_push, ih, List.foldl_cons]

@[simp]
theorem opened_setText (s : EntryState) (value : List Char) :
    (s.setText value).opened = s.opened := by
  unfold setText
  split <;> rfl

@[simp]
theorem opened_foldl_setText (s : EntryState) (values : List (List Char)) :
    (values.foldl setText s).opened = s.opened := by
  induction values generalizing s with
  | nil => rfl
  | cons value values ih => rw [List.foldl_cons, ih, opened_setText]

theorem setText_of_no_field (h : s.current = none ∨ s.field = none) (value : List Char) :
    s.setText value = s := by
  unfold setText
  split
  · next hcurrent hfield => simp [hcurrent, hfield] at h
  · rfl

/-- Beside all entries texts are not looked at. -/
theorem foldl_setText_of_no_entry (h : s.current = none) (values : List (List Char)) :
    values.foldl setText s = s := by
  induction values with
  | nil => rfl
  | cons value values ih => rw [List.foldl_cons, setText_of_no_field (.inl h), ih]

/-- The texts of a field go to the entry. -/
theorem foldl_setText_of_field (s : EntryState) (e : Entry) (field : Field)
    (values : List (List Char)) :
    values.foldl setText { s with current := some e, field := some field } =
      { s with
        current := some (values.foldl (fun e value => e.set field value) e)
        field := some field } := by
  induction values generalizing e with
  | nil => rfl
  | cons value values ih => exact ih (e.set field value)

/-- The texts in a child of an entry go to the field that the child gives, if it gives one. -/
theorem foldl_setText_of_child (s : EntryState) (e : Entry) (name : String)
    (values : List (List Char)) :
    values.foldl setText
      { s with
        current := some { e with
          unknown := if Field.ofName? name = none ∧ e.unknown = none then some name else e.unknown }
        field := Field.ofName? name } =
      { s with current := some (e.meet name values), field := Field.ofName? name } := by
  unfold Entry.meet
  cases hname : Field.ofName? name with
  | some field => simpa using foldl_setText_of_field s e field values
  | none =>
    have hfold : ∀ (t : EntryState), t.field = none → values.foldl setText t = t := by
      intro t ht
      induction values with
      | nil => rfl
      | cons value values ih => rw [List.foldl_cons, setText_of_no_field (.inr ht), ih]
    rw [hfold _ rfl]
    cases e.unknown <;> simp

/-- Below the children of entries only texts matter. -/
theorem run_deep (h : c.Legible) (hdepth : 3 ≤ s.opened.length) :
    s.run c.events = .ok (c.values.foldl setText s) := by
  induction c generalizing s with
  | nil => rfl
  | text raw line rest ih =>
    obtain ⟨⟨value, hvalue⟩, hrest⟩ := h
    rw [run_text hvalue, ih hrest (by simpa using hdepth)]
    simp [Content.values, hvalue, Except.toOption]
  | empty name line rest ih =>
    rw [run_empty, pass_eq_self (by omega), ih h hdepth]
    rfl
  | element name first inside last rest ihInside ihRest =>
    obtain ⟨hinside, hrest⟩ := h
    have hin : (s.enter name first).run inside.events =
        .ok ((inside.values.foldl setText s).push name) := by
      rw [enter_eq_push (by omega) (by omega), ihInside hinside (by simp; omega),
        foldl_setText_push]
    rw [run_element hin (leave_push (by simp; omega) (by simp; omega)),
      ihRest hrest (by simpa using hdepth), Content.values, List.foldl_append]

variable {entries : List Entry}

/-- In an element beside all entries nothing is read. -/
theorem run_beside (h : c.Legible) (hdepth : opened.length = 2) :
    ({ opened, entries } : EntryState).run c.events = .ok { opened, entries } := by
  induction c with
  | nil => rfl
  | text raw line rest ih =>
    obtain ⟨⟨value, hvalue⟩, hrest⟩ := h
    rw [run_text hvalue, setText_of_no_field (.inl rfl), ih hrest]
  | empty name line rest ih =>
    rw [run_empty, pass_eq_self fun hroot => absurd (hdepth.symm.trans hroot) (by decide), ih h]
  | element name first inside last rest _ ih =>
    obtain ⟨hinside, hrest⟩ := h
    have hin : (({ opened, entries } : EntryState).enter name first).run inside.events =
        .ok (({ opened, entries } : EntryState).push name) := by
      rw [enter_eq_push (fun hroot => absurd (hdepth.symm.trans hroot) (by decide)) fun _ => rfl,
        run_deep hinside (by simp [hdepth]), foldl_setText_push, foldl_setText_of_no_entry rfl]
    rw [run_element hin (leave_push_to_entry hdepth), ih hrest]

/-- In the element of an entry the entry is filled. -/
theorem run_entry (h : c.Legible) (hdepth : opened.length = 2) (e : Entry) :
    ({ opened, current := some e, entries } : EntryState).run c.events =
      .ok { opened, current := some (e.fill c), entries } := by
  induction c generalizing e with
  | nil => rfl
  | text raw line rest ih =>
    obtain ⟨⟨value, hvalue⟩, hrest⟩ := h
    rw [run_text hvalue, setText_of_no_field (.inr rfl), ih hrest]
    rfl
  | empty name line rest ih =>
    rw [run_empty, pass_eq_self fun hroot => absurd (hdepth.symm.trans hroot) (by decide), ih h]
    rfl
  | element name first inside last rest _ ih =>
    obtain ⟨hinside, hrest⟩ := h
    have hin : (({ opened, current := some e, entries } : EntryState).enter name first).run
        inside.events =
          .ok (push ⟨opened, some (e.meet name inside.values), Field.ofName? name, entries⟩
            name) := by
      rw [enter_child _ hdepth rfl, run_deep hinside (by simp [hdepth]), foldl_setText_push,
        foldl_setText_of_child]
    rw [run_element hin (leave_push_to_entry hdepth), ih hrest]
    rfl

open EntryElement in
/-- In a root the entries of its elements are added. -/
theorem run_root (h : c.Legible) (hdepth : opened.length = 1) (entries : List Entry) :
    ({ opened, entries } : EntryState).run c.events =
      .ok { opened, entries := entries ++ (inRoot c).map EntryElement.entry } := by
  induction c generalizing entries with
  | nil => simp [Content.events, run, inRoot]
  | text raw line rest ih =>
    obtain ⟨⟨value, hvalue⟩, hrest⟩ := h
    rw [run_text hvalue, setText_of_no_field (.inr rfl), ih hrest]
    rfl
  | empty name line rest ih =>
    rw [run_empty, pass]
    split
    · next hname =>
      rw [ih h, inRoot, if_pos hname.2]
      simp [EntryElement.entry]
    · next hname =>
      have hother : name ≠ "suppress" := fun heq => hname ⟨hdepth, heq⟩
      rw [ih h, inRoot, if_neg hother, List.nil_append]
  | element name first inside last rest _ ih =>
    obtain ⟨hinside, hrest⟩ := h
    by_cases hname : name = "suppress"
    · subst hname
      have hin : (({ opened, entries } : EntryState).enter "suppress" first).run inside.events =
          .ok (push ⟨opened, some (Entry.fill { line := first } inside), none, entries⟩
            "suppress") := by
        rw [enter_suppress _ hdepth rfl]
        exact run_entry hinside (by simp [hdepth]) _
      rw [run_element hin (leave_push_to_root hdepth), ih hrest, inRoot, if_pos rfl]
      simp [EntryElement.entry]
    · have hin : (({ opened, entries } : EntryState).enter name first).run inside.events =
          .ok (({ opened, entries } : EntryState).push name) := by
        rw [enter_eq_push (fun _ => hname) fun _ => rfl]
        exact run_beside hinside (by simp [hdepth])
      rw [run_element hin (leave_push_to_root hdepth), Option.toList_none, List.append_nil,
        ih hrest, inRoot, if_neg hname, List.nil_append]

open EntryElement in
/-- Over a document the entries of its elements are read. -/
theorem run_document (h : c.Legible) (entries : List Entry) :
    ({ entries } : EntryState).run c.events =
      .ok { entries := entries ++ (inDocument c).map EntryElement.entry } := by
  induction c generalizing entries with
  | nil => simp [Content.events, run, inDocument]
  | text raw line rest ih =>
    obtain ⟨⟨value, hvalue⟩, hrest⟩ := h
    rw [run_text hvalue, setText_of_no_field (.inr rfl), ih hrest]
    rfl
  | empty name line rest ih =>
    rw [run_empty, pass_eq_self fun hroot => absurd hroot (by simp), ih h]
    rfl
  | element name first inside last rest _ ih =>
    obtain ⟨hinside, hrest⟩ := h
    have hin : (({ entries } : EntryState).enter name first).run inside.events =
        .ok (({ entries := entries ++ (inRoot inside).map EntryElement.entry } :
          EntryState).push name) := by
      rw [enter_eq_push (fun hroot => absurd hroot (by simp)) fun _ => rfl]
      exact run_root hinside rfl entries
    rw [run_element hin (leave_push (by simp) (by simp)), ih hrest, inDocument, List.map_append,
      List.append_assoc]

theorem opened_enter : (s.enter name line).opened = name :: s.opened := by
  unfold enter
  split
  · split <;> rfl
  · rfl
  · rfl

theorem opened_leave (h : s.leave name = some t) : s.opened = name :: t.opened := by
  unfold leave at h
  split at h
  · cases h
  · next inner opened heq =>
    split at h
    · cases h
    · next hname =>
      rw [heq, Decidable.of_not_not hname]
      dsimp only at h
      split at h <;> cases h <;> rfl

theorem opened_pass : (s.pass name line).opened = s.opened := by
  unfold pass
  split <;> rfl

end EntryState

/-- Events that close the open elements, the innermost first. Content stands before each closing tag
and behind the last one. -/
def Closes : List String → List (Event × Nat) → Prop
  | [], events => ∃ c : Content, c.Legible ∧ events = c.events
  | name :: opened, events => ∃ (c : Content) (line : Nat) (more : List (Event × Nat)),
      c.Legible ∧ events = c.events ++ (.closing name, line) :: more ∧ Closes opened more

/-- A text or an element may be put in front. -/
theorem Closes.prepend (h : Closes opened events) (node : Content → Content)
    (start : List (Event × Nat)) (hlegible : ∀ c : Content, c.Legible → (node c).Legible)
    (hevents : ∀ c, (node c).events = start ++ c.events) : Closes opened (start ++ events) := by
  cases opened with
  | nil =>
    obtain ⟨c, hc, rfl⟩ := h
    exact ⟨node c, hlegible c hc, (hevents c).symm⟩
  | cons name opened =>
    obtain ⟨c, line, more, hc, rfl, hmore⟩ := h
    exact ⟨node c, line, more, hlegible c hc, by rw [hevents, List.append_assoc], hmore⟩

/-- Events that are read without an error and leave nothing open close what was open before. -/
theorem closes_of_run (h : s.run events = .ok t) (hopened : t.opened = []) :
    Closes s.opened events := by
  induction events generalizing s with
  | nil =>
    cases h
    rw [hopened]
    exact ⟨.nil, trivial, rfl⟩
  | cons e events ih =>
    obtain ⟨event, line⟩ := e
    rw [EntryState.run] at h
    cases hstep : s.step event line with
    | error error =>
      rw [hstep] at h
      cases h
    | ok u =>
      rw [hstep] at h
      have hrest := ih h
      cases event with
      | opening name =>
        obtain rfl : s.enter name line = u := Except.ok.inj hstep
        rw [EntryState.opened_enter] at hrest
        obtain ⟨c, last, more, hc, rfl, hmore⟩ := hrest
        have hnode := hmore.prepend (fun rest => .element name line c last rest)
          ((.opening name, line) :: (c.events ++ [(.closing name, last)]))
          (fun _ hrest => ⟨hc, hrest⟩) (fun rest => by simp [Content.events])
        simpa using hnode
      | closing name =>
        rw [EntryState.step] at hstep
        split at hstep
        · next u' hleave =>
          cases hstep
          rw [EntryState.opened_leave hleave]
          exact ⟨.nil, line, events, trivial, rfl, hrest⟩
        · cases hstep
      | empty name =>
        obtain rfl : s.pass name line = u := Except.ok.inj hstep
        rw [EntryState.opened_pass] at hrest
        exact hrest.prepend (.empty name line) [(.empty name, line)] (fun _ hc => hc) fun _ => rfl
      | text raw =>
        rw [EntryState.step] at hstep
        split at hstep
        · next value hvalue =>
          cases hstep
          rw [EntryState.opened_setText] at hrest
          exact hrest.prepend (.text raw line) [(.text raw, line)]
            (fun _ hc => ⟨⟨value, hvalue⟩, hc⟩) fun _ => rfl
        · cases hstep

/-- Whether events are those of a document that is read to its end: its tags match and its texts
can be read. -/
structure IsDocument (events : List (Event × Nat)) (ending : Ending) (doc : Content) : Prop where
  done : ending = .done
  events_eq : events = doc.events
  legible : doc.Legible

theorem readEntries_of_isDocument (h : IsDocument events ending doc) (line : Nat) :
    readEntries events ending line =
      .ok ((EntryElement.inDocument doc).map EntryElement.entry) := by
  obtain ⟨rfl, rfl, hlegible⟩ := h
  have hrun := EntryState.run_document hlegible []
  rw [readEntries, hrun]
  rfl

/-- A document that can be read is a tree with legible texts. -/
theorem exists_isDocument_of_readEntries {entries : List Entry}
    (h : readEntries events ending line = .ok entries) : ∃ doc, IsDocument events ending doc := by
  unfold readEntries at h
  cases hrun : EntryState.run {} events with
  | error error =>
    rw [hrun] at h
    cases h
  | ok s =>
    rw [hrun] at h
    cases ending with
    | failed error => cases h
    | done =>
      by_cases hopened : s.opened = []
      · obtain ⟨doc, hlegible, heq⟩ := closes_of_run hrun hopened
        exact ⟨doc, rfl, heq, hlegible⟩
      · simp [bind, Except.bind, hopened, throw, throwThe, MonadExceptOf.throw] at h

/-- What the element of an entry declares if it is the only one in a document. -/
def Declared.ofElement (path : Path) (e : EntryElement) : Declared :=
  .ofEvents path (Content.element "suppressions" 1 e.content 1 .nil).events .done 1

theorem foldl_append_eq (ds : List Declared) : ds.foldl Declared.append {} =
    ⟨ds.flatMap (·.rules), ds.flatMap (·.faults)⟩ := by
  have general : ∀ (ds : List Declared) (d : Declared), ds.foldl Declared.append d =
      ⟨d.rules ++ ds.flatMap (·.rules), d.faults ++ ds.flatMap (·.faults)⟩ := by
    intro ds
    induction ds with
    | nil => simp
    | cons d' ds ih =>
      intro d
      rw [List.foldl_cons, ih]
      simp [Declared.append]
  simpa using general ds {}

theorem ofEvents_eq_of_isDocument (h : IsDocument events ending doc) (path : Path) (line : Nat) :
    Declared.ofEvents path events ending line =
      ((EntryElement.inDocument doc).map fun e => Declared.ofEntry path e.entry).foldl
        Declared.append {} := by
  rw [Declared.ofEvents, readEntries_of_isDocument h line]
  simp [List.map_map, Function.comp_def]

theorem ofElement_eq_ofEntry {e : EntryElement} (h : e.content.Legible) (path : Path) :
    Declared.ofElement path e = Declared.ofEntry path e.entry := by
  have hdoc : IsDocument (Content.element "suppressions" 1 e.content 1 .nil).events .done
      (.element "suppressions" 1 e.content 1 .nil) := ⟨rfl, rfl, h, trivial⟩
  have hone : EntryElement.inDocument (.element "suppressions" 1 e.content 1 .nil) = [e] := by
    cases e <;> rfl
  rw [Declared.ofElement, ofEvents_eq_of_isDocument hdoc, hone]
  rfl

namespace EntryElement

theorem legible_of_mem_inRoot {e : EntryElement} (h : c.Legible) (he : e ∈ inRoot c) :
    e.content.Legible := by
  induction c with
  | nil => exact absurd he List.not_mem_nil
  | text raw line rest ih => exact ih h.2 he
  | empty name line rest ih =>
    rcases List.mem_append.mp he with he | he
    · split at he
      · rw [List.mem_singleton.mp he]
        trivial
      · exact absurd he List.not_mem_nil
    · exact ih h he
  | element name first inside last rest _ ih =>
    rcases List.mem_append.mp he with he | he
    · split at he
      · rw [List.mem_singleton.mp he]
        exact ⟨h.1, trivial⟩
      · exact absurd he List.not_mem_nil
    · exact ih h.2 he

theorem legible_of_mem_inDocument {e : EntryElement} (h : doc.Legible) (he : e ∈ inDocument doc) :
    e.content.Legible := by
  induction doc with
  | nil => exact absurd he List.not_mem_nil
  | text raw line rest ih => exact ih h.2 he
  | empty name line rest ih => exact ih h he
  | element name first inside last rest _ ih =>
    rcases List.mem_append.mp he with he | he
    · exact legible_of_mem_inRoot h.1 he
    · exact ih h.2 he

end EntryElement

/-- In a document each element of an entry gives what it gives alone. -/
theorem ofEvents_of_isDocument (h : IsDocument events ending doc) (path : Path) (line : Nat) :
    Declared.ofEvents path events ending line =
      ⟨(EntryElement.inDocument doc).flatMap fun e => (Declared.ofElement path e).rules,
        (EntryElement.inDocument doc).flatMap fun e => (Declared.ofElement path e).faults⟩ := by
  have halone : (EntryElement.inDocument doc).map (fun e => Declared.ofEntry path e.entry) =
      (EntryElement.inDocument doc).map (Declared.ofElement path) :=
    List.map_congr_left fun e he =>
      (ofElement_eq_ofEntry (EntryElement.legible_of_mem_inDocument h.legible he) path).symm
  rw [ofEvents_eq_of_isDocument h, halone, foldl_append_eq, List.flatMap_map, List.flatMap_map]

theorem ofEntry_cases (path : Path) (e : Entry) :
    (∃ rule, Declared.ofEntry path e = ⟨[rule], []⟩) ∨
      ∃ fault, Declared.ofEntry path e = ⟨[], [fault]⟩ := by
  unfold Declared.ofEntry
  dsimp only
  split
  · exact .inl ⟨_, rfl⟩
  · exact .inr ⟨_, rfl⟩

/-- Entries do not touch each other. If the events are those of a document, then what is declared
is, in order, what each element of an entry declares alone, one rule or one fault; nothing else in
the document matters. If they are not, because reading fails, a closing tag does not match or an
element is left open, then there are no rules and there is one fault. -/
theorem ofEvents_eq_elements_alone (path : Path) (events : List (Event × Nat)) (ending : Ending)
    (line : Nat) :
    (∀ doc, IsDocument events ending doc →
      Declared.ofEvents path events ending line =
        ⟨(EntryElement.inDocument doc).flatMap fun e => (Declared.ofElement path e).rules,
          (EntryElement.inDocument doc).flatMap fun e => (Declared.ofElement path e).faults⟩ ∧
      ∀ e ∈ EntryElement.inDocument doc,
        (∃ rule, Declared.ofElement path e = ⟨[rule], []⟩) ∨
          ∃ fault, Declared.ofElement path e = ⟨[], [fault]⟩) ∧
    ((¬∃ doc, IsDocument events ending doc) →
      ∃ fault, Declared.ofEvents path events ending line = ⟨[], [fault]⟩) := by
  refine ⟨fun doc h => ⟨ofEvents_of_isDocument h path line, fun e he => ?_⟩, fun h => ?_⟩
  · rw [ofElement_eq_ofEntry (EntryElement.legible_of_mem_inDocument h.legible he)]
    exact ofEntry_cases path e.entry
  · unfold Declared.ofEvents
    split
    · next entries hread => exact absurd (exists_isDocument_of_readEntries hread) h
    · exact ⟨_, rfl⟩

/-- A document with an entry, an element that is none, and an entry without content. -/
def mixedDocument : Content :=
  .element "suppressions" 1
    (.element "suppress" 2 (.element "id" 2 (.text ['x'] 2 .nil) 2 .nil) 2
      (.element "note" 3 (.element "id" 3 (.text ['y'] 3 .nil) 3 .nil) 3
        (.empty "suppress" 4 .nil))) 5 .nil

theorem declared_mixedDocument :
    IsDocument mixedDocument.events .done mixedDocument ∧
    Declared.ofEvents ⟨"s.xml"⟩ mixedDocument.events .done 5 =
      ⟨[{ id := "x", origin := .listed ⟨"s.xml"⟩ 2 }], [⟨.listed ⟨"s.xml"⟩ 4, .entryWithoutId⟩]⟩ ∧
    (¬∃ doc, IsDocument [(.opening "suppressions", 1)] .done doc) ∧
    ∃ fault,
      Declared.ofEvents ⟨"s.xml"⟩ [(.opening "suppressions", 1)] .done 1 = ⟨[], [fault]⟩ := by
  have hx : unescape ['x'] = .ok ['x'] := unescape_eq_self (by decide)
  have hy : unescape ['y'] = .ok ['y'] := unescape_eq_self (by decide)
  have hdoc : IsDocument mixedDocument.events .done mixedDocument := by
    refine ⟨rfl, rfl, ⟨⟨⟨⟨_, hx⟩, trivial⟩, trivial⟩, ?_⟩, trivial⟩
    exact ⟨⟨⟨⟨_, hy⟩, trivial⟩, trivial⟩, trivial⟩
  have hopen : ¬∃ doc, IsDocument [(.opening "suppressions", 1)] .done doc := by
    rintro ⟨doc, -, heq, -⟩
    cases doc <;> simp [Content.events] at heq
  obtain ⟨heq, -⟩ := (ofEvents_eq_elements_alone ⟨"s.xml"⟩ _ .done 5).1 mixedDocument hdoc
  refine ⟨hdoc, heq.trans ?_, hopen, ?_⟩
  · decide +kernel
  · exact (ofEvents_eq_elements_alone ⟨"s.xml"⟩ _ .done 1).2 hopen

end Suppression

end MacroSweep
