import MacroSweep.Proofs.Description
import MacroSweep.Suppression.Marker

/-! The language of suppression markers. A line is a marker if it opens with the marker word and the
ending of a kind, goes on with one identifier or with a list of them, and then has symbol filters up
to its end or to a commentary. The reader accepts these lines and no others. -/
namespace MacroSweep.Suppression

open Text MacroSweep.Path

variable {c : Char} {cs id list name word rest body comment : List Char}
  {ids names : List (List Char)} {kind : MarkerKind} {symbol found : Option String} {m : Marker}

/-- The ending of the marker word that gives a kind. -/
def MarkerKind.ending : MarkerKind → List Char
  | .line => []
  | .opening => "-begin".toList
  | .closing => "-end".toList
  | .file => "-file".toList
  | .expansion => "-macro".toList

/-- A text before which a word ends: it is empty or starts with a blank or a semicolon. -/
def EndsWord (cs : List Char) : Prop := ∀ c ∈ cs.head?, isBlank c = true ∨ c = ';'

/-- The name in a symbol filter, which neither a blank nor a semicolon can be part of. -/
def IsSymbolName (name : List Char) : Prop := name ≠ [] ∧ ∀ c ∈ name, isBlank c = false ∧ c ≠ ';'

/-- What can follow the identifiers from a place on where a symbol filter may start, and the names
in the filters: blanks, filters, and a commentary that lasts to the end. -/
inductive Filters : List Char → List (List Char) → Prop
  | nil : Filters [] []
  | semicolon (cs : List Char) : Filters (';' :: cs) []
  | slashes (cs : List Char) : Filters ('/' :: '/' :: cs) []
  | blank {c : Char} {cs : List Char} {names : List (List Char)} :
      isBlank c = true → Filters cs names → Filters (c :: cs) names
  | filter {name cs : List Char} {names : List (List Char)} :
      IsSymbolName name → EndsWord cs → Filters cs names →
        Filters ("symbolName=".toList ++ name ++ cs) (name :: names)

/-- A list of valid identifiers, with commas between them and blanks around each. -/
def IdList (list : List Char) (ids : List (List Char)) : Prop :=
  ids ≠ [] ∧ (∀ id ∈ ids, isValidId id = true) ∧
    ∃ pieces, list = joinWith ',' pieces ∧ List.Forall₂ Padded ids pieces

/-- What can follow the marker word and its ending, the identifiers and the names in filters. -/
inductive MarkerBody : List Char → List (List Char) → List (List Char) → Prop
  | single {blanks id rest : List Char} {names : List (List Char)} :
      blanks ≠ [] → allBlank blanks = true → isValidId id = true → EndsWord rest →
        Filters rest names → MarkerBody (blanks ++ id ++ rest) [id] names
  | listed {blanks list rest : List Char} {ids names : List (List Char)} :
      allBlank blanks = true → IdList list ids → Filters rest names →
        MarkerBody (blanks ++ '[' :: list ++ ']' :: rest) ids names

/-- A line that is a marker. Of several symbol filters the last one counts. -/
def IsMarker (m : Marker) (line : List Char) : Prop :=
  ∃ body ids names, line = markerWord.toList ++ m.kind.ending ++ body ∧ MarkerBody body ids names ∧
    m.ids = ids.map String.ofList ∧ m.symbol = names.getLast?.map String.ofList

theorem endsWord_iff (cs : List Char) : EndsWord cs ↔ ∀ c ∈ cs.head?, endsWord c = true := by
  simp [EndsWord, endsWord]

/-- A word is split off where it ends. -/
theorem splitMarkerWord_eq_iff : splitMarkerWord cs = (word, rest) ↔
    cs = word ++ rest ∧ (∀ c ∈ word, isBlank c = false ∧ c ≠ ';') ∧ EndsWord rest := by
  have hclass : (∀ c ∈ word, isBlank c = false ∧ c ≠ ';') ↔ ∀ c ∈ word, (!endsWord c) = true := by
    simp [endsWord]
  rw [hclass, endsWord_iff]
  constructor
  · intro h
    obtain ⟨rfl, rfl⟩ := Prod.mk.inj h
    refine ⟨List.takeWhile_append_dropWhile.symm, fun c hc => ?_, fun c hc => ?_⟩
    · exact List.mem_takeWhile_imp (p := fun c => !endsWord c) hc
    · have hnot := List.head?_dropWhile_not (fun c => !endsWord c) cs
      rw [Option.mem_def.mp hc] at hnot
      simpa using hnot
  · rintro ⟨rfl, hword, hrest⟩
    have hstop : rest.takeWhile (fun c => !endsWord c) = [] ∧
        rest.dropWhile (fun c => !endsWord c) = rest := by
      cases rest with
      | nil => exact ⟨rfl, rfl⟩
      | cons c rest => simp [hrest c rfl]
    rw [splitMarkerWord, List.takeWhile_append_of_pos hword, List.dropWhile_append_of_pos hword,
      hstop.1, hstop.2, List.append_nil]

theorem filters_trimStart : Filters (trimStart cs) names ↔ Filters cs names := by
  constructor
  · intro h
    induction cs with
    | nil => exact h
    | cons c cs ih =>
      by_cases hc : isBlank c = true
      · rw [trimStart, List.dropWhile_cons_of_pos hc] at h
        exact .blank hc (ih h)
      · rwa [trimStart, List.dropWhile_cons_of_neg hc] at h
  · intro h
    induction h with
    | nil => exact .nil
    | semicolon cs => exact .semicolon cs
    | slashes cs => exact .slashes cs
    | blank hc _ ih =>
      rw [trimStart, List.dropWhile_cons_of_pos hc]
      exact ih
    | filter hname hend h => exact .filter hname hend h

theorem filters_nil_iff : Filters [] names ↔ names = [] := by
  constructor
  · intro h
    cases h
    rfl
  · rintro rfl
    exact .nil

/-- A commentary is not looked at. -/
theorem filters_semicolon_iff : Filters (';' :: cs) names ↔ names = [] := by
  constructor
  · intro h
    cases h with
    | semicolon => rfl
    | blank hc => cases hc
  · rintro rfl
    exact .semicolon cs

theorem filters_slashes_iff : Filters ('/' :: '/' :: cs) names ↔ names = [] := by
  constructor
  · intro h
    cases h with
    | slashes => rfl
    | blank hc => cases hc
  · rintro rfl
    exact .slashes cs

/-- Where neither a blank nor a commentary stands, there must be a filter. -/
theorem filters_word_iff (hne : cs ≠ []) (hblank : ∀ c ∈ cs.head?, isBlank c = false)
    (hsemicolon : ∀ rest, cs ≠ ';' :: rest) (hslashes : ∀ rest, cs ≠ '/' :: '/' :: rest)
    (names : List (List Char)) :
    Filters cs names ↔ ∃ name rest more, splitMarkerWord cs = (symbolWord ++ name, rest) ∧
      name ≠ [] ∧ Filters rest more ∧ names = name :: more := by
  have hall : symbolWord.all (fun c => !endsWord c) = true := by decide
  have hword : ∀ c ∈ symbolWord, isBlank c = false ∧ c ≠ ';' := by simpa [endsWord] using hall
  constructor
  · intro h
    cases h with
    | nil => exact absurd rfl hne
    | semicolon rest => exact absurd rfl (hsemicolon rest)
    | slashes rest => exact absurd rfl (hslashes rest)
    | blank hc =>
      rw [hblank _ rfl] at hc
      cases hc
    | @filter name rest more hname hend h =>
      refine ⟨name, rest, more, splitMarkerWord_eq_iff.mpr ⟨rfl, fun c hc => ?_, hend⟩, hname.1, h,
        rfl⟩
      rcases List.mem_append.mp hc with hc | hc
      · exact hword c hc
      · exact hname.2 c hc
  · rintro ⟨name, rest, more, hsplit, hname, h, rfl⟩
    obtain ⟨rfl, hchars, hend⟩ := splitMarkerWord_eq_iff.mp hsplit
    exact .filter ⟨hname, fun c hc => hchars c (List.mem_append_right _ hc)⟩ hend h

/-- Where there are no filters, the name found before stays. -/
theorem ok_iff_of_no_filters (h : ∀ names, Filters cs names ↔ names = []) :
    (.ok symbol : Except MarkerFault (Option String)) = .ok found ↔
      ∃ names, Filters cs names ∧ found = (names.getLast?.map String.ofList).or symbol := by
  simp [h, eq_comm]

theorem getLast?_name_cons (name : List Char) (names : List (List Char)) :
    ((name :: names).getLast?.map String.ofList).or symbol =
      (names.getLast?.map String.ofList).or (some (String.ofList name)) := by
  rw [List.getLast?_cons]
  cases names.getLast? <;> rfl

/-- The reader of symbol filters accepts what filters can look like, and keeps the last name. -/
theorem readSymbol_eq_ok_iff : readSymbol symbol cs = .ok found ↔
    ∃ names, Filters cs names ∧ found = (names.getLast?.map String.ofList).or symbol := by
  fun_induction readSymbol symbol cs with
  | case1 symbol cs h =>
    exact ok_iff_of_no_filters fun names => filters_trimStart.symm.trans (h ▸ filters_nil_iff)
  | case2 symbol cs rest h =>
    exact ok_iff_of_no_filters fun names => filters_trimStart.symm.trans (h ▸ filters_semicolon_iff)
  | case3 symbol cs rest h =>
    exact ok_iff_of_no_filters fun names => filters_trimStart.symm.trans (h ▸ filters_slashes_iff)
  | case4 symbol cs c name hdrop hne hsemicolon hslashes ih =>
    have hword := filters_word_iff hne (fun _ => head?_trimStart) hsemicolon hslashes
    have hsplit : splitMarkerWord (trimStart cs) =
        (symbolWord ++ (c :: name), (splitMarkerWord (trimStart cs)).2) :=
      Prod.ext (dropStart?_eq_some_iff.mp hdrop) rfl
    rw [ih]
    constructor
    · rintro ⟨names, hnames, rfl⟩
      refine ⟨(c :: name) :: names, filters_trimStart.mp ((hword _).mpr ?_),
        (getLast?_name_cons _ _).symm⟩
      exact ⟨c :: name, _, names, hsplit, List.cons_ne_nil _ _, hnames, rfl⟩
    · rintro ⟨names, hnames, rfl⟩
      obtain ⟨name', rest, more, hsplit', -, hmore, rfl⟩ :=
        (hword _).mp (filters_trimStart.mpr hnames)
      rw [hsplit] at hsplit'
      obtain ⟨hname, hrest⟩ := Prod.mk.inj hsplit'
      rw [← List.append_cancel_left hname, getLast?_name_cons]
      exact ⟨more, hrest ▸ hmore, rfl⟩
  | case5 symbol cs hne hsemicolon hslashes hdrop =>
    have hword := filters_word_iff hne (fun _ => head?_trimStart) hsemicolon hslashes
    refine iff_of_false (by simp) ?_
    rintro ⟨names, hnames, -⟩
    obtain ⟨name, rest, more, hsplit, hname, -⟩ :=
        (hword _).mp (filters_trimStart.mpr hnames)
    obtain ⟨c, cs', rfl⟩ := List.exists_cons_of_ne_nil hname
    exact hdrop c cs' (dropStart?_eq_some_iff.mpr (congrArg Prod.fst hsplit))

theorem checkIds_eq_ok_iff {found : List String} : checkIds ids = .ok found ↔
    ids ≠ [] ∧ (∀ id ∈ ids, isValidId id = true) ∧ found = ids.map String.ofList := by
  unfold checkIds
  split
  · next hempty =>
    refine iff_of_false (by simp) ?_
    rintro ⟨hne, hvalid, -⟩
    obtain ⟨id, more, rfl⟩ := List.exists_cons_of_ne_nil hne
    rw [List.all_cons, Bool.and_eq_true, List.isEmpty_iff] at hempty
    exact ne_nil_of_isValidId (hvalid id List.mem_cons_self) hempty.1
  · next hempty =>
    have hne : ids ≠ [] := by
      rintro rfl
      exact hempty rfl
    split
    · next bad hbad =>
      refine iff_of_false (by simp) ?_
      rintro ⟨-, hvalid, -⟩
      have hinvalid := List.find?_some hbad
      rw [hvalid bad (List.mem_of_find?_eq_some hbad)] at hinvalid
      cases hinvalid
    · next hnone =>
      have hvalid : ∀ id ∈ ids, isValidId id = true := by simpa using hnone
      rw [Except.ok.injEq, eq_comm]
      exact ⟨fun h => ⟨hne, hvalid, h⟩, fun h => h.2.2⟩

/-- The trimmed pieces of a list of padded identifiers are the identifiers. -/
theorem map_trim_of_padded {pieces : List (List Char)} (hvalid : ∀ id ∈ ids, isValidId id = true)
    (h : List.Forall₂ Padded ids pieces) : pieces.map trim = ids := by
  induction h with
  | nil => rfl
  | cons hp _ ih =>
    rw [List.map_cons, trim_of_padded (isTrimmed_of_isValidId (hvalid _ List.mem_cons_self)) hp,
      ih fun id hid => hvalid id (List.mem_cons_of_mem _ hid)]

/-- A character that is neither a blank nor part of an identifier parts the pieces of a list. -/
theorem notMem_of_padded {pieces : List (List Char)} (hvalid : ∀ id ∈ ids, isValidId id = true)
    (h : List.Forall₂ Padded ids pieces) (hchar : isIdChar c = false) (hblank : isBlank c = false) :
    ∀ piece ∈ pieces, c ∉ piece := by
  have hnot : ∀ {a : List Char}, allBlank a = true → c ∉ a := by
    intro a ha hc
    rw [List.all_eq_true.mp ha c hc] at hblank
    cases hblank
  induction h with
  | nil => exact fun piece hp => absurd hp List.not_mem_nil
  | cons hp _ ih =>
    intro piece hmem
    rcases List.mem_cons.mp hmem with rfl | hmem
    · obtain ⟨a, b, ha, hb, rfl⟩ := hp
      have hid := notMem_of_isValidId (hvalid _ List.mem_cons_self) hchar
      simp only [List.mem_append, not_or]
      exact ⟨⟨hnot ha, hid⟩, hnot hb⟩
    · exact ih (fun id hid => hvalid id (List.mem_cons_of_mem _ hid)) piece hmem

/-- The identifiers in brackets are the pieces between commas. -/
theorem idList_iff : IdList list ids ↔
    ']' ∉ list ∧ ids = (splitOn ',' list).map trim ∧ ∀ id ∈ ids, isValidId id = true := by
  constructor
  · rintro ⟨hne, hvalid, pieces, rfl, hpieces⟩
    have hcomma := notMem_of_padded hvalid hpieces (by decide : isIdChar ',' = false) (by decide)
    have hbracket := notMem_of_padded hvalid hpieces (by decide : isIdChar ']' = false) (by decide)
    have hpieces_ne : pieces ≠ [] := by
      rintro rfl
      exact hne (List.forall₂_nil_right_iff.mp hpieces)
    refine ⟨fun hmem => ?_, ?_, hvalid⟩
    · rcases mem_joinWith hmem with hmem | ⟨piece, hpiece, hmem⟩
      · cases hmem
      · exact hbracket piece hpiece hmem
    · rw [splitOn_joinWith hpieces_ne hcomma, map_trim_of_padded hvalid hpieces]
  · rintro ⟨-, rfl, hvalid⟩
    have hne : (splitOn ',' list).map trim ≠ [] := by simpa using splitOn_ne_nil ',' list
    refine ⟨hne, hvalid, splitOn ',' list, (joinWith_splitOn ',' list).symm, ?_⟩
    rw [List.forall₂_map_left_iff, List.forall₂_same]
    exact fun piece _ => padded_trim piece

/-- A text that can follow the marker word and its ending: it is empty or starts with a blank or a
bracket. -/
def OpensBody (body : List Char) : Prop := ∀ c ∈ body.head?, isBlank c = true ∨ c = '['

theorem MarkerBody.opensBody (h : MarkerBody body ids names) : OpensBody body := by
  have hhead : ∀ {blanks rest : List Char}, blanks ≠ [] → allBlank blanks = true →
      OpensBody (blanks ++ rest) := by
    intro blanks rest hne hblanks c hc
    obtain ⟨d, ds, rfl⟩ := List.exists_cons_of_ne_nil hne
    cases hc
    exact .inl (List.all_eq_true.mp hblanks c List.mem_cons_self)
  cases h with
  | single hne hblanks =>
    rw [List.append_assoc]
    exact hhead hne hblanks
  | @listed blanks list rest _ _ hblanks =>
    rw [List.append_assoc]
    by_cases hne : blanks = []
    · subst hne
      intro c hc
      cases hc
      exact .inr rfl
    · exact hhead hne hblanks

theorem readIds_bracket_iff : readIds ('[' :: cs) = .ok (ids, rest) ↔
    ∃ list, ']' ∉ list ∧ cs = list ++ ']' :: rest ∧ ids = (splitOn ',' list).map trim := by
  rw [readIds]
  constructor
  · intro h
    split at h
    · cases h
    · next list rest' hcut =>
      cases h
      obtain ⟨hbracket, rfl⟩ := cutAt?_beq_eq_some_iff.mp hcut
      exact ⟨list, hbracket, rfl, rfl⟩
  · rintro ⟨list, hbracket, rfl, rfl⟩
    rw [cutAt?_beq_eq_some_iff.mpr ⟨hbracket, rfl⟩]

theorem readIds_word_iff (h : cs.head? ≠ some '[') : readIds cs = .ok (ids, rest) ↔
    ∃ id, ids = [id] ∧ splitMarkerWord cs = (id, rest) := by
  unfold readIds
  split
  · exact absurd rfl h
  · rw [Except.ok.injEq, Prod.mk.injEq]
    constructor
    · rintro ⟨rfl, rfl⟩
      exact ⟨_, rfl, rfl⟩
    · rintro ⟨id, rfl, hsplit⟩
      rw [hsplit]
      exact ⟨rfl, rfl⟩

theorem readMarker_eq_ok_iff : readMarker kind body = .ok m ↔ ∃ ids rest names,
    readIds body = .ok (ids, rest) ∧ ids ≠ [] ∧ (∀ id ∈ ids, isValidId id = true) ∧
      Filters rest names ∧
      m = ⟨kind, ids.map String.ofList, names.getLast?.map String.ofList⟩ := by
  constructor
  · intro h
    unfold readMarker at h
    cases hids : readIds body with
    | error e =>
      rw [hids] at h
      cases h
    | ok found =>
      obtain ⟨ids, rest⟩ := found
      cases hcheck : checkIds ids with
      | error e => simp [hids, hcheck, bind, Except.bind] at h
      | ok texts =>
        cases hsymbol : readSymbol none rest with
        | error e => simp [hids, hcheck, hsymbol, bind, Except.bind] at h
        | ok symbol =>
          obtain ⟨hne, hvalid, rfl⟩ := checkIds_eq_ok_iff.mp hcheck
          obtain ⟨names, hnames, rfl⟩ := readSymbol_eq_ok_iff.mp hsymbol
          refine ⟨ids, rest, names, rfl, hne, hvalid, hnames, ?_⟩
          simpa [hids, hcheck, hsymbol, bind, Except.bind, pure, Except.pure, eq_comm] using h
  · rintro ⟨ids, rest, names, hids, hne, hvalid, hnames, rfl⟩
    have hcheck := checkIds_eq_ok_iff.mpr ⟨hne, hvalid, rfl⟩
    have hsymbol : readSymbol none rest = .ok (names.getLast?.map String.ofList) :=
      readSymbol_eq_ok_iff.mpr ⟨names, hnames, Option.or_none.symm⟩
    simp [readMarker, hids, hcheck, hsymbol, bind, Except.bind, pure, Except.pure]

theorem exists_head?_of_isValidId (h : isValidId id = true) (rest : List Char) :
    ∃ c, (id ++ rest).head? = some c ∧ isIdChar c = true := by
  obtain ⟨c, cs, rfl⟩ := List.exists_cons_of_ne_nil (ne_nil_of_isValidId h)
  exact ⟨c, rfl, isIdChar_of_mem h List.mem_cons_self⟩

/-- What is accepted behind the marker word can stand there. -/
theorem exists_markerBody_of_readMarker (h : OpensBody body)
    (hread : readMarker kind (trimStart body) = .ok m) : ∃ ids names, MarkerBody body ids names ∧
      m = ⟨kind, ids.map String.ofList, names.getLast?.map String.ofList⟩ := by
  have hbody : body = body.takeWhile isBlank ++ trimStart body :=
    List.takeWhile_append_dropWhile.symm
  have hblanks : allBlank (body.takeWhile isBlank) = true := List.all_takeWhile
  obtain ⟨ids, rest, names, hids, hne, hvalid, hnames, rfl⟩ := readMarker_eq_ok_iff.mp hread
  refine ⟨ids, names, ?_, rfl⟩
  by_cases hbracket : (trimStart body).head? = some '['
  · obtain ⟨cs, hcs⟩ := List.head?_eq_some_iff.mp hbracket
    rw [hcs, readIds_bracket_iff] at hids
    obtain ⟨list, hlist, rfl, rfl⟩ := hids
    have hparts := MarkerBody.listed hblanks (idList_iff.mpr ⟨hlist, rfl, hvalid⟩) hnames
    rwa [List.append_assoc, List.cons_append, ← hcs, ← hbody] at hparts
  · obtain ⟨id, rfl, hsplit⟩ := (readIds_word_iff hbracket).mp hids
    obtain ⟨hword, -, hrest⟩ := splitMarkerWord_eq_iff.mp hsplit
    have hid := hvalid id List.mem_cons_self
    have hblanks_ne : body.takeWhile isBlank ≠ [] := by
      -- an identifier right behind the marker word would open no body
      intro hnil
      obtain ⟨c, hc, hchar⟩ := exists_head?_of_isValidId hid rest
      rw [hnil, List.nil_append, hword] at hbody
      rcases h c (hbody ▸ hc) with hblank | rfl
      · rw [isBlank_of_isIdChar hchar] at hblank
        cases hblank
      · cases hchar
    have hparts := MarkerBody.single hblanks_ne hblanks hid hrest hnames
    rwa [List.append_assoc, ← hword, ← hbody] at hparts

/-- What can stand behind the marker word is accepted. -/
theorem readMarker_of_markerBody (h : MarkerBody body ids names) (kind : MarkerKind) :
    readMarker kind (trimStart body) =
      .ok ⟨kind, ids.map String.ofList, names.getLast?.map String.ofList⟩ := by
  rw [readMarker_eq_ok_iff]
  cases h with
  | @single blanks id rest _ hne hblanks hid hrest hnames =>
    obtain ⟨c, hc, hchar⟩ := exists_head?_of_isValidId hid rest
    have hhead : ∀ d ∈ (id ++ rest).head?, isBlank d = false := by
      intro d hd
      rw [hc] at hd
      cases hd
      exact isBlank_of_isIdChar hchar
    have hbracket : (id ++ rest).head? ≠ some '[' := by
      rw [hc]
      rintro ⟨⟩
      cases hchar
    have hword : splitMarkerWord (id ++ rest) = (id, rest) :=
      splitMarkerWord_eq_iff.mpr ⟨rfl, fun d hd => ⟨isBlank_of_isIdChar (isIdChar_of_mem hid hd),
        fun heq => notMem_of_isValidId hid (by decide) (heq ▸ hd)⟩, hrest⟩
    rw [List.append_assoc, trimStart_append hblanks, trimStart_eq_self hhead]
    refine ⟨[id], rest, names, (readIds_word_iff hbracket).mpr ⟨id, rfl, hword⟩,
      List.cons_ne_nil _ _, fun d hd => ?_, hnames, rfl⟩
    rwa [List.mem_singleton.mp hd]
  | @listed blanks list rest _ _ hblanks hlist hnames =>
    obtain ⟨hbracket, rfl, hvalid⟩ := idList_iff.mp hlist
    have hhead : ∀ d ∈ ('[' :: (list ++ ']' :: rest)).head?, isBlank d = false := by
      rintro d ⟨⟩
      decide
    rw [List.append_assoc, List.cons_append, trimStart_append hblanks, trimStart_eq_self hhead]
    exact ⟨_, rest, names, readIds_bracket_iff.mpr ⟨list, hbracket, rfl, rfl⟩, hlist.1, hvalid,
      hnames, rfl⟩

theorem markerKind_eq_append (cs : List Char) :
    cs = (markerKind cs).1.ending ++ (markerKind cs).2 := by
  have hendings : ∀ e ∈ markerEndings, e.2.ending = e.1.toList := by decide
  unfold markerKind
  split
  · next found hfound =>
    obtain ⟨e, he, hdrop⟩ := List.exists_of_findSome?_eq_some hfound
    obtain ⟨rest, hrest, rfl⟩ := Option.map_eq_some_iff.mp hdrop
    rw [hendings e he]
    exact dropStart?_eq_some_iff.mp hrest
  · rfl

/-- The ending of the marker word tells the kind. -/
theorem markerKind_ending_append (h : OpensBody body) (kind : MarkerKind) :
    markerKind (kind.ending ++ body) = (kind, body) := by
  -- `change` in each case, as the equations of `ending` would spell the literals out
  cases kind with
  | line =>
    have hdash : ∀ e ∈ markerEndings, e.1.toList.head? = some '-' := by decide
    change markerKind body = (.line, body)
    unfold markerKind
    split
    · next found hfound =>
      obtain ⟨e, he, hdrop⟩ := List.exists_of_findSome?_eq_some hfound
      obtain ⟨rest, hrest, -⟩ := Option.map_eq_some_iff.mp hdrop
      have hhead : body.head? = some '-' := by
        rw [dropStart?_eq_some_iff.mp hrest, List.head?_append, hdash e he]
        rfl
      rcases h '-' hhead with hc | hc <;> cases hc
    · rfl
  | opening =>
    change markerKind ("-begin".toList ++ body) = _
    simp [markerKind, markerEndings, dropStart?]
  | closing =>
    change markerKind ("-end".toList ++ body) = _
    simp [markerKind, markerEndings, dropStart?]
  | file =>
    change markerKind ("-file".toList ++ body) = _
    simp [markerKind, markerEndings, dropStart?]
  | expansion =>
    change markerKind ("-macro".toList ++ body) = _
    simp [markerKind, markerEndings, dropStart?]

/-- The first line of a comment without the blanks around it. -/
def firstLine (comment : List Char) : List Char := trim ((lines comment).headD [])

theorem parseMarker_of_opensBody
    (hline : firstLine comment = markerWord.toList ++ kind.ending ++ body) (h : OpensBody body) :
    parseMarker comment = some (readMarker kind (trimStart body)) := by
  have hdrop : dropStart? markerWord.toList (firstLine comment) = some (kind.ending ++ body) :=
    dropStart?_eq_some_iff.mpr (by rw [hline, List.append_assoc])
  rw [firstLine] at hdrop
  simp only [parseMarker, hdrop, Option.bind_eq_bind, Option.bind_some,
    markerKind_ending_append h kind]
  cases body with
  | nil => rfl
  | cons c cs =>
    have hc : (isBlank c || c == '[') = true := by simpa using h c rfl
    exact if_pos hc

/-- A comment that is taken for a marker, well-formed or not, opens as one. -/
theorem exists_opensBody_of_parseMarker (h : parseMarker comment ≠ none) :
    ∃ (kind : MarkerKind) (body : List Char),
      firstLine comment = markerWord.toList ++ kind.ending ++ body ∧ OpensBody body := by
  cases hdrop : dropStart? markerWord.toList (firstLine comment) with
  | none =>
    rw [firstLine] at hdrop
    exact absurd (by rw [parseMarker, hdrop]; rfl) h
  | some rest =>
    refine ⟨(markerKind rest).1, (markerKind rest).2, ?_, fun c hc => ?_⟩
    · rw [List.append_assoc, ← markerKind_eq_append]
      exact dropStart?_eq_some_iff.mp hdrop
    · by_contra hnot
      obtain ⟨cs, hcs⟩ := List.head?_eq_some_iff.mp hc
      have hclass : ¬(isBlank c || c == '[') = true := by simpa using hnot
      rw [firstLine] at hdrop
      apply h
      simp only [parseMarker, hdrop, Option.bind_eq_bind, Option.bind_some]
      rw [hcs]
      exact if_neg hclass

/-- A line that is not taken for a marker. The marker word is missing, or what follows it and its
ending starts with something other than a blank or a bracket. -/
def IsForeign (line : List Char) : Prop :=
  ∀ (kind : MarkerKind) (body : List Char), line = markerWord.toList ++ kind.ending ++ body →
    ∃ c cs, body = c :: cs ∧ isBlank c = false ∧ c ≠ '['

theorem isForeign_iff {line : List Char} : IsForeign line ↔
    ∀ (kind : MarkerKind) (body : List Char),
      line = markerWord.toList ++ kind.ending ++ body → ¬OpensBody body := by
  refine forall₃_congr fun kind body _ => ?_
  cases body with
  | nil => simp [OpensBody]
  | cons c cs => simp [OpensBody]

/-- The reader of markers accepts exactly its language. A comment is read as a marker if its first
line is that marker, it is passed over if that line is not taken for a marker, and otherwise it is
reported as malformed. -/
theorem parseMarker_grammar (comment : List Char) :
    (∀ m, parseMarker comment = some (.ok m) ↔ IsMarker m (firstLine comment)) ∧
    (parseMarker comment = none ↔ IsForeign (firstLine comment)) ∧
    ((∃ fault, parseMarker comment = some (.error fault)) ↔
      ¬IsForeign (firstLine comment) ∧ ∀ m, ¬IsMarker m (firstLine comment)) := by
  have hok : ∀ m, parseMarker comment = some (.ok m) ↔ IsMarker m (firstLine comment) := by
    intro m
    constructor
    · intro h
      have hsome : parseMarker comment ≠ none := by simp [h]
      obtain ⟨kind, body, hline, hopens⟩ := exists_opensBody_of_parseMarker hsome
      rw [parseMarker_of_opensBody hline hopens, Option.some.injEq] at h
      obtain ⟨ids, names, hbody, rfl⟩ := exists_markerBody_of_readMarker hopens h
      exact ⟨body, ids, names, hline, hbody, rfl, rfl⟩
    · rintro ⟨body, ids, names, hline, hbody, hids, hsymbol⟩
      rw [parseMarker_of_opensBody hline hbody.opensBody, readMarker_of_markerBody hbody]
      cases m
      simp_all
  have hnone : parseMarker comment = none ↔ IsForeign (firstLine comment) := by
    rw [isForeign_iff]
    constructor
    · intro h kind body hline hopens
      rw [parseMarker_of_opensBody hline hopens] at h
      cases h
    · intro h
      by_contra hsome
      obtain ⟨kind, body, hline, hopens⟩ := exists_opensBody_of_parseMarker hsome
      exact h kind body hline hopens
  refine ⟨hok, hnone, ?_⟩
  simp only [← hok, ← hnone]
  cases parseMarker comment with
  | none => simp
  | some result => cases result <;> simp

example : parseMarker "cppcheck-suppress[a, b]symbolName=x symbolName=y//z ; note".toList =
    some (.ok ⟨.line, ["a", "b"], some "y//z"⟩) := by
  decide +kernel

end MacroSweep.Suppression
