import MacroSweep.Checker.Basic
import MacroSweep.Proofs.Subsets
import MacroSweep.Proofs.Text

/-! Texts that tell things apart: the signature of a configuration tells its definitions, and the
tag of a checker its settings. -/
namespace MacroSweep

open Text

namespace Text

theorem isWordChar_of_isIdentifier {cs : List Char} (h : isIdentifier cs = true) {c : Char}
    (hc : c ∈ cs) : isWordChar c = true := by
  cases cs with
  | nil => cases h
  | cons d cs =>
    rw [isIdentifier, Bool.and_eq_true, List.all_eq_true] at h
    rcases List.mem_cons.mp hc with rfl | hc
    · exact isWordChar_of_isWordStart h.1
    · exact h.2 c hc

end Text

namespace Configuration

variable {defines : SortedMap String String} {c d : Configuration} {e f : String × String}

/-- Whether definitions can be told from their text: names are identifiers, and no value has a
semicolon. -/
def Legible (defines : SortedMap String String) : Prop :=
  ∀ e ∈ defines.toList, isIdentifier e.1.toList = true ∧ ';' ∉ e.2.toList

theorem toList_entryText (e : String × String) :
    (entryText e).toList = e.1.toList ++ '=' :: e.2.toList := by
  simp [entryText]

theorem entryText_injective (he : isIdentifier e.1.toList = true)
    (hf : isIdentifier f.1.toList = true) (h : entryText e = entryText f) : e = f := by
  have hname : ∀ {name : String}, isIdentifier name.toList = true → '=' ∉ name.toList := by
    intro name hn hmem
    cases isWordChar_of_isIdentifier hn hmem
  have htext := congrArg String.toList h
  rw [toList_entryText, toList_entryText] at htext
  obtain ⟨h1, h2⟩ := eq_of_append_cons (hname he) (hname hf) htext
  exact Prod.ext (String.toList_inj.mp h1) (String.toList_inj.mp h2)

theorem eq_of_map_entryText {es fs : List (String × String)}
    (he : ∀ e ∈ es, isIdentifier e.1.toList = true) (hf : ∀ f ∈ fs, isIdentifier f.1.toList = true)
    (h : es.map entryText = fs.map entryText) : es = fs := by
  induction es generalizing fs with
  | nil => exact (List.map_eq_nil_iff.mp h.symm).symm
  | cons e es ih =>
    cases fs with
    | nil => cases h
    | cons f fs =>
      obtain ⟨hfirst, hrest⟩ := List.cons.inj h
      rw [entryText_injective (he e (by simp)) (hf f (by simp)) hfirst,
        ih (fun e' h' => he e' (by simp [h'])) (fun f' h' => hf f' (by simp [h'])) hrest]

/-- The entries of definitions are the pieces of their text. -/
theorem splitOn_signature (h : Legible c.defines) (hne : c.defines.toList ≠ []) :
    splitOn ';' c.signature.toList = (c.defines.toList.map entryText).map String.toList := by
  have hpieces : ∀ piece ∈ (c.defines.toList.map entryText).map String.toList, ';' ∉ piece := by
    intro piece hp
    obtain ⟨text, ht, rfl⟩ := List.mem_map.mp hp
    obtain ⟨e, he, rfl⟩ := List.mem_map.mp ht
    obtain ⟨hname, hvalue⟩ := h e he
    rw [toList_entryText, List.mem_append, List.mem_cons]
    rintro (hmem | hmem | hmem)
    · cases isWordChar_of_isIdentifier hname hmem
    · cases hmem
    · exact hvalue hmem
  have hjoin : c.signature.toList =
      joinWith ';' ((c.defines.toList.map entryText).map String.toList) := by
    rw [signature, String.toList_intercalate, ← intercalate_eq_joinWith]
    rfl
  rw [hjoin, splitOn_joinWith (by simpa using hne) hpieces]

theorem signature_ne_empty (h : Legible c.defines) (hne : c.defines.toList ≠ []) :
    c.signature ≠ "" := by
  intro he
  have hpieces := splitOn_signature h hne
  obtain ⟨e, es, hes⟩ := List.exists_cons_of_ne_nil hne
  rw [he, hes, List.map_cons, List.map_cons, toList_entryText] at hpieces
  have hfirst := (List.cons.inj hpieces).1
  simp at hfirst

/-- Configurations with the same signature have the same definitions. -/
theorem defines_eq_of_signature (hc : Legible c.defines) (hd : Legible d.defines)
    (h : c.signature = d.signature) : c.defines = d.defines := by
  have hempty : ∀ {b : Configuration}, b.defines.toList = [] → b.signature = "" := by
    intro b hb
    rw [signature, hb]
    rfl
  apply SortedMap.ext_toList
  by_cases hc0 : c.defines.toList = []
  · by_cases hd0 : d.defines.toList = []
    · rw [hc0, hd0]
    · exact absurd (h.symm.trans (hempty hc0)) (signature_ne_empty hd hd0)
  · by_cases hd0 : d.defines.toList = []
    · exact absurd (h.trans (hempty hd0)) (signature_ne_empty hc hc0)
    · have hpieces := congrArg (fun s : String => splitOn ';' s.toList) h
      rw [splitOn_signature hc hc0, splitOn_signature hd hd0] at hpieces
      exact eq_of_map_entryText (fun e he => (hc e he).1) (fun e he => (hd e he).1)
        ((List.map_inj_right fun _ _ => String.toList_inj.mp).mp hpieces)

theorem legible_insert {name value : String} (h : Legible defines)
    (hn : isIdentifier name.toList = true) (hv : ';' ∉ value.toList) :
    Legible (defines.insert name value) := by
  intro e he
  rcases SortedMap.eq_or_mem_of_mem_put he with ⟨hk, hvalue⟩ | he
  · have hkey : name = e.1 := Std.LawfulEqOrd.eq_of_compare hk
    rw [← hkey, hvalue]
    exact ⟨hn, hv⟩
  · exact h e he

theorem legible_erase (h : Legible defines) (name : String) : Legible (defines.erase name) :=
  fun e he => h e (List.mem_filter.mp he).1

end Configuration

namespace ForcedMacros

open MacroSweep.Configuration

theorem semicolon_notMem_of_mem_entries {text : String} {entry : List Char}
    (h : entry ∈ entries text) : ';' ∉ entry := by
  obtain ⟨h, -⟩ := List.mem_filter.mp h
  obtain ⟨piece, hp, rfl⟩ := List.mem_map.mp h
  exact fun hmem => sep_notMem_of_mem_splitOn hp (mem_of_mem_trim hmem)

theorem semicolon_notMem_readEntry {entry : List Char} (h : ';' ∉ entry) :
    ';' ∉ (readEntry entry).2 := by
  unfold readEntry
  split
  · next name value hcut => exact fun hmem => h (mem_of_cutAt? hcut (mem_of_mem_trim hmem))
  · simp

theorem legible_define {forced : ForcedMacros} {entry : List Char} (h : Legible forced.defines)
    (he : ';' ∉ entry) : Legible (forced.define entry).defines := by
  unfold define
  dsimp only
  split
  · next hi =>
    exact legible_insert h (by simpa using hi) (by simpa using semicolon_notMem_readEntry he)
  · exact h

theorem legible_undefine {forced : ForcedMacros} (h : Legible forced.defines) (text : String) :
    Legible (forced.undefine text).defines := by
  unfold undefine
  dsimp only
  split
  · exact legible_erase h _
  · exact h

/-- Definitions from outside can be told from their text. -/
theorem legible_parse (defines undefines : List String) :
    Legible (parse defines undefines).defines := by
  have hdefined : Legible ((defines.flatMap entries).foldl define {}).defines := by
    apply List.foldlRecOn (motive := fun forced : ForcedMacros => Legible forced.defines)
    · intro e he
      cases he
    · intro forced h entry he
      obtain ⟨text, -, he⟩ := List.mem_flatMap.mp he
      exact legible_define h (semicolon_notMem_of_mem_entries he)
  exact List.foldlRecOn (motive := fun forced : ForcedMacros => Legible forced.defines) undefines
    undefine hdefined fun forced h text _ => legible_undefine h text

end ForcedMacros

namespace Enumeration

open MacroSweep.Configuration

/-- The definitions of every configuration can be told from their text. -/
theorem legible_of_mem_configurations {e : Enumeration} {conditionals : SortedSet String}
    {c : Configuration} (hforced : Legible e.forced.defines)
    (hnames : ∀ name ∈ conditionals.toList, isIdentifier name.toList = true)
    (h : c ∈ e.configurations conditionals) : Legible c.defines := by
  rw [configurations_eq_take] at h
  obtain ⟨chosen, hchosen, rfl⟩ := List.mem_map.mp h
  have hsublist := sublist_of_mem_orderedChoices (List.mem_of_mem_take hchosen)
  apply List.foldlRecOn (motive := fun defines : SortedMap String String => Legible defines)
  · exact hforced
  · intro defines hd name hname
    have hfree := hsublist.subset hname
    exact legible_insert hd (hnames name (List.mem_filter.mp hfree).1) (by decide)

/-- Over all texts of definitions and undefinitions and all units, a signature stands for one set of
definitions only. -/
theorem signature_eq_iff_defines_eq {e₁ e₂ : Enumeration}
    {defines₁ undefines₁ defines₂ undefines₂ : List String}
    {conditionals₁ conditionals₂ : SortedSet String} {c₁ c₂ : Configuration}
    (hforced₁ : e₁.forced = .parse defines₁ undefines₁)
    (hforced₂ : e₂.forced = .parse defines₂ undefines₂)
    (hnames₁ : ∀ name ∈ conditionals₁.toList, isIdentifier name.toList = true)
    (hnames₂ : ∀ name ∈ conditionals₂.toList, isIdentifier name.toList = true)
    (h₁ : c₁ ∈ e₁.configurations conditionals₁) (h₂ : c₂ ∈ e₂.configurations conditionals₂) :
    c₁.signature = c₂.signature ↔ c₁.defines = c₂.defines := by
  have hlegible₁ : Legible c₁.defines := by
    refine legible_of_mem_configurations ?_ hnames₁ h₁
    rw [hforced₁]
    exact ForcedMacros.legible_parse defines₁ undefines₁
  have hlegible₂ : Legible c₂.defines := by
    refine legible_of_mem_configurations ?_ hnames₂ h₂
    rw [hforced₂]
    exact ForcedMacros.legible_parse defines₂ undefines₂
  constructor
  · exact defines_eq_of_signature hlegible₁ hlegible₂
  · intro hdefines
    rw [signature, signature, hdefines]

/-- A macro forced to a value and one chosen freely can give the same signature, and then the same
definitions. -/
theorem defines_eq_of_forced_and_chosen :
    ∃ c₁ ∈ (⟨.parse ["A=x=y; B=1"] [], false, none⟩ : Enumeration).configurations ∅,
      ∃ c₂ ∈ (⟨.parse ["A = x=y"] ["C"], true, none⟩ : Enumeration).configurations
          (.ofList ["B", "C"]),
        c₁.signature = "A=x=y;B=1" ∧ c₂.signature = "A=x=y;B=1" ∧ c₁.defines = c₂.defines := by
  have h₁ : ⟨.ofList [("A", "x=y"), ("B", "1")], ∅⟩ ∈
      (⟨.parse ["A=x=y; B=1"] [], false, none⟩ : Enumeration).configurations ∅ := by
    decide +kernel
  have h₂ : ⟨.ofList [("A", "x=y"), ("B", "1")], .ofList ["C"]⟩ ∈
      (⟨.parse ["A = x=y"] ["C"], true, none⟩ : Enumeration).configurations
        (.ofList ["B", "C"]) := by
    decide +kernel
  refine ⟨_, h₁, _, h₂, by decide +kernel, by decide +kernel, ?_⟩
  exact (signature_eq_iff_defines_eq (by rfl) (by rfl) (by decide +kernel) (by decide +kernel)
    h₁ h₂).mp (by decide +kernel)

end Enumeration

namespace Checker

theorem settings_eq_of_versionTag {checker : Checker} {s t : Settings}
    (h : checker.versionTag s = checker.versionTag t) : s = t := by
  have hlevel : ∀ level : Level, ';' ∉ level.name.toList := by
    intro level
    cases level <;> decide
  have hdigits : ∀ n : Nat, ';' ∉ Nat.toDigits 10 n := by
    intro n hmem
    have hd : ';'.isDigit = true := isDigit_of_mem_toDigits hmem
    cases hd
  have hform : ∀ s : Settings, (checker.versionTag s).toList =
      (checker.name ++ "@" ++ checker.version ++ ";level=").toList ++
        (s.level.name.toList ++ ';' :: ("max-if=".toList ++ (Nat.toDigits 10 s.maxIfCount ++
          ';' :: ("templates=".toList ++ Nat.toDigits 10 s.templateRecursion)))) := by
    intro s
    have hstring : ∀ text : String, toString text = text := fun _ => rfl
    simp [versionTag, hstring]
  have htext := congrArg String.toList h
  rw [hform, hform] at htext
  obtain ⟨h1, htext⟩ := eq_of_append_cons (hlevel _) (hlevel _) (List.append_cancel_left htext)
  obtain ⟨h2, htext⟩ := eq_of_append_cons (hdigits _) (hdigits _) (List.append_cancel_left htext)
  have h3 := List.append_cancel_left htext
  have hnames : ∀ {l m : Level}, l.name.toList = m.name.toList → l = m := by
    intro l m
    cases l <;> cases m <;> decide
  obtain ⟨sl, sm, st⟩ := s
  obtain ⟨tl, tm, tt⟩ := t
  rw [Settings.mk.injEq]
  exact ⟨hnames h1, toDigits_injective h2, toDigits_injective h3⟩

end Checker

end MacroSweep
