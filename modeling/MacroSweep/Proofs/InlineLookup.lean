import MacroSweep.Proofs.Filtering
import MacroSweep.Proofs.Ordered
import MacroSweep.Proofs.Path
import Mathlib.Data.List.Perm.Basic
import Mathlib.Data.List.Induction

/-! Inline rules are found by file. An index built from any scans finds for a finding the rules of
its file and those about macros, and keeps each rule of the scans that count under one number. -/
namespace MacroSweep.Suppression

variable {r : Registry} {index : InlineIndex} {f : Finding} {rule : Rule} {file : Path} {i : Nat}
  {scan : InlineScan} {s : Path × InlineScan} {scans : List (Path × InlineScan)}

namespace InlineIndex

/-- The index of scans that are added one after another. -/
def ofScans (scans : List (Path × InlineScan)) : InlineIndex :=
  scans.foldl (fun index s => index.insert s.1 s.2) {}

/-- The scans that count: of several scans of a file the first. -/
def counted : List (Path × InlineScan) → List (Path × InlineScan)
  | [] => []
  | s :: scans => s :: (counted scans).filter fun t => !s.1.same t.1

theorem counted_append_singleton (scans : List (Path × InlineScan)) (s : Path × InlineScan) :
    counted (scans ++ [s]) =
      counted scans ++ if scans.any (·.1.same s.1) then [] else [s] := by
  induction scans with
  | nil => rfl
  | cons t scans ih =>
    rw [List.cons_append, counted, counted, ih, List.filter_append, List.cons_append, List.any_cons]
    by_cases ht : t.1.same s.1 = true
    · cases scans.any (·.1.same s.1) <;> simp [ht]
    · cases scans.any (·.1.same s.1) <;> simp [ht]

/-- A scan counts if it is the first of its file. -/
theorem mem_counted_iff : s ∈ counted scans ↔ scans.find? (·.1.same s.1) = some s := by
  induction scans with
  | nil => simp [counted]
  | cons t scans ih =>
    rw [counted, List.mem_cons, List.mem_filter, ih, List.find?_cons]
    by_cases ht : t.1.same s.1 = true
    · simp [ht, eq_comm]
    · have hne : s ≠ t := by
        rintro rfl
        exact ht (Path.same_iff.mpr rfl)
      simp [ht, hne]

/-- The rules that count, each with its file. -/
def entries (scans : List (Path × InlineScan)) : List (Path × Rule) :=
  (counted scans).flatMap fun s => s.2.rules.map (s.1, ·)

/-- The numbers of the elements with a property; the first has the given number. -/
def numbersFrom {α : Type} (n : Nat) (p : α → Bool) (l : List α) : List Nat :=
  ((l.zipIdx n).filter fun (a, _) => p a).map (·.2)

theorem numbersFrom_append {α : Type} (n : Nat) (p : α → Bool) (l m : List α) :
    numbersFrom n p (l ++ m) = numbersFrom n p l ++ numbersFrom (n + l.length) p m := by
  simp [numbersFrom, List.zipIdx_append]

theorem numbersFrom_map {α β : Type} (n : Nat) (g : α → β) (p : β → Bool) (l : List α) :
    numbersFrom n p (l.map g) = numbersFrom n (fun a => p (g a)) l := by
  simp [numbersFrom, List.zipIdx_map, List.filter_map, Function.comp_def]

theorem numbersFrom_eq_nil {α : Type} {n : Nat} {p : α → Bool} {l : List α}
    (h : ∀ a ∈ l, p a = false) : numbersFrom n p l = [] := by
  rw [numbersFrom, List.map_eq_nil_iff, List.filter_eq_nil_iff]
  rintro ⟨a, i⟩ ha
  simp [h a (List.fst_mem_of_mem_zipIdx ha)]

theorem mem_numbersFrom_zero {α : Type} {p : α → Bool} {l : List α} :
    i ∈ numbersFrom 0 p l ↔ ∃ a, l[i]? = some a ∧ p a = true := by
  simp only [numbersFrom, List.mem_map, List.mem_filter, Prod.exists,
    List.mk_mem_zipIdx_iff_getElem?, exists_eq_right]

/-- Numbers are shared out between a property and its opposite. -/
theorem numbersFrom_perm {α : Type} (n : Nat) (p : α → Bool) (l : List α) :
    (numbersFrom n (fun a => !p a) l ++ numbersFrom n p l).Perm (List.range' n l.length) := by
  have hall := (List.filter_append_perm (fun (a : α × Nat) => p a.1) (l.zipIdx n)).map Prod.snd
  rw [List.zipIdx_map_snd, List.map_append] at hall
  exact List.perm_append_comm.trans hall

/-- What an index holds of the scans it was built from. -/
structure Holds (index : InlineIndex) (scans : List (Path × InlineScan)) : Prop where
  rules : index.rules = (entries scans).map (·.2)
  expansions : index.expansions = numbersFrom 0 (fun e => isExpansion e.2) (entries scans)
  byFile : ∀ file, index.byFile.find? file =
    if scans.any (·.1.same file) then
      some (numbersFrom 0 (fun e => e.1.same file && !isExpansion e.2) (entries scans))
    else none
  numbers : (index.byFile.toList.flatMap (·.2) ++ index.expansions).Perm
    (List.range index.rules.length)

theorem holds_empty : Holds {} [] where
  rules := rfl
  expansions := rfl
  byFile _ := rfl
  numbers := .refl _

theorem Holds.contains_eq (h : Holds index scans) (file : Path) :
    index.contains file = scans.any (·.1.same file) := by
  rw [contains, SortedMap.contains_eq_isSome, h.byFile]
  cases scans.any (·.1.same file) <;> rfl

theorem entries_of_repeated (h : scans.any (·.1.same s.1) = true) :
    entries (scans ++ [s]) = entries scans := by
  rw [entries, counted_append_singleton, h, if_pos rfl, List.append_nil, entries]

theorem entries_of_new (h : scans.any (·.1.same s.1) = false) :
    entries (scans ++ [s]) = entries scans ++ s.2.rules.map (s.1, ·) := by
  simp [entries, counted_append_singleton, h]

/-- Rules that count are found in files that were scanned. -/
theorem same_eq_false_of_mem_entries {e : Path × Rule} (h : scans.any (·.1.same file) = false)
    (he : e ∈ entries scans) : e.1.same file = false := by
  obtain ⟨s, hs, he⟩ := List.mem_flatMap.mp he
  obtain ⟨rule, -, rfl⟩ := List.mem_map.mp he
  have hmem : s ∈ scans := List.mem_of_find?_eq_some (mem_counted_iff.mp hs)
  exact Bool.eq_false_iff.mpr (List.any_eq_false.mp h s hmem)

/-- A further scan of a file changes nothing. -/
theorem Holds.insert_repeated (h : Holds index scans) (hs : scans.any (·.1.same s.1) = true) :
    Holds (index.insert s.1 s.2) (scans ++ [s]) := by
  have hindex : index.insert s.1 s.2 = index := by
    rw [insert, h.contains_eq, hs, if_pos rfl]
  have hany : ∀ file, (scans ++ [s]).any (·.1.same file) = scans.any (·.1.same file) := by
    intro file
    by_cases hfile : s.1.same file = true
    · obtain ⟨t, ht, hsame⟩ := List.any_eq_true.mp hs
      have htfile : t.1.same file = true :=
        Path.same_iff.mpr ((Path.same_iff.mp hsame).trans (Path.same_iff.mp hfile))
      have hfound : scans.any (·.1.same file) = true := List.any_eq_true.mpr ⟨t, ht, htfile⟩
      simp [hfound]
    · simp [hfile]
  rw [hindex]
  exact {
    rules := by rw [entries_of_repeated hs, h.rules]
    expansions := by rw [entries_of_repeated hs, h.expansions]
    byFile := fun file => by rw [entries_of_repeated hs, hany, h.byFile]
    numbers := h.numbers }

/-- The first scan of a file adds its rules at the end. -/
theorem insert_of_new (h : index.contains file = false) (scan : InlineScan) :
    (index.insert file scan).rules = index.rules ++ scan.rules ∧
      (index.insert file scan).expansions =
        index.expansions ++ numbersFrom index.rules.length isExpansion scan.rules ∧
      (index.insert file scan).byFile = index.byFile.insert file
        (numbersFrom index.rules.length (fun rule => !isExpansion rule) scan.rules) := by
  rw [insert, h, if_neg Bool.false_ne_true]
  exact ⟨rfl, rfl, rfl⟩

/-- Among the rules that count, those of a file are the new ones if the file is new, and else the
old ones. -/
theorem numbersFrom_entries_new (hs : scans.any (·.1.same s.1) = false) (file : Path) :
    numbersFrom 0 (fun e => e.1.same file && !isExpansion e.2) (entries (scans ++ [s])) =
      if s.1.same file then
        numbersFrom (entries scans).length (fun rule => !isExpansion rule) s.2.rules
      else numbersFrom 0 (fun e => e.1.same file && !isExpansion e.2) (entries scans) := by
  rw [entries_of_new hs, numbersFrom_append, numbersFrom_map, Nat.zero_add]
  split
  · next hfile =>
    have hold : scans.any (·.1.same file) = false := by
      rw [← hs]
      congr 1
      funext t
      rw [Bool.eq_iff_iff, Path.same_iff, Path.same_iff, Path.same_iff.mp hfile]
    rw [numbersFrom_eq_nil fun e he => by
      rw [same_eq_false_of_mem_entries hold he, Bool.false_and]]
    simp [hfile]
  · next hfile =>
    rw [numbersFrom_eq_nil (l := s.2.rules) fun rule _ => by simp [hfile], List.append_nil]

/-- New numbers go on where the old ones end. -/
theorem Holds.numbers_insert (h : Holds index scans) (hnew : index.contains file = false) :
    ((index.insert file scan).byFile.toList.flatMap (·.2) ++
      (index.insert file scan).expansions).Perm
        (List.range (index.insert file scan).rules.length) := by
  obtain ⟨hrules, hexpansions, hbyFile⟩ := insert_of_new hnew scan
  have hput : (index.insert file scan).byFile.toList.Perm ((file, numbersFrom index.rules.length
      (fun rule => !isExpansion rule) scan.rules) :: index.byFile.toList) := by
    rw [hbyFile]
    refine SortedMap.put_perm fun e he heq => ?_
    have hcontains : index.contains file = true := List.any_eq_true.mpr ⟨e, he, by simp [heq]⟩
    rw [hnew] at hcontains
    cases hcontains
  have hnumbers := numbersFrom_perm index.rules.length isExpansion scan.rules
  rw [hexpansions, hrules, List.length_append, List.range_eq_range', ← List.range'_append,
    ← List.range_eq_range', List.perm_iff_count]
  intro i
  -- Each number is counted on both sides: the old ones are below the length, the new ones are not.
  have hold := h.numbers.count_eq i
  have hadded := hnumbers.count_eq i
  have hfound := (hput.flatMap_right (·.2)).count_eq i
  simp only [List.flatMap_cons, List.count_append, Nat.zero_add,
    Nat.one_mul] at hold hadded hfound ⊢
  omega

/-- The first scan of a file adds its rules, each under one number. -/
theorem Holds.insert_new (h : Holds index scans) (hs : scans.any (·.1.same s.1) = false) :
    Holds (index.insert s.1 s.2) (scans ++ [s]) := by
  have hnew : index.contains s.1 = false := (h.contains_eq s.1).trans hs
  obtain ⟨hrules, hexpansions, hbyFile⟩ := insert_of_new hnew s.2
  have hlength : index.rules.length = (entries scans).length := by rw [h.rules, List.length_map]
  refine ⟨?_, ?_, ?_, h.numbers_insert hnew⟩
  · rw [hrules, h.rules, entries_of_new hs, List.map_append, List.map_map]
    simp [Function.comp_def]
  · rw [hexpansions, h.expansions, entries_of_new hs, numbersFrom_append, numbersFrom_map,
      Nat.zero_add, hlength]
  · intro file
    have hcompare : compare file s.1 = .eq ↔ s.1.same file = true := by
      rw [Path.same, beq_iff_eq, Std.OrientedCmp.eq_comm]
    have hany : (scans ++ [s]).any (·.1.same file) =
        (scans.any (·.1.same file) || s.1.same file) := by simp
    rw [hbyFile, SortedMap.find?_insert, numbersFrom_entries_new hs, hlength, h.byFile, hany]
    by_cases hfile : s.1.same file = true
    · rw [if_pos (hcompare.mpr hfile), hfile, Bool.or_true, if_pos rfl, if_pos rfl]
    · rw [if_neg (mt hcompare.mp hfile), Bool.eq_false_iff.mpr hfile, Bool.or_false,
        if_neg Bool.false_ne_true]

/-- An index holds the scans it was built from. -/
theorem holds_ofScans (scans : List (Path × InlineScan)) : Holds (ofScans scans) scans := by
  induction scans using List.reverseRecOn with
  | nil => exact holds_empty
  | append_singleton scans s ih =>
    rw [ofScans, List.foldl_append, List.foldl_cons, List.foldl_nil]
    cases hs : scans.any (·.1.same s.1) with
    | true => exact ih.insert_repeated hs
    | false => exact ih.insert_new hs

theorem Holds.getElem?_rules (h : Holds index scans) (i : Nat) :
    index.rules[i]? = ((entries scans)[i]?).map (·.2) := by
  rw [h.rules, List.getElem?_map]

/-- The rules looked at for a finding are those of its file and those about macros. -/
theorem Holds.mem_candidates (h : Holds index scans) : i ∈ index.candidates f ↔
    ∃ e, (entries scans)[i]? = some e ∧
      (isExpansion e.2 = true ∨ e.1.same f.location.file = true) := by
  have hfile : i ∈ (index.byFile.find? f.location.file).getD [] ↔
      ∃ e, (entries scans)[i]? = some e ∧
        (e.1.same f.location.file && !isExpansion e.2) = true := by
    rw [h.byFile]
    split
    · rw [Option.getD_some]
      exact mem_numbersFrom_zero
    · next hnone =>
      constructor
      · intro hi
        cases hi
      · rintro ⟨e, he, hsame⟩
        rw [same_eq_false_of_mem_entries (Bool.eq_false_iff.mpr hnone) (List.mem_of_getElem? he)]
          at hsame
        cases hsame
  rw [candidates, List.mem_append, hfile, h.expansions, mem_numbersFrom_zero, ← exists_or]
  refine exists_congr fun e => ?_
  rw [← and_or_left]
  refine and_congr_right fun _ => ?_
  cases isExpansion e.2 <;> simp

/-- Some rule looked at covers a finding exactly if a rule that counts does which is about a macro
or stands in the file of the finding. -/
theorem Holds.exists_covers_iff (h : Holds index scans) :
    (∃ i ∈ index.candidates f, index.covers f i = true) ↔
      ∃ s ∈ counted scans, ∃ rule ∈ s.2.rules, rule.covers f = true ∧
        (isExpansion rule = true ∨ s.1.same f.location.file = true) := by
  constructor
  · rintro ⟨i, hi, hcovers⟩
    obtain ⟨e, he, hreach⟩ := h.mem_candidates.mp hi
    rw [covers, h.getElem?_rules, he] at hcovers
    obtain ⟨s, hs, hmem⟩ := List.mem_flatMap.mp (List.mem_of_getElem? he)
    obtain ⟨rule, hrule, rfl⟩ := List.mem_map.mp hmem
    exact ⟨s, hs, rule, hrule, hcovers, hreach⟩
  · rintro ⟨s, hs, rule, hrule, hcovers, hreach⟩
    have hmem : (s.1, rule) ∈ entries scans :=
      List.mem_flatMap.mpr ⟨s, hs, List.mem_map_of_mem hrule⟩
    obtain ⟨i, hi⟩ := List.mem_iff_getElem?.mp hmem
    refine ⟨i, h.mem_candidates.mpr ⟨_, hi, hreach⟩, ?_⟩
    rw [covers, h.getElem?_rules, hi]
    exact hcovers

/-- Which scans count does not depend on how scans of different files are mixed. -/
theorem mem_counted_congr {scans' : List (Path × InlineScan)}
    (h : ∀ file, scans'.filter (·.1.same file) = scans.filter (·.1.same file)) :
    s ∈ counted scans' ↔ s ∈ counted scans := by
  rw [mem_counted_iff, mem_counted_iff, ← List.head?_filter, ← List.head?_filter, h]

end InlineIndex

namespace Registry

open InlineIndex

theorem isSuppressed_iff : r.isSuppressed index f = true ↔
    (∃ rule ∈ r.rules, rule.covers f = true) ∨
      r.inline = true ∧ ∃ i ∈ index.candidates f, index.covers f i = true := by
  rw [isSuppressed, Bool.not_eq_true', List.isEmpty_eq_false_iff_exists_mem]
  constructor
  · rintro ⟨ref, href⟩
    rcases List.mem_append.mp href with href | href
    · obtain ⟨⟨rule, i⟩, hfound, -⟩ := List.mem_map.mp href
      obtain ⟨hmem, hcovers⟩ := List.mem_filter.mp hfound
      exact .inl ⟨rule, List.fst_mem_of_mem_zipIdx hmem, hcovers⟩
    · split at href
      · next hon =>
        obtain ⟨i, hfound, -⟩ := List.mem_map.mp href
        obtain ⟨hi, hcovers⟩ := List.mem_filter.mp hfound
        exact .inr ⟨hon, i, hi, hcovers⟩
      · cases href
  · rintro (⟨rule, hrule, hcovers⟩ | ⟨hon, i, hi, hcovers⟩)
    · obtain ⟨i, hi⟩ := List.mem_iff_getElem?.mp hrule
      have hmem := List.mk_mem_zipIdx_iff_getElem?.mpr hi
      exact ⟨.declared i, (declared_mem_covering hmem).mpr hcovers⟩
    · refine ⟨.inline i, List.mem_append_right _ ?_⟩
      rw [if_pos hon]
      exact List.mem_map_of_mem (List.mem_filter.mpr ⟨hi, hcovers⟩)

/-- An index of inline rules decides like the rules themselves. With inline rules, a finding is
suppressed exactly if a declared rule covers it, or a rule of the first scan of some file does which
is about a macro or stands in the file of the finding. The index keeps the rules of the first scans,
each under one number that is found either by file or as a rule about a macro. The order in which
scans of different files are added does not show, and without inline rules the index does not. -/
theorem isSuppressed_ofScans (r : Registry) (scans : List (Path × InlineScan)) (f : Finding) :
    let index := ofScans scans
    (r.inline = true → (r.isSuppressed index f = true ↔
      (∃ rule ∈ r.rules, rule.covers f = true) ∨
        ∃ s ∈ counted scans, ∃ rule ∈ s.2.rules, rule.covers f = true ∧
          (isExpansion rule = true ∨ s.1.same f.location.file = true))) ∧
    index.rules = (counted scans).flatMap (·.2.rules) ∧
    (index.byFile.toList.flatMap (·.2) ++ index.expansions).Perm
      (List.range index.rules.length) ∧
    (∀ i rule, index.rules[i]? = some rule → (i ∈ index.expansions ↔ isExpansion rule = true)) ∧
    (∀ scans', (∀ file, scans'.filter (·.1.same file) = scans.filter (·.1.same file)) →
      r.isSuppressed (ofScans scans') f = r.isSuppressed index f) ∧
    (r.inline = false → ∀ index', r.isSuppressed index' f = r.isSuppressed index f) := by
  intro index
  have h : Holds index scans := holds_ofScans scans
  refine ⟨?_, ?_, h.numbers, ?_, ?_, ?_⟩
  · intro hon
    rw [isSuppressed_iff, h.exists_covers_iff]
    simp [hon]
  · rw [h.rules, entries, List.map_flatMap]
    simp [Function.comp_def]
  · intro i rule hrule
    rw [h.getElem?_rules, Option.map_eq_some_iff] at hrule
    obtain ⟨e, he, rfl⟩ := hrule
    simp [h.expansions, mem_numbersFrom_zero, he]
  · intro scans' hfiles
    have hsame : ∀ s, s ∈ counted scans' ↔ s ∈ counted scans := fun s => mem_counted_congr hfiles
    rw [Bool.eq_iff_iff, isSuppressed_iff, isSuppressed_iff, h.exists_covers_iff,
      (holds_ofScans scans').exists_covers_iff]
    simp only [hsame]
  · intro hoff index'
    rw [Bool.eq_iff_iff, isSuppressed_iff, isSuppressed_iff]
    simp [hoff]

end Registry

end MacroSweep.Suppression
