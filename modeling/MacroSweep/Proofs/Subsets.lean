import MacroSweep.Proofs.Combinations
import MacroSweep.Proofs.Ordered

/-! The configurations of a unit against the subsets of its free macros: each subset gives one
configuration, in an order that does not depend on how many are asked for. -/
namespace MacroSweep

namespace ForcedMacros

/-- Whether no macro is both defined and undefined. -/
def Consistent (forced : ForcedMacros) : Prop :=
  ∀ name, forced.undefines.contains name = true → forced.defines.contains name = false

theorem undefines_define (forced : ForcedMacros) (entry : List Char) :
    (forced.define entry).undefines = forced.undefines := by
  unfold define
  dsimp only
  split <;> rfl

theorem Consistent.undefine {forced : ForcedMacros} (h : forced.Consistent) (text : String) :
    (forced.undefine text).Consistent := by
  intro name hname
  unfold ForcedMacros.undefine at hname ⊢
  dsimp only at hname ⊢
  split at hname
  · next hid =>
    rw [SortedSet.contains_insert, Bool.or_eq_true, beq_iff_eq] at hname
    rw [if_pos hid, SortedMap.contains_eq_isSome, SortedMap.find?_erase]
    split
    · rfl
    · next hne =>
      rw [← SortedMap.contains_eq_isSome]
      exact h name (hname.resolve_left hne)
  · next hid =>
    rw [if_neg hid]
    exact h name hname

/-- Undefinitions win, so nothing is left of a definition they undo. -/
theorem consistent_parse (defines undefines : List String) :
    (parse defines undefines).Consistent := by
  have hnone : ((defines.flatMap entries).foldl define {}).undefines = ∅ := by
    apply List.foldlRecOn (motive := fun forced : ForcedMacros => forced.undefines = ∅)
    · rfl
    · intro forced h entry _
      rw [undefines_define, h]
  apply List.foldlRecOn (motive := Consistent)
  · intro name hname
    rw [hnone] at hname
    cases hname
  · intro forced h text _
    exact h.undefine text

end ForcedMacros

namespace Enumeration

section Order

variable {α : Type} {xs : List α} {k : Nat}

/-- All choices, size after size. -/
def allChoices (xs : List α) : List (List α) :=
  (sizes xs.length).flatMap fun k => (xs.sublistsLen k).reverse

theorem allChoices_perm (xs : List α) : (allChoices xs).Perm xs.sublists := by
  have hsizes : (sizes xs.length).Perm (List.range (xs.length + 1)) := by
    rw [List.range_eq_range', List.range'_succ]
    exact (List.reverse_perm _).cons 0
  have hreverse : (allChoices xs).Perm ((sizes xs.length).flatMap fun k => xs.sublistsLen k) :=
    List.Perm.flatMap_left _ fun k _ => List.reverse_perm _
  exact hreverse.trans <| (hsizes.flatMap_right _).trans <|
    (List.range_bind_sublistsLen_perm xs).trans (List.sublists_perm_sublists' xs).symm

variable [Ord α]

/-- The order of choices: none first, then more before fewer, and those of one size by their
elements. -/
def order : List α → List α → Ordering :=
  compareLex (compareOn fun chosen => !chosen.isEmpty)
    (compareLex (fun a b => compareOn List.length b a) compare)

/-- All choices, sorted. -/
def orderedChoices (xs : List α) : List (List α) :=
  xs.sublists.mergeSort fun a b => (order a b).isLE

theorem order_of_length_eq {a b : List α} (h : a.length = b.length) : order a b = compare a b := by
  have hempty : a.isEmpty = b.isEmpty := by
    rw [Bool.eq_iff_iff, List.isEmpty_iff_length_eq_zero, List.isEmpty_iff_length_eq_zero, h]
  simp [order, compareLex, compareOn, hempty, h]

theorem order_of_length_ne {a b : List α} (hb : 0 < b.length)
    (h : a.length = 0 ∨ b.length < a.length) : order a b = .lt := by
  have hempty : ∀ {c : List α}, 0 < c.length → c.isEmpty = false := by
    intro c hc
    rw [List.isEmpty_eq_false_iff]
    exact List.ne_nil_of_length_pos hc
  rcases h with h | h
  · have hlt : compare false true = .lt := rfl
    simp [order, compareLex, compareOn, hempty hb, List.length_eq_zero_iff.mp h, hlt]
  · simp [order, compareLex, compareOn, hempty hb, hempty (Nat.lt_trans hb h),
      Nat.compare_eq_lt.mpr h]

theorem pairwise_sizes (n : Nat) : (sizes n).Pairwise fun k l => 0 < l ∧ (k = 0 ∨ l < k) := by
  refine List.pairwise_cons.mpr ⟨?_, List.pairwise_reverse.mpr ?_⟩
  · intro l hl
    rw [List.mem_reverse, List.mem_range'_1] at hl
    omega
  · refine List.Pairwise.imp_of_mem ?_ (List.pairwise_lt_range' 1)
    intro k l hk _ hkl
    rw [List.mem_range'_1] at hk
    omega

variable [Std.TransOrd α]

/-- Choices of one size from an increasing list come in the order of their elements. -/
theorem pairwise_sublistsLen (h : xs.Pairwise fun a b => compare a b = .lt) (k : Nat) :
    (xs.sublistsLen k).reverse.Pairwise fun a b => compare a b = .lt := by
  induction xs generalizing k with
  | nil => cases k <;> simp
  | cons x xs ih =>
    obtain ⟨hx, hxs⟩ := List.pairwise_cons.mp h
    cases k with
    | zero => simp
    | succ k =>
      rw [Combinations.reverse_sublistsLen_cons]
      refine List.pairwise_append.mpr ⟨List.pairwise_map.mpr ?_, ih hxs (k + 1), ?_⟩
      · refine (ih hxs k).imp ?_
        intro a b hab
        simpa [List.compare_cons_cons] using hab
      · -- A choice without `x` starts with a later element.
        intro a ha b hb
        obtain ⟨a, -, rfl⟩ := List.mem_map.mp ha
        rw [List.mem_reverse, List.mem_sublistsLen] at hb
        obtain ⟨y, b, rfl⟩ := List.exists_cons_of_length_eq_add_one hb.2
        rw [List.compare_cons_cons, hx y (hb.1.subset List.mem_cons_self)]
        rfl

theorem pairwise_allChoices (h : xs.Pairwise fun a b => compare a b = .lt) :
    (allChoices xs).Pairwise fun a b => order a b = .lt := by
  refine List.pairwise_flatMap.mpr ⟨?_, ?_⟩
  · intro k _
    refine (pairwise_sublistsLen h k).imp_of_mem ?_
    intro a b ha hb hlt
    rw [List.mem_reverse, List.mem_sublistsLen] at ha hb
    rw [order_of_length_eq (ha.2.trans hb.2.symm), hlt]
  · refine (pairwise_sizes xs.length).imp ?_
    rintro k l ⟨hl, hkl⟩ a ha b hb
    rw [List.mem_reverse, List.mem_sublistsLen] at ha hb
    exact order_of_length_ne (by omega) (by omega)

instance : Std.TransCmp (order (α := α)) := by
  unfold order
  infer_instance

variable [Std.LawfulEqOrd α]

theorem allChoices_eq_orderedChoices (h : xs.Pairwise fun a b => compare a b = .lt) :
    allChoices xs = orderedChoices xs := by
  have hsorted : (orderedChoices xs).Pairwise fun a b => (order a b).isLE = true := by
    apply List.pairwise_mergeSort
    · intro a b c
      exact Std.TransCmp.isLE_trans
    · intro a b
      have hswap : order b a = (order a b).swap := Std.OrientedCmp.eq_swap
      rw [hswap]
      cases order a b <;> rfl
  refine List.Perm.eq_of_pairwise ?_ ((pairwise_allChoices h).imp Ordering.isLE_of_eq_lt) hsorted
    ((allChoices_perm xs).trans (List.mergeSort_perm _ _).symm)
  intro a b _ _ hab hba
  have heq := Std.OrientedCmp.isLE_antisymm hab hba
  simp only [order, compareLex_eq_eq] at heq
  exact Std.LawfulEqOrd.eq_of_compare heq.2.2

example : orderedChoices ["A", "B", "C"] = [[], ["A", "B", "C"], ["A", "B"], ["A", "C"], ["B", "C"],
    ["A"], ["B"], ["C"]] := by cbv

end Order

variable {e : Enumeration} {conditionals : SortedSet String} {free chosen : List String}
  {name value : String}

theorem pairwise_free (e : Enumeration) (conditionals : SortedSet String) :
    (e.free conditionals).Pairwise fun a b => compare a b = .lt :=
  conditionals.pairwise_toList.filter _

theorem mem_free : name ∈ e.free conditionals ↔ conditionals.contains name = true ∧
    e.forced.defines.contains name = false ∧ e.forced.undefines.contains name = false := by
  simp [free, ForcedMacros.isForced, SortedSet.contains_iff_mem]

theorem sublist_of_mem_orderedChoices (h : chosen ∈ orderedChoices free) : chosen.Sublist free :=
  List.mem_sublists.mp (List.mem_mergeSort.mp h)

theorem length_orderedChoices {α : Type} [Ord α] (xs : List α) :
    (orderedChoices xs).length = 2 ^ xs.length :=
  (List.length_mergeSort _).trans (List.length_sublists xs)

theorem map_sublistsLen {α β : Type} (f : α → β) (k : Nat) (xs : List α) :
    (xs.map f).sublistsLen k = (xs.sublistsLen k).map (List.map f) := by
  induction xs generalizing k with
  | nil => cases k <;> simp
  | cons x xs ih =>
    cases k with
    | zero => simp
    | succ k =>
      simp only [List.map_cons, List.sublistsLen_succ_cons, ih, List.map_append, List.map_map]
      rfl

/-- The names at the choices of indices are the choices of names. -/
theorem map_pick_allOf (free : List String) (count : Nat) :
    (Combinations.allOf free.length count).map (pick free) = (free.sublistsLen count).reverse := by
  have hnames : (List.range free.length).map (fun i => free.getD i "") = free := by
    apply List.ext_getElem
    · simp
    · intro i hi hi'
      simp [hi']
  have hpick : ∀ chosen ∈ Combinations.allOf free.length count,
      pick free chosen = chosen.map fun i => free.getD i "" := by
    intro chosen hchosen
    rw [Combinations.allOf, List.mem_reverse, List.mem_sublistsLen] at hchosen
    rw [pick, ← List.filterMap_eq_map]
    refine List.filterMap_congr fun i hi => ?_
    have hlt := List.mem_range.mp (hchosen.1.subset hi)
    simp [hlt]
  rw [List.map_congr_left hpick, Combinations.allOf, List.map_reverse, ← map_sublistsLen,
    hnames]

theorem configurations_eq_take (e : Enumeration) (conditionals : SortedSet String) :
    e.configurations conditionals =
      ((orderedChoices (e.free conditionals)).take e.bound).map
        (e.configuration (e.free conditionals)) := by
  have hchoices : allChoices (e.free conditionals) =
      ((sizes (e.free conditionals).length).flatMap
        (Combinations.allOf (e.free conditionals).length)).map (pick (e.free conditionals)) := by
    simp only [allChoices, ← map_pick_allOf, List.map_flatMap]
  rw [← allChoices_eq_orderedChoices (pairwise_free e conditionals), hchoices, ← List.map_take,
    List.map_map, configurations, toList_collectSizes]
  rfl

theorem find?_foldl_insert (chosen : List String) (defines : SortedMap String String)
    (name : String) :
    (chosen.foldl (fun defines name => defines.insert name "1") defines).find? name =
      if name ∈ chosen then some "1" else defines.find? name := by
  induction chosen generalizing defines with
  | nil => simp
  | cons first chosen ih =>
    rw [List.foldl_cons, ih, SortedMap.find?_insert]
    by_cases hmem : name ∈ chosen
    · simp [hmem]
    · simp [hmem]

theorem find?_configuration (e : Enumeration) (free chosen : List String) (name : String) :
    (e.configuration free chosen).defines.find? name =
      if name ∈ chosen then some "1" else e.forced.defines.find? name :=
  find?_foldl_insert chosen e.forced.defines name

theorem isDefined_configuration : (e.configuration free chosen).isDefined name = true ↔
    name ∈ chosen ∨ e.forced.defines.contains name = true := by
  rw [Configuration.isDefined, SortedMap.contains_eq_isSome, find?_configuration,
    SortedMap.contains_eq_isSome]
  by_cases hmem : name ∈ chosen
  · simp [hmem]
  · simp [hmem]

theorem contains_undefined_configuration :
    (e.configuration free chosen).undefined.contains name = true ↔
      (name ∈ free ∧ name ∉ chosen) ∨ e.forced.undefines.contains name = true := by
  simp [configuration, SortedSet.contains_insertAll]

theorem ne_of_compare {a b : String} (h : compare a b = .lt) : a ≠ b := by
  rintro rfl
  simp at h

/-- What is chosen shows in the definitions. -/
theorem configuration_injective {chosen' : List String}
    (h : chosen.Sublist (e.free conditionals)) (h' : chosen'.Sublist (e.free conditionals))
    (heq : e.configuration (e.free conditionals) chosen =
      e.configuration (e.free conditionals) chosen') : chosen = chosen' := by
  have hmem : ∀ {a b : List String} {name : String}, a.Sublist (e.free conditionals) →
      e.configuration (e.free conditionals) a = e.configuration (e.free conditionals) b →
      name ∈ a → name ∈ b := by
    intro a b name ha hab hname
    have hdefined : (e.configuration (e.free conditionals) b).isDefined name = true := by
      rw [← hab]
      exact isDefined_configuration.mpr (.inl hname)
    have hopen := (mem_free.mp (ha.subset hname)).2.1
    rcases isDefined_configuration.mp hdefined with hb | hforced
    · exact hb
    · simp [hopen] at hforced
  have hsorted := pairwise_free e conditionals
  have hperm : chosen.Perm chosen' := by
    refine (List.perm_ext_iff_of_nodup ((hsorted.sublist h).imp ne_of_compare)
      ((hsorted.sublist h').imp ne_of_compare)).mpr fun name => ?_
    exact ⟨hmem h heq, hmem h' heq.symm⟩
  refine hperm.eq_of_pairwise ?_ (hsorted.sublist h) (hsorted.sublist h')
  intro a b _ _ hab hba
  rw [Std.OrientedCmp.gt_of_lt hab] at hba
  cases hba

theorem nodup_configurations (e : Enumeration) (conditionals : SortedSet String) :
    (e.configurations conditionals).Nodup := by
  have hfree : (e.free conditionals).Nodup := (pairwise_free e conditionals).imp ne_of_compare
  have hchoices : (orderedChoices (e.free conditionals)).Nodup :=
    (List.mergeSort_perm _ _).nodup_iff.mpr (List.nodup_sublists.mpr hfree)
  rw [configurations_eq_take]
  refine (hchoices.sublist (List.take_sublist _ _)).map_on ?_
  intro chosen h chosen' h'
  exact configuration_injective (sublist_of_mem_orderedChoices (List.mem_of_mem_take h))
    (sublist_of_mem_orderedChoices (List.mem_of_mem_take h'))

/-- A larger bound only appends configurations. -/
theorem configurations_grow {e e' : Enumeration} (hforced : e'.forced = e.forced)
    (hbound : e.bound ≤ e'.bound) (conditionals : SortedSet String) :
    e.configurations conditionals <+: e'.configurations conditionals := by
  have hfree : e'.free conditionals = e.free conditionals := by
    rw [free, free, hforced]
  have hconfiguration : e'.configuration = e.configuration := by
    funext free chosen
    rw [configuration, configuration, hforced]
  rw [configurations_eq_take, configurations_eq_take, hfree, hconfiguration]
  exact (List.take_prefix_take_left hbound).map _

theorem isDefined_iff_not_undefined (h : e.forced.Consistent)
    (hchosen : chosen.Sublist (e.free conditionals)) (hname : conditionals.contains name = true) :
    (e.configuration (e.free conditionals) chosen).isDefined name = true ↔
      (e.configuration (e.free conditionals) chosen).undefined.contains name = false := by
  rw [← Bool.not_eq_true, isDefined_configuration, contains_undefined_configuration, mem_free]
  by_cases hmem : name ∈ chosen
  · have hopen := mem_free.mp (hchosen.subset hmem)
    simp [hmem, hopen]
  · have hone := h name
    cases hd : e.forced.defines.contains name <;> cases hu : e.forced.undefines.contains name <;>
      simp_all

theorem isDefined_eq_false_of_undefines (h : e.forced.Consistent)
    (hchosen : chosen.Sublist (e.free conditionals))
    (hname : e.forced.undefines.contains name = true) :
    (e.configuration (e.free conditionals) chosen).isDefined name = false := by
  rw [← Bool.not_eq_true, isDefined_configuration]
  rintro (hmem | hdefined)
  · have hopen := (mem_free.mp (hchosen.subset hmem)).2.2
    simp [hname] at hopen
  · simp [h name hname] at hdefined

theorem value?_configuration (hchosen : chosen.Sublist (e.free conditionals)) :
    (e.configuration (e.free conditionals) chosen).value? name = some value ↔
      e.forced.defines.find? name = some value ∨ name ∈ chosen ∧ value = "1" := by
  rw [Configuration.value?, find?_configuration]
  by_cases hmem : name ∈ chosen
  · have hopen := (mem_free.mp (hchosen.subset hmem)).2.1
    rw [SortedMap.contains_eq_isSome] at hopen
    have hnone : e.forced.defines.find? name = none := by simpa using hopen
    simp [hmem, hnone, eq_comm]
  · simp [hmem]

/-- A limit holds if it is not zero; without one the bound depends on how much is asked for. -/
theorem bound_eq (e : Enumeration) : e.bound = e.limit?.elim
    (if e.exhaustive then 4096 else if e.forced.defines.toList = [] then 12 else 1) (max · 1) := by
  obtain ⟨forced, exhaustive, limit?⟩ := e
  cases limit? with
  | some n => rfl
  | none =>
    cases exhaustive with
    | true => rfl
    | false =>
      cases hdefines : forced.defines.toList with
      | nil => simp [bound, ForcedMacros.hasDefines, SortedMap.isEmpty, hdefines]
      | cons d ds => simp [bound, ForcedMacros.hasDefines, SortedMap.isEmpty, hdefines]

/-- The configurations of a unit are the first subsets of its free macros, each once and in order.
Each defines what is forced and what is chosen, and leaves no conditional macro open. -/
theorem configurations_eq_subsets (defines undefines : List String) (exhaustive : Bool)
    (limit? : Option Nat) (conditionals : SortedSet String) :
    let e : Enumeration := ⟨.parse defines undefines, exhaustive, limit?⟩
    let free := e.free conditionals
    let most := limit?.elim
      (if exhaustive then 4096 else if e.forced.defines.toList = [] then 12 else 1) (max · 1)
    let count := min most (2 ^ free.length)
    e.configurations conditionals =
        ((orderedChoices free).take count).map (e.configuration free) ∧
      (e.configurations conditionals).length = count ∧
      (e.configurations conditionals).Nodup ∧
      (∀ chosen ∈ (orderedChoices free).take count,
        let c := e.configuration free chosen
        (∀ name value, c.value? name = some value ↔
          e.forced.defines.find? name = some value ∨ name ∈ chosen ∧ value = "1") ∧
        (∀ name, conditionals.contains name = true →
          (c.isDefined name = true ↔ c.undefined.contains name = false)) ∧
        ∀ name, e.forced.undefines.contains name = true → c.isDefined name = false) ∧
      ∀ e' : Enumeration, e'.forced = e.forced → most ≤ e'.bound →
        e.configurations conditionals <+: e'.configurations conditionals := by
  intro e free most count
  have hconsistent : e.forced.Consistent := ForcedMacros.consistent_parse defines undefines
  have hmost : e.bound = most := bound_eq e
  have hcount : count = min e.bound (orderedChoices free).length := by
    rw [length_orderedChoices, hmost]
  have heq : e.configurations conditionals =
      ((orderedChoices free).take count).map (e.configuration free) := by
    rw [configurations_eq_take, hcount, ← List.take_eq_take_min]
  refine ⟨heq, ?_, nodup_configurations e conditionals, ?_, ?_⟩
  · rw [heq, List.length_map, List.length_take, hcount]
    omega
  · intro chosen hmem c
    have hchosen := sublist_of_mem_orderedChoices (List.mem_of_mem_take hmem)
    refine ⟨fun name value => value?_configuration hchosen, ?_, ?_⟩
    · intro name hname
      exact isDefined_iff_not_undefined hconsistent hchosen hname
    · intro name hname
      exact isDefined_eq_false_of_undefines hconsistent hchosen hname
  · intro e' hforced hbound
    exact configurations_grow hforced (hmost.trans_le hbound) conditionals

end Enumeration

end MacroSweep
