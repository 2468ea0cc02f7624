import MacroSweep.Ordered.Set
import Mathlib.Data.List.Forall2
import Mathlib.Data.List.Sort

/-! What sorted maps and sets hold after an insertion, and that each is built anew from its own
entries. Lists in strict order are known by their elements. -/
namespace MacroSweep

section StrictOrder

variable {α : Type} {cmp : α → α → Ordering} [Std.TransCmp cmp] {a b : α} {l m : List α}

/-- Lists in strict order with the same elements are the same, element by element. -/
theorem forall₂_of_pairwise_lt (hl : l.Pairwise fun a b => cmp a b = .lt)
    (hm : m.Pairwise fun a b => cmp a b = .lt)
    (h : ∀ a, (∃ b ∈ l, cmp a b = .eq) ↔ ∃ b ∈ m, cmp a b = .eq) :
    List.Forall₂ (fun a b => cmp a b = .eq) l m := by
  induction l generalizing m with
  | nil =>
    cases m with
    | nil => exact .nil
    | cons b m =>
      obtain ⟨c, hc, -⟩ := (h b).mpr ⟨b, List.mem_cons_self, Std.ReflCmp.compare_self⟩
      cases hc
  | cons a l ih =>
    obtain ⟨b, m, rfl⟩ : ∃ b m', m = b :: m' := by
      obtain ⟨c, hc, -⟩ := (h a).mp ⟨a, List.mem_cons_self, Std.ReflCmp.compare_self⟩
      exact List.exists_cons_of_ne_nil (List.ne_nil_of_mem hc)
    obtain ⟨hal, hl⟩ := List.pairwise_cons.mp hl
    obtain ⟨hbm, hm⟩ := List.pairwise_cons.mp hm
    -- The first elements are the least of their lists, so neither is above the other.
    have hab : cmp a b = .eq := by
      obtain ⟨c, hc, hac⟩ := (h a).mp ⟨a, List.mem_cons_self, Std.ReflCmp.compare_self⟩
      rcases List.mem_cons.mp hc with rfl | hc
      · exact hac
      · have hba := Std.TransCmp.lt_of_lt_of_eq (hbm c hc) (Std.OrientedCmp.eq_symm hac)
        obtain ⟨d, hd, hbd⟩ := (h b).mpr ⟨b, List.mem_cons_self, Std.ReflCmp.compare_self⟩
        rcases List.mem_cons.mp hd with rfl | hd
        · exact Std.OrientedCmp.eq_symm hbd
        · have hlt := Std.TransCmp.lt_of_lt_of_eq (hal d hd) (Std.OrientedCmp.eq_symm hbd)
          exact absurd hlt (Std.OrientedCmp.not_lt_of_lt hba)
    refine .cons hab (ih hl hm fun c => ?_)
    have hnl : cmp c a = .eq → ¬∃ d ∈ l, cmp c d = .eq := by
      rintro hca ⟨d, hd, hcd⟩
      rw [Std.TransCmp.congr_left hca, hal d hd] at hcd
      cases hcd
    have hnm : cmp c b = .eq → ¬∃ d ∈ m, cmp c d = .eq := by
      rintro hcb ⟨d, hd, hcd⟩
      rw [Std.TransCmp.congr_left hcb, hbm d hd] at hcd
      cases hcd
    have hsame : cmp c a = cmp c b := Std.TransCmp.congr_right hab
    have hc := h c
    simp only [List.exists_mem_cons_iff] at hc
    rw [hsame] at hc hnl
    constructor
    · intro hd
      rcases hc.mp (.inr hd) with hcb | hd'
      · exact absurd hd (hnl hcb)
      · exact hd'
    · intro hd
      rcases hc.mpr (.inr hd) with hcb | hd'
      · exact absurd hd (hnm hcb)
      · exact hd'

theorem eq_of_pairwise_lt (hl : l.Pairwise fun a b => cmp a b = .lt)
    (hm : m.Pairwise fun a b => cmp a b = .lt) (h : ∀ a, a ∈ l ↔ a ∈ m) : l = m := by
  have : Std.Irrefl fun a b => cmp a b = .lt :=
    ⟨fun a hlt => nomatch (Std.ReflCmp.compare_self (a := a)).symm.trans hlt⟩
  have : Std.Antisymm fun a b => cmp a b = .lt :=
    ⟨fun a b hlt hgt => absurd hgt (Std.OrientedCmp.not_lt_of_lt hlt)⟩
  exact hl.eq_of_mem_iff hm h

/-- A list in strict order has no element twice. -/
theorem countP_le_one_of_pairwise_lt (hl : l.Pairwise fun a b => cmp a b = .lt) (a : α) :
    l.countP (cmp a · == .eq) ≤ 1 := by
  induction l with
  | nil => simp
  | cons b l ih =>
    obtain ⟨hbl, hl⟩ := List.pairwise_cons.mp hl
    by_cases hab : cmp a b = .eq
    · have hnone : l.countP (cmp a · == .eq) = 0 := by
        rw [List.countP_eq_zero]
        intro c hc
        simp [Std.TransCmp.lt_of_eq_of_lt hab (hbl c hc)]
      simp [hnone, hab]
    · simpa [List.countP_cons, hab] using ih hl

end StrictOrder

namespace SortedMap

variable {α β : Type} [Ord α] {k : α} {v : β} {l : List (α × β)} {e : α × β} {m n : SortedMap α β}

theorem ext_toList (h : m.toList = n.toList) : m = n := by
  cases m
  cases n
  cases h
  rfl

variable [Std.TransOrd α]

/-- An entry after an insertion is an old one, or has the new value and a spelling of the new
key. -/
theorem eq_or_mem_of_mem_put (h : e ∈ put k v l) :
    (compare k e.1 = .eq ∧ e.2 = v) ∨ e ∈ l := by
  induction l with
  | nil =>
    rw [put, List.mem_singleton] at h
    exact .inl (by simp [h])
  | cons d rest ih =>
    unfold put at h
    split at h
    · rcases List.mem_cons.mp h with rfl | h
      · exact .inl (by simp)
      · exact .inr h
    · next heq =>
      rcases List.mem_cons.mp h with rfl | h
      · exact .inl ⟨heq, rfl⟩
      · exact .inr (List.mem_cons_of_mem _ h)
    · rcases List.mem_cons.mp h with rfl | h
      · exact .inr (by simp)
      · rcases ih h with h | h
        · exact .inl h
        · exact .inr (List.mem_cons_of_mem _ h)

theorem find?_put (k k' : α) (v : β) (l : List (α × β)) :
    ((put k v l).find? fun e => compare k' e.1 == .eq).map (·.2) =
      if compare k' k = .eq then some v
      else (l.find? fun e => compare k' e.1 == .eq).map (·.2) := by
  induction l with
  | nil => by_cases hk : compare k' k = .eq <;> simp [put, hk]
  | cons d rest ih =>
    unfold put
    split
    · by_cases hk : compare k' k = .eq <;> simp [hk]
    · next heq =>
      have hd : compare k' d.1 = compare k' k := (Std.TransCmp.congr_right heq).symm
      by_cases hk : compare k' k = .eq <;> simp [hk, hd]
    · next hgt =>
      by_cases hd : compare k' d.1 = .eq
      · have hk : compare k' k ≠ .eq := by
          intro hk
          rw [Std.TransCmp.congr_left hk, hgt] at hd
          cases hd
        simp [hd, hk]
      · have hb : (compare k' d.1 == .eq) = false := by simpa using hd
        simp only [List.find?_cons, hb]
        exact ih

theorem find?_insert (m : SortedMap α β) (k k' : α) (v : β) :
    (m.insert k v).find? k' = if compare k' k = .eq then some v else m.find? k' :=
  find?_put k k' v m.toList

theorem find?_erase (m : SortedMap α β) (k k' : α) :
    (m.erase k).find? k' = if compare k' k = .eq then none else m.find? k' := by
  simp only [find?, erase, List.find?_filter]
  split
  · next hk =>
    have hnone : ∀ e ∈ m.toList, ¬(compare k e.1 != .eq ∧ compare k' e.1 == .eq) := by
      intro e _
      simp [Std.TransCmp.congr_left hk]
    simpa using hnone
  · next hk =>
    have hsame : ∀ e : α × β, compare k' e.1 = .eq → compare k e.1 ≠ .eq := by
      intro e hk' he
      exact hk (Std.TransCmp.eq_trans hk' (Std.OrientedCmp.eq_symm he))
    congr 2
    funext e
    by_cases hk' : compare k' e.1 = .eq
    · simp [hk', hsame e hk']
    · simp [hk']

omit [Std.TransOrd α] in
theorem contains_eq_isSome (m : SortedMap α β) (k : α) : m.contains k = (m.find? k).isSome := by
  rw [Bool.eq_iff_iff]
  simp [contains, find?]

/-- A key above all others goes to the end. -/
theorem put_eq_append (h : ∀ e ∈ l, compare e.1 k = .lt) : put k v l = l ++ [(k, v)] := by
  induction l with
  | nil => rfl
  | cons d rest ih =>
    have hd : compare k d.1 = .gt := Std.OrientedCmp.gt_of_lt (h d (by simp))
    simp only [put, hd]
    rw [ih fun e he => h e (List.mem_cons_of_mem _ he), List.cons_append]

omit [Std.TransOrd α] in
/-- A new key is added to the entries that are there. -/
theorem put_perm (h : ∀ e ∈ l, compare k e.1 ≠ .eq) : (put k v l).Perm ((k, v) :: l) := by
  induction l with
  | nil => exact .refl _
  | cons d rest ih =>
    unfold put
    split
    · exact .refl _
    · next heq => exact absurd heq (h d List.mem_cons_self)
    · exact ((ih fun e he => h e (List.mem_cons_of_mem _ he)).cons d).trans (.swap ..)

theorem toList_foldl_insert (h : Increasing (m.toList ++ l)) :
    (l.foldl (fun m e => m.insert e.1 e.2) m).toList = m.toList ++ l := by
  induction l generalizing m with
  | nil => simp
  | cons e rest ih =>
    have hput : (m.insert e.1 e.2).toList = m.toList ++ [e] := by
      apply put_eq_append
      intro d hd
      exact (List.pairwise_append.mp h).2.2 d hd e (by simp)
    rw [List.foldl_cons, ih (by simpa [hput] using h), hput]
    simp

/-- At most one entry has a key, so a test of the entries with a key is a test of its value. -/
theorem any_toList (m : SortedMap α β) (k : α) (p : β → Bool) :
    (m.toList.any fun e => compare k e.1 == .eq && p e.2) = (m.find? k).any p := by
  obtain ⟨l, hl⟩ := m
  simp only [find?]
  induction l with
  | nil => rfl
  | cons d rest ih =>
    by_cases hd : compare k d.1 = .eq
    · have hrest : (rest.any fun e => compare k e.1 == .eq && p e.2) = false := by
        rw [List.any_eq_false]
        intro e he
        have hlt : compare d.1 e.1 = .lt := List.rel_of_pairwise_cons hl he
        simp [Std.TransCmp.lt_of_eq_of_lt hd hlt]
      simp [hd, hrest]
    · have hb : (compare k d.1 == .eq) = false := by simpa using hd
      simp only [List.any_cons, List.find?_cons, hb, Bool.false_and, Bool.false_or]
      exact ih (List.Pairwise.of_cons hl)

theorem mem_toList_iff [Std.LawfulEqOrd α] : e ∈ m.toList ↔ m.find? e.1 = some e.2 := by
  classical
  constructor
  · intro h
    have hany := any_toList m e.1 (· = e.2)
    rw [List.any_eq_true.mpr ⟨e, h, by simp⟩] at hany
    cases hfind : m.find? e.1 with
    | none => simp [hfind] at hany
    | some v => simpa [hfind] using hany
  · intro h
    obtain ⟨d, hd, hv⟩ := Option.map_eq_some_iff.mp h
    have hk : e.1 = d.1 := by simpa using List.find?_some hd
    have he : e = d := Prod.ext hk hv.symm
    exact he ▸ List.mem_of_find?_eq_some hd

/-- A map is built anew from its entries. -/
theorem ofList_toList (m : SortedMap α β) : ofList m.toList = m := by
  apply ext_toList
  have h : Increasing ((empty : SortedMap α β).toList ++ m.toList) := by
    simpa [empty] using m.increasing
  simpa [empty, ofList] using toList_foldl_insert h

/-- Values may be rewritten before they are put into a map. -/
theorem ofList_map {γ : Type} (f : β → γ) (entries : List (α × β)) :
    ofList (entries.map (Prod.map id f)) = (ofList entries).mapWithKey fun _ => f := by
  have hput : ∀ (k : α) (v : β) l,
      put k (f v) (l.map (Prod.map id f)) = (put k v l).map (Prod.map id f) := by
    intro k v l
    induction l with
    | nil => rfl
    | cons e l ih =>
      rw [List.map_cons, put, put, Prod.map_fst, id]
      cases compare k e.1 with
      | lt | eq => rfl
      | gt => exact congrArg _ ih
  have hinsert : ∀ (m : SortedMap α β) (e : α × β),
      (m.mapWithKey fun _ => f).insert e.1 (f e.2) = (m.insert e.1 e.2).mapWithKey fun _ => f :=
    fun m e => ext_toList (hput e.1 e.2 m.toList)
  have general : ∀ m : SortedMap α β,
      (entries.map (Prod.map id f)).foldl (fun m e => m.insert e.1 e.2) (m.mapWithKey fun _ => f) =
        (entries.foldl (fun m e => m.insert e.1 e.2) m).mapWithKey fun _ => f := by
    induction entries with
    | nil => exact fun _ => rfl
    | cons e entries ih =>
      intro m
      rw [List.map_cons, List.foldl_cons, List.foldl_cons, ← ih, ← hinsert]
      rfl
  exact general empty

theorem contains_ofList (entries : List (α × β)) (k : α) :
    (ofList entries).contains k = entries.any fun e => compare k e.1 == .eq := by
  have general : ∀ m : SortedMap α β,
      (entries.foldl (fun m e => m.insert e.1 e.2) m).contains k =
        (m.contains k || entries.any fun e => compare k e.1 == .eq) := by
    induction entries with
    | nil => simp
    | cons e entries ih =>
      intro m
      rw [List.foldl_cons, ih, contains_eq_isSome (m.insert e.1 e.2), find?_insert,
        contains_eq_isSome, List.any_cons]
      by_cases h : compare k e.1 = .eq
      · simp [h]
      · simp [h, beq_eq_false_iff_ne.mpr h]
  exact general empty

end SortedMap

namespace SortedSet

variable {α : Type} [Ord α] {a b : α} {s t : SortedSet α} {as : List α}

theorem mem_of_mem_erase (h : a ∈ (s.erase b).toList) : a ∈ s.toList := by
  obtain ⟨e, he, rfl⟩ := List.mem_map.mp h
  exact List.mem_map_of_mem ((List.mem_filter.mp he).1)

theorem mem_of_mem_diff (h : a ∈ (s.diff t).toList) : a ∈ s.toList := by
  unfold diff at h
  generalize t.toList = l at h
  induction l generalizing s with
  | nil => exact h
  | cons b l ih => exact mem_of_mem_erase (ih h)

variable [Std.TransOrd α]

theorem eq_or_mem_of_mem_insert (h : a ∈ (s.insert b).toList) : a = b ∨ a ∈ s.toList := by
  obtain ⟨e, he, rfl⟩ := List.mem_map.mp h
  rcases SortedMap.mem_put he with he | ⟨d, hd, he⟩
  · exact .inl he
  · exact .inr (he ▸ List.mem_map_of_mem hd)

theorem mem_or_mem_of_mem_insertAll (h : a ∈ (s.insertAll as).toList) : a ∈ as ∨ a ∈ s.toList := by
  induction as generalizing s with
  | nil => exact .inr h
  | cons b as ih =>
    rcases ih h with h | h
    · exact .inl (List.mem_cons_of_mem _ h)
    · rcases eq_or_mem_of_mem_insert h with rfl | h
      · exact .inl (by simp)
      · exact .inr h

theorem contains_insert (s : SortedSet α) (a b : α) :
    (s.insert a).contains b = (compare b a == .eq || s.contains b) := by
  simp only [contains, insert, SortedMap.contains_eq_isSome, SortedMap.find?_insert]
  by_cases h : compare b a = .eq <;> simp [h]

omit [Std.TransOrd α] in
theorem contains_eq_any (s : SortedSet α) (a : α) :
    s.contains a = s.toList.any fun b => compare a b == .eq := by
  simp [contains, SortedMap.contains, toList, SortedMap.keys, Function.comp_def]

theorem contains_insertAll_eq (s : SortedSet α) (as : List α) (a : α) :
    (s.insertAll as).contains a = ((as.any fun b => compare a b == .eq) || s.contains a) := by
  induction as generalizing s with
  | nil => rfl
  | cons b as ih =>
    refine (ih (s.insert b)).trans ?_
    rw [contains_insert, List.any_cons, ← Bool.or_assoc, Bool.or_comm (as.any _)]

theorem contains_erase (s : SortedSet α) (a b : α) :
    (s.erase a).contains b = (s.contains b && compare b a != .eq) := by
  simp only [contains, erase, SortedMap.contains_eq_isSome, SortedMap.find?_erase]
  by_cases h : compare b a = .eq <;> simp [h]

theorem contains_diff (s t : SortedSet α) (a : α) :
    (s.diff t).contains a = (s.contains a && !t.contains a) := by
  rw [diff, contains_eq_any t]
  generalize t.toList = l
  induction l generalizing s with
  | nil => simp
  | cons b l ih =>
    rw [List.foldl_cons, ih, contains_erase, List.any_cons, Bool.not_or, Bool.and_assoc]
    rfl

/-- A set is built anew from its elements. -/
theorem ofList_toList (s : SortedSet α) : ofList s.toList = s := by
  have general : ∀ (l : List (α × Unit)) (t : SortedSet α),
      ((l.map (·.1)).foldl insert t).map = l.foldl (fun m e => m.insert e.1 e.2) t.map := by
    intro l
    induction l with
    | nil => exact fun t => rfl
    | cons e rest ih => exact fun t => ih (t.insert e.1)
  have h : (ofList s.toList).map = s.map :=
    (general s.map.toList empty).trans (SortedMap.ofList_toList s.map)
  exact congrArg SortedSet.mk h

theorem ext_toList (h : s.toList = t.toList) : s = t := by
  rw [← ofList_toList s, h, ofList_toList]

omit [Std.TransOrd α] in
theorem pairwise_toList (s : SortedSet α) : s.toList.Pairwise fun a b => compare a b = .lt :=
  List.pairwise_map.mpr s.map.increasing

variable [Std.LawfulEqOrd α]

omit [Std.TransOrd α] in
theorem contains_iff_mem (s : SortedSet α) : s.contains a = true ↔ a ∈ s.toList := by
  simp only [contains, SortedMap.contains, toList, SortedMap.keys, List.any_eq_true, beq_iff_eq,
    Std.LawfulEqOrd.compare_eq_iff_eq, List.mem_map, eq_comm (a := a)]

theorem contains_insertAll :
    (s.insertAll as).contains a = true ↔ a ∈ as ∨ s.contains a = true := by
  simp [contains_insertAll_eq]

end SortedSet

end MacroSweep
