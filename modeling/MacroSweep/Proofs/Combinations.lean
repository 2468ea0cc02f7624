import MacroSweep.Configuration.Enumeration
import Mathlib.Algebra.Group.Nat.Defs
import Mathlib.Data.List.Sublists

/-! Every choice comes once and in order. Moving up the last index that has room leads from each
choice to the one after it in lexicographic order, so the choices of a size are all that come before
there is no next one, and what is collected from them are the first ones up to the bound. -/
namespace MacroSweep

namespace Combinations

variable {size count position x : Nat} {xs : List Nat}

section Successor

theorem closeUp_cons (x : Nat) (xs : List Nat) (position : Nat) :
    closeUp (x :: xs) (position + 1) = x :: closeUp xs position := by
  have hshift : ∀ (n start : Nat) (ys : List Nat),
      (List.range' (start + 1 + 1) n).foldl (fun l j => l.set j (l.getD (j - 1) 0 + 1)) (x :: ys) =
        x :: (List.range' (start + 1) n).foldl (fun l j => l.set j (l.getD (j - 1) 0 + 1)) ys := by
    intro n
    induction n with
    | zero => exact fun _ _ => rfl
    | succ n ih =>
      intro start ys
      rw [List.range'_succ, List.range'_succ, List.foldl_cons, List.foldl_cons, ← ih]
      simp
  rw [closeUp, closeUp, List.length_cons, Nat.add_sub_add_right, hshift]

/-- The indices after the first follow it one by one. -/
theorem closeUp_zero (x : Nat) (xs : List Nat) :
    closeUp (x :: xs) 0 = List.range' x (xs.length + 1) := by
  induction xs generalizing x with
  | nil => rfl
  | cons y xs ih =>
    have hfirst : closeUp (x :: y :: xs) 0 = closeUp (x :: (x + 1) :: xs) (0 + 1) := rfl
    rw [hfirst, closeUp_cons, ih]
    rfl

/-- An index before the others moves up when none of these has room. -/
theorem advanceBefore_cons (h : xs.length < size) (x i : Nat) :
    advanceBefore size (x :: xs) (i + 1) =
      match advanceBefore size xs i with
      | some ys => some (x :: ys)
      | none =>
        if x + xs.length + 1 < size then some (List.range' (x + 1) (xs.length + 1)) else none := by
  induction i with
  | zero =>
    have hroom : x < size - (xs.length + 1) ↔ x + xs.length + 1 < size := by omega
    simp only [advanceBefore, List.getD_cons_zero, List.length_cons, Nat.add_zero, hroom,
      List.set_cons_zero, closeUp_zero]
  | succ i ih =>
    have hroom : size - (xs.length + 1) + (i + 1) = size - xs.length + i := by omega
    have hstep : advanceBefore size (x :: xs) (i + 1 + 1) =
        if xs.getD i 0 < size - xs.length + i then
          some (x :: closeUp (xs.set i (xs.getD i 0 + 1)) i)
        else advanceBefore size (x :: xs) (i + 1) := by
      rw [advanceBefore, List.length_cons, hroom, List.getD_cons_succ, List.set_cons_succ,
        closeUp_cons]
    rw [hstep, ih, advanceBefore]
    split <;> rfl

/-- The choice after a choice, index by index: a later index moves up, or else this one. -/
theorem advance_cons (h : xs.length < size) (x : Nat) :
    advance size (x :: xs) =
      match advance size xs with
      | some ys => some (x :: ys)
      | none =>
        if x + xs.length + 1 < size then some (List.range' (x + 1) (xs.length + 1)) else none :=
  advanceBefore_cons h x xs.length

end Successor

section Order

variable {m k : Nat} {a : List Nat} {choices more : List (List Nat)} {next : Option (List Nat)}

/-- Whether each choice of a list leads to the one after it, and the last to `next`. -/
def Leads (size : Nat) (next : Option (List Nat)) : List (List Nat) → Prop
  | [] => True
  | a :: rest => advance size a = rest.head?.or next ∧ Leads size next rest

theorem leads_append : Leads size next (choices ++ more) ↔
    Leads size (more.head?.or next) choices ∧ Leads size next more := by
  induction choices with
  | nil => simp [Leads]
  | cons a rest ih =>
    rw [List.cons_append, Leads, Leads, ih, and_assoc, List.head?_append, Option.or_assoc]

/-- With an index before them, choices lead to one another and in the end to where that index has
moved up. -/
theorem Leads.map_cons (hlength : ∀ a ∈ choices, a.length = k) (hk : k < size)
    (h : Leads size none choices) (x : Nat) :
    Leads size (if x + k + 1 < size then some (List.range' (x + 1) (k + 1)) else none)
      (choices.map (x :: ·)) := by
  induction choices with
  | nil => trivial
  | cons a rest ih =>
    obtain ⟨ha, hrest⟩ := h
    have hlen := hlength a List.mem_cons_self
    refine ⟨?_, ih (fun b hb => hlength b (List.mem_cons_of_mem a hb)) hrest⟩
    rw [advance_cons (by omega), ha, hlen]
    cases rest with
    | nil => rfl
    | cons b rest => rfl

/-- Choices with the first element come before those without it. -/
theorem reverse_sublistsLen_cons {α : Type} (k : Nat) (x : α) (xs : List α) :
    ((x :: xs).sublistsLen (k + 1)).reverse =
      (xs.sublistsLen k).reverse.map (x :: ·) ++ (xs.sublistsLen (k + 1)).reverse := by
  rw [List.sublistsLen_succ_cons, List.reverse_append, List.map_reverse]

/-- The choices of `k` of the last `m` indices, in lexicographic order. -/
def lastChoices (size m k : Nat) : List (List Nat) :=
  ((List.range' (size - m) m).sublistsLen k).reverse

theorem lastChoices_succ (h : m < size) (k : Nat) :
    lastChoices size (m + 1) (k + 1) =
      (lastChoices size m k).map ((size - (m + 1)) :: ·) ++ lastChoices size m (k + 1) := by
  have hnext : size - (m + 1) + 1 = size - m := by omega
  rw [lastChoices, List.range'_succ, hnext, reverse_sublistsLen_cons]
  rfl

theorem length_of_mem_lastChoices (h : a ∈ lastChoices size m k) : a.length = k := by
  rw [lastChoices, List.mem_reverse, List.mem_sublistsLen] at h
  exact h.2

theorem head?_lastChoices (hm : m ≤ size) :
    (lastChoices size m k).head? =
      if k ≤ m then some (List.range' (size - m) k) else none := by
  induction m generalizing k with
  | zero => cases k <;> simp [lastChoices]
  | succ m ih =>
    cases k with
    | zero => simp [lastChoices]
    | succ k =>
      have hnext : size - (m + 1) + 1 = size - m := by omega
      have hcons : List.range' (size - (m + 1)) (k + 1) =
          (size - (m + 1)) :: List.range' (size - m) k := by
        rw [List.range'_succ, hnext]
      rw [lastChoices_succ (by omega), List.head?_append, List.head?_map, ih (by omega),
        ih (by omega), hcons]
      by_cases hk : k ≤ m
      · simp [hk]
      · have hsucc : ¬k + 1 ≤ m := by omega
        simp [hk, hsucc]

/-- From choice to choice, all those of one size are passed. -/
theorem leads_lastChoices (hm : m ≤ size) : Leads size none (lastChoices size m k) := by
  induction m generalizing k with
  | zero => cases k <;> simp [lastChoices, Leads, advance, advanceBefore]
  | succ m ih =>
    cases k with
    | zero => simp [lastChoices, Leads, advance, advanceBefore]
    | succ k =>
      rw [lastChoices_succ (by omega), leads_append]
      refine ⟨?_, ih (by omega)⟩
      rw [head?_lastChoices (by omega), Option.or_none]
      by_cases hk : k < size
      · have hroom : size - (m + 1) + k + 1 < size ↔ k + 1 ≤ m := by omega
        have hnext : size - (m + 1) + 1 = size - m := by omega
        have hlead := (ih (by omega)).map_cons (fun a => length_of_mem_lastChoices) hk
          (size - (m + 1))
        rwa [hnext, if_congr hroom rfl rfl] at hlead
      · have hnone : lastChoices size m k = [] := by
          rw [lastChoices, List.sublistsLen_of_length_lt (by simp; omega), List.reverse_nil]
        rw [hnone]
        trivial

end Order

/-- All choices of a size, in lexicographic order. -/
def allOf (size count : Nat) : List (List Nat) := ((List.range size).sublistsLen count).reverse

theorem allOf_eq_lastChoices (size count : Nat) :
    allOf size count = lastChoices size size count := by
  rw [allOf, lastChoices, Nat.sub_self, List.range_eq_range']

theorem leads_allOf (size count : Nat) : Leads size none (allOf size count) := by
  rw [allOf_eq_lastChoices]
  exact leads_lastChoices (Nat.le_refl size)

/-- The first choice is the first of all. -/
theorem start_eq (size count : Nat) : start size count = ⟨size, (allOf size count).head?⟩ := by
  rw [allOf_eq_lastChoices, head?_lastChoices (Nat.le_refl size), Nat.sub_self, start,
    List.range_eq_range']

/-- A choice is given, and the one after it comes next. -/
theorem next?_of_leads {a : List Nat} {rest : List (List Nat)} (h : Leads size none (a :: rest)) :
    next? ⟨size, (a :: rest).head?⟩ = some (a, ⟨size, rest.head?⟩) := by
  rw [List.head?_cons, next?, Option.map_some, h.1, Option.or_none]

end Combinations

namespace Enumeration

open Combinations

variable {α : Type} {size : Nat}

/-- What is collected are the first choices; if there are more, it breaks off. -/
theorem collect_eq (make : List Nat → α) {choices : List (List Nat)}
    (h : Leads size none choices) (room : Nat) (found : Array α) :
    collect make room ⟨size, choices.head?⟩ found =
      if choices.length ≤ room then .ok (found ++ (choices.map make).toArray)
      else .error (found ++ ((choices.take room).map make).toArray) := by
  induction choices generalizing room found with
  | nil =>
    unfold collect
    simp [next?]
  | cons a rest ih =>
    unfold collect
    rw [next?_of_leads h]
    cases room with
    | zero => simp
    | succ room =>
      simp only [ih h.2, List.length_cons, Nat.add_le_add_iff_right, List.take_succ_cons,
        List.map_cons]
      split <;> simp

/-- Size after size, the first of all choices are collected, as far as there is room. -/
theorem toList_collectSizes (make : List Nat → α) (bound size : Nat) (sizes : List Nat)
    (found : Array α) :
    (collected (collectSizes make bound size sizes found)).toList =
      found.toList ++ ((sizes.flatMap (allOf size)).take (bound - found.size)).map make := by
  induction sizes generalizing found with
  | nil => simp [collectSizes, collected, pure, Except.pure]
  | cons count sizes ih =>
    have hcollect := collect_eq make (leads_allOf size count) (bound - found.size) found
    rw [collectSizes, List.foldlM_cons, start_eq, hcollect, List.flatMap_cons, List.take_append]
    by_cases hle : (allOf size count).length ≤ bound - found.size
    · have hsize : (found ++ ((allOf size count).map make).toArray).size =
          found.size + (allOf size count).length := by simp
      rw [if_pos hle, List.take_of_length_le hle]
      refine (ih _).trans ?_
      rw [hsize, Nat.sub_add_eq]
      simp
    · have hnone : bound - found.size - (allOf size count).length = 0 := by omega
      rw [if_neg hle, hnone]
      simp [bind, Except.bind, collected]

end Enumeration

end MacroSweep
