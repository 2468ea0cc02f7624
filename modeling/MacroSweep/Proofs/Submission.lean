import MacroSweep.Checker.Directives
import MacroSweep.Proofs.Facts
import Mathlib.Data.Fintype.Basic
import Mathlib.Data.Finset.Card
import Mathlib.Data.Multiset.Basic
import Mathlib.Logic.Relation

/-! Units tell their facts in whatever order they come to it, each after it has joined the facts of
its passes in whatever order. What the program is told, and what is concluded from it, is the
same. -/
namespace MacroSweep

theorem Checker.conclude_directives (facts : Program.Facts) :
    directives.conclude facts = facts.unusedMacros := rfl

namespace Program

variable {ι : Type}

/-- Units on the way to telling their facts. A unit that has told them holds none. -/
structure Stage (ι : Type) where
  held : ι → Option (Multiset Facts)
  tally : Tally

namespace Stage

/-- Each unit holds the facts of its passes and the empty facts it starts with. -/
def start (passes : ι → Multiset Facts) (expected : Nat) : Stage ι where
  held i := some ({} ::ₘ passes i)
  tally := { expected }

variable [DecidableEq ι]

/-- A unit joins two of the facts it holds, or tells the only ones it holds. -/
inductive Step : Stage ι → Stage ι → Prop
  | join {s : Stage ι} (i : ι) (f g : Facts) (rest : Multiset Facts)
      (h : s.held i = some (f ::ₘ g ::ₘ rest)) :
      Step s { s with held := Function.update s.held i (some (f.merge g ::ₘ rest)) }
  | submit {s : Stage ι} (i : ι) (f : Facts) (h : s.held i = some {f}) :
      Step s { held := Function.update s.held i none, tally := s.tally.submit f }

variable [Fintype ι]

/-- The units that have told their facts. -/
def told (s : Stage ι) : Finset ι :=
  Finset.univ.filter fun i => (s.held i).isNone = true

omit [DecidableEq ι] in
theorem mem_told {s : Stage ι} {i : ι} : i ∈ s.told ↔ s.held i = none := by
  simp [told]

/-- The passes of some units tell something. -/
def Tells (passes : ι → Multiset Facts) (units : Finset ι) (o : Observation) : Prop :=
  ∃ i ∈ units, ∃ f ∈ passes i, f.tells o = true

/-- What holds at each stage: no unit has lost what its passes tell, and the tally has the facts of
those that have told them. -/
structure Sound (passes : ι → Multiset Facts) (expected : Nat) (s : Stage ι) : Prop where
  held : ∀ i fs, s.held i = some fs →
    ∀ o, (∃ f ∈ fs, f.tells o = true) ↔ ∃ f ∈ passes i, f.tells o = true
  expected : s.tally.expected = expected
  submitted : s.tally.submitted = s.told.card
  facts : ∀ o, s.tally.facts.tells o = true ↔ Tells passes s.told o

variable {passes : ι → Multiset Facts} {k : Nat} {s s' : Stage ι}

omit [DecidableEq ι] in
theorem sound_start : Sound passes k (start passes k) where
  held i fs hfs o := by
    obtain rfl : {} ::ₘ passes i = fs := Option.some.inj hfs
    simp [Facts.tells_empty]
  expected := rfl
  submitted := by simp [start, told]
  facts o := by
    have hnone : (start passes k).told = ∅ := by simp [start, told]
    have hempty : (start passes k).tally.facts.tells o = false := Facts.tells_empty o
    simp [Tells, hnone, hempty]

theorem Sound.step (hs : Sound passes k s) (h : Step s s') : Sound passes k s' := by
  cases h with
  | join i f g rest hi =>
    have htold : told { s with held := Function.update s.held i (some (f.merge g ::ₘ rest)) } =
        s.told := by
      ext j
      by_cases hj : j = i
      · subst hj
        simp [mem_told, hi]
      · simp [mem_told, hj]
    refine ⟨fun j fs hfs o => ?_, hs.expected, htold ▸ hs.submitted, htold ▸ hs.facts⟩
    by_cases hj : j = i
    · subst hj
      obtain rfl : f.merge g ::ₘ rest = fs := by simpa using hfs
      rw [← hs.held j _ hi o]
      simp [Facts.tells_merge, or_assoc]
    · exact hs.held j fs (by simpa [hj] using hfs) o
  | submit i f hi =>
    have htold : told { held := Function.update s.held i none, tally := s.tally.submit f } =
        insert i s.told := by
      ext j
      by_cases hj : j = i
      · subst hj
        simp [mem_told]
      · simp [mem_told, hj]
    have hnew : i ∉ s.told := by simp [mem_told, hi]
    refine ⟨fun j fs hfs o => ?_, hs.expected, ?_, fun o => ?_⟩
    · by_cases hj : j = i
      · subst hj
        simp at hfs
      · exact hs.held j fs (by simpa [hj] using hfs) o
    · rw [htold, Finset.card_insert_of_notMem hnew]
      exact congrArg (· + 1) hs.submitted
    · rw [htold]
      simp only [Tally.submit, Facts.tells_merge, Bool.or_eq_true, hs.facts, Tells,
        Finset.exists_mem_insert]
      rw [← hs.held i _ hi o, or_comm]
      simp

theorem sound_of_run (h : Relation.ReflTransGen Step (start passes k) s) : Sound passes k s := by
  induction h with
  | refl => exact sound_start
  | tail _ hstep ih => exact ih.step hstep

omit [DecidableEq ι] in
theorem Sound.close_eq_ok_iff (hs : Sound passes k s) (facts : Facts) :
    s.tally.close = .ok facts ↔ s.told.card = k ∧ s.tally.facts = facts := by
  unfold Tally.close
  rw [hs.submitted, hs.expected]
  split <;> simp_all

/-- However units join and tell their facts, these are complete once as many units as expected have
told them. They are then the union of what the passes tell, and from them one finding is concluded
for each place of a symbol that no pass uses, in the same order however it came about. -/
theorem conclude_of_run (h : Relation.ReflTransGen Step (start passes k) s) :
    ((∃ facts, s.tally.close = .ok facts) ↔ s.told.card = k) ∧
    ∀ facts, s.tally.close = .ok facts →
      (∀ o, facts.tells o = true ↔ Tells passes s.told o) ∧
      (∀ f ∈ Checker.directives.conclude facts,
        ∃ name place, f = Facts.unusedMacro name place) ∧
      (∀ name place, (Checker.directives.conclude facts).countP
          ((Facts.unusedMacro name place).Alike ·) ≤ 1) ∧
      (∀ name place, (Checker.directives.conclude facts).countP
          ((Facts.unusedMacro name place).Alike ·) = 1 ↔
        Tells passes s.told (.site name place) ∧ ¬Tells passes s.told (.use name)) ∧
      ∀ s', Relation.ReflTransGen Step (start passes k) s' → s'.told = s.told →
        ∃ facts', s'.tally.close = .ok facts' ∧
          List.Forall₂ Finding.Alike (Checker.directives.conclude facts)
            (Checker.directives.conclude facts') := by
  simp only [Checker.conclude_directives]
  have hs := sound_of_run h
  refine ⟨by simp [hs.close_eq_ok_iff], fun facts hclose => ?_⟩
  obtain ⟨hcard, rfl⟩ := (hs.close_eq_ok_iff facts).mp hclose
  refine ⟨hs.facts, fun f hf => ?_, fun name place => ?_, fun name place => ?_, ?_⟩
  · rw [Facts.unusedMacros_eq_map] at hf
    obtain ⟨e, -, rfl⟩ := List.mem_map.mp hf
    exact ⟨e.1, e.2, rfl⟩
  · rw [Facts.countP_alike_unusedMacros]
    split <;> simp
  · rw [Facts.countP_alike_unusedMacros, ← hs.facts, ← hs.facts,
      Bool.not_eq_true]
    split <;> simp_all
  · intro s' h' htold
    have hs' := sound_of_run h'
    refine ⟨_, (hs'.close_eq_ok_iff _).mpr ⟨htold ▸ hcard, rfl⟩, ?_⟩
    refine Facts.forall₂_alike_unusedMacros fun o => ?_
    rw [Bool.eq_iff_iff, hs.facts, hs'.facts, htold]

/-- Two units define one macro at one place, which they spell in two ways. One of them also uses the
macro that the other defines. -/
theorem conclude_of_run_two_units :
    let a : Facts := ({} : Facts).define "A" ⟨⟨"x//h.h"⟩, 1, 1⟩
    let useB : Facts := ({} : Facts).reference "B"
    let b : Facts := (({} : Facts).define "A" ⟨⟨"x/h.h"⟩, 1, 1⟩).define "B" ⟨⟨"b.c"⟩, 2, 1⟩
    ∃ s : Stage Bool,
      Relation.ReflTransGen Step (start (fun i => bif i then {a, useB} else {b}) 2) s ∧
      ∃ facts, s.tally.close = .ok facts ∧
        (Checker.directives.conclude facts).countP
          ((Facts.unusedMacro "A" ⟨⟨"x/h.h"⟩, 1, 1⟩).Alike ·) = 1 ∧
        (Checker.directives.conclude facts).countP
          ((Facts.unusedMacro "B" ⟨⟨"b.c"⟩, 2, 1⟩).Alike ·) ≠ 1 := by
  intro a useB b
  obtain ⟨s, h, htold⟩ : ∃ s : Stage Bool,
      Relation.ReflTransGen Step (start (fun i => bif i then {a, useB} else {b}) 2) s ∧
        s.told = Finset.univ :=
    ⟨_, Relation.ReflTransGen.refl
      |>.tail (.join true useB a {{}} (by decide))
      |>.tail (.join false {} b 0 rfl)
      |>.tail (.submit false _ rfl)
      |>.tail (.join true _ {} 0 rfl)
      |>.tail (.submit true _ rfl), by decide⟩
  obtain ⟨hclose, hfacts⟩ := conclude_of_run h
  obtain ⟨facts, hok⟩ := hclose.mpr (by simp [htold])
  obtain ⟨-, -, -, hone, -⟩ := hfacts facts hok
  refine ⟨s, h, facts, hok, (hone _ _).mpr ⟨?_, ?_⟩, fun hB => ((hone _ _).mp hB).2 ?_⟩
  · exact ⟨false, by simp [htold], b, by decide, by decide⟩
  · have hA : ∀ i, ∀ f ∈ (bif i then {a, useB} else {b} : Multiset Facts),
        f.tells (.use "A") ≠ true := by decide
    rintro ⟨i, -, f, hf, htells⟩
    exact hA i f hf htells
  · exact ⟨true, by simp [htold], useB, by decide, by decide⟩

end Stage

end Program

end MacroSweep
