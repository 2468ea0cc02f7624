import MacroSweep.Proofs.Path
import MacroSweep.Proofs.ReportOrder

/-! Leaving out repeated findings. Of the findings that report the same the first stays. So it makes
no difference whether repeated findings are left out at once or first unit by unit. -/
namespace MacroSweep

namespace Finding

variable {f g : Finding} {fs : List Finding}

/-- What a finding reports: its identifier, the place, with the file known by its components, and
the message. -/
def identity (f : Finding) : String × (List Component × Nat × Nat) × String :=
  (f.id, (f.location.file.components, f.location.line, f.location.column), f.message)

/-- Places are compared part by part, and files by their components. -/
theorem compare_location_eq_iff {l m : Location} : compare l m = .eq ↔
    l.file.components = m.file.components ∧ l.line = m.line ∧ l.column = m.column := by
  have hcompare : compare l m = (compare l.file m.file).then
      ((compare l.line m.line).then (compare l.column m.column)) := rfl
  have hfile : compare l.file m.file = .eq ↔ l.file.components = m.file.components := by
    rw [← Path.same_iff, Path.same, beq_iff_eq]
  simp only [hcompare, Ordering.then_eq_eq, hfile, Nat.compare_eq_eq]

theorem sameAs_iff : f.sameAs g = true ↔ f.identity = g.identity := by
  simp only [sameAs, identity, Bool.and_eq_true, beq_iff_eq, compare_location_eq_iff,
    Prod.mk.injEq]
  tauto

theorem dedup_sublist (fs : List Finding) : (dedup fs).Sublist fs := by
  induction fs with
  | nil => exact .slnil
  | cons f fs ih => exact .cons_cons f (List.filter_sublist.trans ih)

/-- The first finding with an identity is the first one still. -/
theorem find?_dedup (fs : List Finding) (k : String × (List Component × Nat × Nat) × String) :
    (dedup fs).find? (·.identity = k) = fs.find? (·.identity = k) := by
  induction fs with
  | nil => rfl
  | cons f fs ih =>
    by_cases hf : f.identity = k
    · simp [dedup, hf]
    · rw [dedup, List.find?_cons_of_neg (by simpa using hf),
        List.find?_cons_of_neg (by simpa using hf), List.find?_filter, ← ih]
      -- A finding that is left out for `f` has the identity of `f`, which is not looked for.
      congr 1
      funext g
      have hother : g.identity = k → f.sameAs g = false := by
        rintro rfl
        rw [Bool.eq_false_iff, ne_eq, sameAs_iff]
        exact hf
      by_cases hg : g.identity = k
      · simp [hg, hother hg]
      · simp [hg]

/-- Findings that all report something else stay as they are. -/
theorem dedup_of_pairwise (h : fs.Pairwise fun f g => ¬f.sameAs g = true) : dedup fs = fs := by
  induction fs with
  | nil => rfl
  | cons f fs ih =>
    obtain ⟨hf, hfs⟩ := List.pairwise_cons.mp h
    rw [dedup, ih hfs, List.filter_eq_self.mpr]
    intro g hg
    simpa using hf g hg

theorem dedup_dedup (fs : List Finding) : dedup (dedup fs) = dedup fs :=
  dedup_of_pairwise (pairwise_dedup fs)

/-- Of the later findings those stay that report the same as no earlier one. -/
theorem dedup_append (fs gs : List Finding) :
    dedup (fs ++ gs) = dedup fs ++ (dedup gs).filter fun g => !fs.any (·.sameAs g) := by
  induction fs with
  | nil => simp [dedup]
  | cons f fs ih =>
    rw [List.cons_append, dedup, ih, dedup, List.filter_append, List.filter_filter,
      List.cons_append]
    simp only [List.any_cons, Bool.not_or]

theorem any_sameAs_eq (fs : List Finding) (g : Finding) :
    fs.any (·.sameAs g) = (fs.find? (·.identity = g.identity)).isSome := by
  rw [Bool.eq_iff_iff]
  simp [sameAs_iff, List.find?_isSome]

theorem dedup_dedup_append (fs gs : List Finding) : dedup (dedup fs ++ gs) = dedup (fs ++ gs) := by
  rw [dedup_append, dedup_append, dedup_dedup]
  simp only [any_sameAs_eq, find?_dedup]

/-- Lists may be freed of repeated findings before they are put together. -/
theorem dedup_flatMap_append (lists : List (List Finding)) (gs : List Finding) :
    dedup (lists.flatMap dedup ++ gs) = dedup (lists.flatten ++ gs) := by
  induction lists with
  | nil => rfl
  | cons fs lists ih =>
    rw [List.flatMap_cons, List.flatten_cons, List.append_assoc, List.append_assoc,
      dedup_dedup_append, dedup_append, ih, ← dedup_append]

end Finding

namespace Run

open Suppression

/-- Leaving out repeated findings list by list and then once more gives what leaving them out at
once gives. No finding changes, no two that stay report the same, a second time leaves out nothing,
and of all findings with an identity the first stays. So the findings of a run are, at whatever
stage its workers are, those that stay of all that they have found. -/
theorem dedup_two_levels_eq_flat (lists : List (List Finding)) (fs : List Finding) (plan : Plan)
    (s : Stage) (facts : Program.Facts) (index : InlineIndex) :
    Finding.dedup (lists.flatMap Finding.dedup) = Finding.dedup lists.flatten ∧
    Finding.dedup (Finding.dedup fs) = Finding.dedup fs ∧
    (Finding.dedup fs).Sublist fs ∧
    ((Finding.dedup fs).Pairwise fun f g => f.identity ≠ g.identity) ∧
    (∀ k, (Finding.dedup fs).find? (·.identity = k) = fs.find? (·.identity = k)) ∧
    plan.rawFindings s.progress facts index =
      Finding.dedup ((s.workers.flatMap fun w => w.outcome.findings) ++
        plan.checker.conclude facts ++
        plan.enumeration.forced.errors.map Configuration.Error.toFinding ++
        plan.suppressions.diagnostics index) := by
  have hdistinct : (Finding.dedup fs).Pairwise fun f g => f.identity ≠ g.identity :=
    (Finding.pairwise_dedup fs).imp fun hfg heq => hfg (Finding.sameAs_iff.mpr heq)
  refine ⟨?_, Finding.dedup_dedup fs, Finding.dedup_sublist fs, hdistinct, Finding.find?_dedup fs,
    ?_⟩
  · simpa using Finding.dedup_flatMap_append lists []
  · have hfound : s.progress.findings =
        (s.workers.map fun w => w.outcome.findings).flatMap Finding.dedup := by
      rw [List.flatMap_map]
      rfl
    rw [Plan.rawFindings, hfound, List.append_assoc, List.append_assoc,
      Finding.dedup_flatMap_append, ← List.flatMap_def, List.append_assoc, List.append_assoc]

end Run

end MacroSweep
