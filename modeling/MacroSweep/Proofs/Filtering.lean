import MacroSweep.Suppression.Registry

/-! What suppressions leave of a stream of findings: the findings that no rule covers, and one more
finding for each rule that covers none of them. -/
namespace MacroSweep.Suppression.Registry

variable {r : Registry} {index : InlineIndex} {findings : List Finding} {f : Finding} {rule : Rule}
  {i : Nat} {used used' : List RuleRef}

section Loop

/-- The loop over the rules that cover a finding: the finding is hit if there is one, and each is
put among the used ones. -/
theorem foldl_mark (hit : Bool) (used rules : List RuleRef) :
    rules.foldl (fun (_, used) rule => (true, List.insert rule used)) (hit, used) =
      (hit || !rules.isEmpty, rules.foldl (fun used rule => used.insert rule) used) := by
  induction rules generalizing hit used with
  | nil => simp
  | cons rule rules ih =>
    rw [List.foldl_cons, ih, List.foldl_cons]
    simp

theorem fst_mark (used rules : List RuleRef) : (mark used rules).1 = !rules.isEmpty := by
  rw [mark, foldl_mark, Bool.false_or]

theorem mem_mark_iff {x : RuleRef} (used rules : List RuleRef) :
    x ∈ (mark used rules).2 ↔ x ∈ used ∨ x ∈ rules := by
  rw [mark, foldl_mark]
  induction rules generalizing used with
  | nil => simp
  | cons rule rules ih =>
    rw [List.foldl_cons, ih, List.mem_insert_iff, List.mem_cons, or_comm (a := x = rule), or_assoc]

theorem sift_eq (result : Filtered) (used : List RuleRef) (f : Finding) :
    r.sift index (result, used) f =
      (result.add f (r.isSuppressed index f), (mark used (r.covering index f)).2) := by
  simp only [sift, fst_mark, isSuppressed]

/-- The findings that are added are kept, or else counted. -/
theorem foldl_filtered_add (suppressed : Finding → Bool) (findings : List Finding)
    (result : Filtered) :
    findings.foldl (fun result f => result.add f (suppressed f)) result = {
      kept := result.kept ++ findings.filter fun f => !suppressed f
      suppressed := result.suppressed + findings.countP suppressed } := by
  induction findings generalizing result with
  | nil => simp
  | cons f findings ih =>
    rw [List.foldl_cons, ih]
    cases h : suppressed f with
    | true =>
      have hcount : (f :: findings).countP suppressed = findings.countP suppressed + 1 :=
        List.countP_cons_of_pos h
      simp [Filtered.add, h, hcount]
      omega
    | false => simp [Filtered.add, h]

/-- The loop over the findings of a stream: those that no rule covers are kept, the others are
counted, and the rules that were used before or cover one of them are used. -/
theorem foldl_sift (r : Registry) (index : InlineIndex) (findings : List Finding)
    (result : Filtered) (used : List RuleRef) :
    (findings.foldl (r.sift index) (result, used)).1 =
        findings.foldl (fun result f => result.add f (r.isSuppressed index f)) result ∧
      ∀ x, x ∈ (findings.foldl (r.sift index) (result, used)).2 ↔
        x ∈ used ∨ x ∈ findings.flatMap (r.covering index) := by
  induction findings generalizing result used with
  | nil => simp
  | cons f findings ih =>
    obtain ⟨hresult, hused⟩ := ih (result.add f (r.isSuppressed index f))
      (mark used (r.covering index f)).2
    simp only [List.foldl_cons, sift_eq]
    refine ⟨hresult, fun x => ?_⟩
    rw [hused, mem_mark_iff, List.flatMap_cons, List.mem_append, or_assoc]

/-- Which rules are unused is settled by the rules that are used. -/
theorem unused_congr (h : ∀ x, x ∈ used ↔ x ∈ used') :
    r.unused index used = r.unused index used' := by
  have hcontains : ∀ x, used.contains x = used'.contains x := fun x => by
    rw [Bool.eq_iff_iff, List.contains_iff_mem, List.contains_iff_mem, h]
  simp only [unused, hcontains]

/-- The findings about unused rules, if these are reported. -/
def reports (r : Registry) (index : InlineIndex) (findings : List Finding) : List Finding :=
  if r.reportUnused then (r.unused index (findings.flatMap (r.covering index))).map unusedFinding
  else []

/-- Filtering keeps what no rule covers of the stream and of the findings about unused rules, and
counts the rest. -/
theorem filter_eq_stream (r : Registry) (index : InlineIndex) (findings : List Finding) :
    r.filter index findings = {
      kept := (findings ++ r.reports index findings).filter fun f => !r.isSuppressed index f
      suppressed := (findings ++ r.reports index findings).countP (r.isSuppressed index) } := by
  obtain ⟨hresult, hused⟩ := foldl_sift r index findings {} []
  have hunused : r.unused index (findings.foldl (r.sift index) ({}, [])).2 =
      r.unused index (findings.flatMap (r.covering index)) :=
    unused_congr fun x => by simp [hused]
  rw [filter, reports]
  dsimp only
  rw [hresult, hunused]
  split
  · rw [← List.foldl_append, foldl_filtered_add]
    simp
  · rw [foldl_filtered_add]
    simp

end Loop

/-- The rules to report: declared rules that name a file and cover no finding, and inline rules, if
they count, that cover no finding from which they are found. -/
def unmatched (r : Registry) (index : InlineIndex) (findings : List Finding) : List Rule :=
  (r.rules.filter fun rule =>
      decide ((∃ file ∈ rule.file, ¬Glob.hasWildcard file) ∧ ∀ f ∈ findings, ¬rule.covers f)) ++
    if r.inline then
      (index.rules.zipIdx.filter fun (rule, i) =>
        decide (∀ f ∈ findings, ¬(i ∈ index.candidates f ∧ rule.covers f))).map (·.1)
    else []

theorem declared_mem_covering (h : (rule, i) ∈ r.rules.zipIdx) :
    .declared i ∈ r.covering index f ↔ rule.covers f := by
  rw [List.mk_mem_zipIdx_iff_getElem?] at h
  have hinline : .declared i ∉ (if r.inline then
      ((index.candidates f).filter (index.covers f)).map RuleRef.inline else []) := by
    split <;> simp
  constructor
  · intro hmem
    rcases List.mem_append.mp hmem with hmem | hmem
    · obtain ⟨⟨rule', j⟩, hfound, hj⟩ := List.mem_map.mp hmem
      cases hj
      obtain ⟨hat, hcovers⟩ := List.mem_filter.mp hfound
      rw [List.mk_mem_zipIdx_iff_getElem?, h, Option.some.injEq] at hat
      rw [hat]
      exact hcovers
    · exact absurd hmem hinline
  · intro hcovers
    refine List.mem_append_left _ (List.mem_map.mpr ⟨(rule, i), List.mem_filter.mpr ?_, rfl⟩)
    exact ⟨List.mk_mem_zipIdx_iff_getElem?.mpr h, hcovers⟩

theorem inline_mem_covering (h : (rule, i) ∈ index.rules.zipIdx) (hinline : r.inline = true) :
    .inline i ∈ r.covering index f ↔ i ∈ index.candidates f ∧ rule.covers f := by
  rw [List.mk_mem_zipIdx_iff_getElem?] at h
  have hcovers : index.covers f i = rule.covers f := by
    rw [InlineIndex.covers, h]
    rfl
  simp [covering, hinline, hcovers]

theorem namesFile_iff : namesFile rule ↔ ∃ file ∈ rule.file, ¬Glob.hasWildcard file := by
  unfold namesFile
  split
  · next file h => simp [h]
  · next h => simp [h]

theorem map_fst_filter_zipIdx (p : Rule → Bool) (rules : List Rule) :
    (rules.zipIdx.filter fun (rule, _) => p rule).map (·.1) = rules.filter p := by
  calc (rules.zipIdx.filter fun (rule, _) => p rule).map (·.1)
    _ = (rules.zipIdx.map Prod.fst).filter p := List.filter_map.symm
    _ = rules.filter p := by rw [List.zipIdx_map_fst]

/-- The rules that the findings of a stream do not use are those that match none of them. -/
theorem unused_eq_unmatched (r : Registry) (index : InlineIndex) (findings : List Finding) :
    r.unused index (findings.flatMap (r.covering index)) = r.unmatched index findings := by
  have hdeclared : ((r.rules.zipIdx.filter fun (rule, i) => namesFile rule &&
      !(findings.flatMap (r.covering index)).contains (.declared i)).map (·.1)) =
      r.rules.filter fun rule =>
        decide ((∃ file ∈ rule.file, ¬Glob.hasWildcard file) ∧ ∀ f ∈ findings, ¬rule.covers f) := by
    rw [← map_fst_filter_zipIdx]
    refine congrArg _ (List.filter_congr fun (rule, i) hmem => ?_)
    rw [Bool.eq_iff_iff]
    simp [namesFile_iff, declared_mem_covering hmem]
  have hinline (hon : r.inline = true) : (index.rules.zipIdx.filter fun (_, i) =>
      !(findings.flatMap (r.covering index)).contains (.inline i)) =
      index.rules.zipIdx.filter fun (rule, i) =>
        decide (∀ f ∈ findings, ¬(i ∈ index.candidates f ∧ rule.covers f)) := by
    refine List.filter_congr fun (rule, i) hmem => ?_
    rw [Bool.eq_iff_iff]
    simp [inline_mem_covering hmem hon]
  rw [unused, unmatched, List.map_append, hdeclared]
  by_cases hon : r.inline = true
  · rw [if_pos hon, if_pos hon, hinline hon]
  · rw [if_neg hon, if_neg hon, List.map_nil]

/-- Filtering keeps the findings that are not suppressed, in order, and then, if unused rules are
reported, those of the findings about unmatched rules that are not suppressed. Nothing else is lost
or added, and the order of the findings does not matter for which rules are reported. -/
theorem filter_eq (r : Registry) (index : InlineIndex) (findings : List Finding) :
    let reported := if r.reportUnused then r.unmatched index findings else []
    let filtered := r.filter index findings
    filtered.kept = (findings.filter fun f => !r.isSuppressed index f) ++
        ((reported.map unusedFinding).filter fun f => !r.isSuppressed index f) ∧
      filtered.kept.length + filtered.suppressed = findings.length + reported.length ∧
      ∀ findings' : List Finding, findings'.Perm findings →
        r.unused index (findings'.flatMap (r.covering index)) =
          r.unused index (findings.flatMap (r.covering index)) := by
  intro reported filtered
  have hreports : r.reports index findings = reported.map unusedFinding := by
    rw [reports, unused_eq_unmatched]
    simp only [reported]
    split <;> rfl
  have hfiltered : filtered = _ := filter_eq_stream r index findings
  rw [hreports] at hfiltered
  have hkept := congrArg Filtered.kept hfiltered
  have hsuppressed := congrArg Filtered.suppressed hfiltered
  refine ⟨?_, ?_, ?_⟩
  · rw [hkept, List.filter_append]
  · rw [hkept, hsuppressed, ← List.countP_eq_length_filter, Nat.add_comm,
      ← List.length_map (f := unusedFinding), ← List.length_append,
      List.length_eq_countP_add_countP (r.isSuppressed index)]
    simp
  · intro findings' hperm
    rw [unused_eq_unmatched, unused_eq_unmatched]
    simp only [unmatched, hperm.mem_iff]

end MacroSweep.Suppression.Registry
