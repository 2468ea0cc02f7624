import MacroSweep.Proofs.Schedules
import MacroSweep.Proofs.Sources

/-! The order of a report. Its findings ascend, and each is there once, but for findings about
unmatched suppressions: these are added after repeated findings were left out. -/
namespace MacroSweep

namespace Finding

variable {f g : Finding} {fs : List Finding}

instance : Std.TransCmp reportOrder :=
  inferInstanceAs (Std.TransCmp
    (compareLex (compareOn location) (compareLex (compareOn id) (compareOn message))))

/-- Findings take one place in a report exactly if they report the same. -/
theorem reportOrder_eq_iff : reportOrder f g = .eq ↔ f.sameAs g = true := by
  have hcompare : reportOrder f g =
      (compare f.location g.location).then
        ((compare f.id g.id).then (compare f.message g.message)) := rfl
  have htext : ∀ s t : String, compare s t = .eq ↔ s = t :=
    fun _ _ => Std.LawfulEqOrd.compare_eq_iff_eq
  simp only [hcompare, Ordering.then_eq_eq, htext, sameAs, Bool.and_eq_true, beq_iff_eq]
  tauto

theorem isLE_reportOrder_total (f g : Finding) :
    ((reportOrder f g).isLE || (reportOrder g f).isLE) = true := by
  have hswap : reportOrder g f = (reportOrder f g).swap := Std.OrientedCmp.eq_swap
  rw [hswap]
  cases reportOrder f g <;> rfl

theorem sameAs_symm (h : f.sameAs g = true) : g.sameAs f = true := by
  rw [← reportOrder_eq_iff] at h ⊢
  exact Std.OrientedCmp.eq_symm h

theorem pairwise_dedup (fs : List Finding) : (dedup fs).Pairwise fun f g => ¬f.sameAs g = true := by
  induction fs with
  | nil => exact .nil
  | cons f fs ih =>
    rw [dedup, List.pairwise_cons]
    refine ⟨fun g hg => ?_, ih.filter _⟩
    simpa using (List.mem_filter.mp hg).2

/-- Where findings ascend and none reports the same as another, each comes before the next. -/
theorem pairwise_lt_iff (h : fs.Pairwise fun f g => (reportOrder f g).isLE = true) :
    (fs.Pairwise fun f g => reportOrder f g = .lt) ↔
      fs.Pairwise fun f g => ¬f.sameAs g = true := by
  constructor
  · intro hlt
    refine hlt.imp fun {f g} hfg hsame => ?_
    rw [reportOrder_eq_iff.mpr hsame] at hfg
    cases hfg
  · intro hne
    refine (h.and hne).imp fun {f g} ⟨hle, hsame⟩ => ?_
    cases hfg : reportOrder f g with
    | lt => rfl
    | eq => exact absurd (reportOrder_eq_iff.mp hfg) hsame
    | gt =>
      rw [hfg] at hle
      cases hle

end Finding

namespace Run

open Suppression

variable {plan : Plan} {tree : FileTree} {files : List Path} {report : Report}
  {index : InlineIndex} {f g : Finding} {fs : List Finding}

theorem key_attachRemark (index : InlineIndex) (f : Finding) :
    (index.attachRemark f).key = f.key := by
  unfold InlineIndex.attachRemark
  split <;> rfl

theorem sameAs_attachRemark (index : InlineIndex) (f g : Finding) :
    (index.attachRemark f).sameAs (index.attachRemark g) = f.sameAs g := by
  have hkey : ∀ a b a' b' : Finding, a.key = a'.key → b.key = b'.key →
      a.sameAs b = a'.sameAs b' := by
    intro a b a' b' ha hb
    simp only [Finding.key, Prod.mk.injEq] at ha hb
    simp only [Finding.sameAs, ha, hb]
  exact hkey _ _ _ _ (key_attachRemark index f) (key_attachRemark index g)

/-- What filtering keeps: part of the stream, and then findings about unmatched rules. -/
theorem kept_eq (r : Registry) (index : InlineIndex) (fs : List Finding) :
    ∃ rules : List Rule, (r.filter index fs).kept =
      (fs.filter fun f => !r.isSuppressed index f) ++ rules.map Registry.unusedFinding ∧
        (r.reportUnused = false → rules = []) := by
  cases hreport : r.reportUnused with
  | false =>
    refine ⟨[], ?_, fun _ => rfl⟩
    rw [Registry.filter_of_not_reportUnused hreport]
    simp
  | true =>
    refine ⟨(r.unused index (fs.flatMap (r.covering index))).filter
      fun rule => !r.isSuppressed index (Registry.unusedFinding rule), ?_, by simp⟩
    simp [Registry.filter_eq_stream, Registry.reports, hreport, List.filter_map, Function.comp_def]

/-- A list is in order if its parts are, and so are any two items of different parts. -/
theorem pairwise_of_filter {α : Type} {R : α → α → Prop} {p : α → Bool} {l : List α}
    (hp : (l.filter p).Pairwise R) (hn : (l.filter fun a => !p a).Pairwise R)
    (hR : ∀ a b, p a ≠ p b → R a b) : l.Pairwise R := by
  induction l with
  | nil => exact .nil
  | cons a l ih =>
    cases ha : p a with
    | true =>
      rw [List.filter_cons_of_pos ha, List.pairwise_cons] at hp
      rw [List.filter_cons_of_neg (by simp [ha])] at hn
      refine List.pairwise_cons.mpr ⟨fun b hb => ?_, ih hp.2 hn⟩
      cases hb' : p b with
      | true => exact hp.1 b (List.mem_filter.mpr ⟨hb, hb'⟩)
      | false => exact hR a b (by simp [ha, hb'])
    | false =>
      rw [List.filter_cons_of_neg (by simp [ha])] at hp
      rw [List.filter_cons_of_pos (by simp [ha]), List.pairwise_cons] at hn
      refine List.pairwise_cons.mpr ⟨fun b hb => ?_, ih hp hn.2⟩
      cases hb' : p b with
      | true => exact hR a b (by simp [ha, hb'])
      | false => exact hn.1 b (List.mem_filter.mpr ⟨hb, by simp [hb']⟩)

/-- The findings that are kept, with their remarks, apart from those about unmatched rules: no two
report the same. -/
theorem pairwise_attachRemark (plan : Plan) (p : Progress) (facts : Program.Facts)
    (index : InlineIndex) :
    (((plan.rawFindings p facts index).filter fun f => !plan.suppressions.isSuppressed index f).map
      index.attachRemark).Pairwise fun f g => ¬f.sameAs g = true := by
  rw [List.pairwise_map]
  simp only [sameAs_attachRemark]
  exact (Finding.pairwise_dedup _).filter _

section Report

variable (plan : Plan) (units : List SourceUnit) (p : Progress) (facts : Program.Facts)

/-- A report holds what is kept of the findings, and then findings about unmatched rules. -/
theorem findings_report_perm : ∃ (index : InlineIndex) (rules : List Rule),
    (plan.report units p facts).findings.Perm
      (((plan.rawFindings p facts index).filter fun f =>
          !plan.suppressions.isSuppressed index f).map index.attachRemark ++
        rules.map fun rule => index.attachRemark (Registry.unusedFinding rule)) ∧
      (plan.suppressions.reportUnused = false → rules = []) := by
  let index := Plan.inlineIndex p.tree units
  obtain ⟨rules, hkept, hrules⟩ :=
    kept_eq plan.suppressions index (plan.rawFindings p facts index)
  refine ⟨index, rules, ?_, hrules⟩
  have hfindings : (plan.report units p facts).findings.Perm
      ((plan.suppressions.filter index (plan.rawFindings p facts index)).kept.map
        index.attachRemark) := List.mergeSort_perm ..
  rw [hkept, List.map_append, List.map_map] at hfindings
  exact hfindings

/-- The findings of a report ascend. -/
theorem pairwise_isLE_report : (plan.report units p facts).findings.Pairwise fun f g =>
    (Finding.reportOrder f g).isLE = true :=
  List.pairwise_mergeSort (fun _ _ _ => Std.TransCmp.isLE_trans) Finding.isLE_reportOrder_total _

/-- Findings that are not about unmatched suppressions are reported once. -/
theorem pairwise_others_report :
    ((plan.report units p facts).findings.filter fun f =>
      !(f.id == "unmatchedSuppression")).Pairwise fun f g => ¬f.sameAs g = true := by
  obtain ⟨index, rules, hperm, -⟩ := findings_report_perm plan units p facts
  rw [(hperm.filter _).pairwise_iff fun h h' => h (Finding.sameAs_symm h'), List.filter_append]
  have hnone : (rules.map fun rule => index.attachRemark (Registry.unusedFinding rule)).filter
      (fun f => !(f.id == "unmatchedSuppression")) = [] := by
    rw [List.filter_eq_nil_iff]
    intro f hf
    obtain ⟨rule, -, rfl⟩ := List.mem_map.mp hf
    rw [id_attachRemark]
    simp [Registry.unusedFinding]
  rw [hnone, List.append_nil]
  exact (pairwise_attachRemark plan p facts _).filter _

theorem pairwise_report_of_not_reportUnused (h : plan.suppressions.reportUnused = false) :
    (plan.report units p facts).findings.Pairwise fun f g => ¬f.sameAs g = true := by
  obtain ⟨index, rules, hperm, hrules⟩ := findings_report_perm plan units p facts
  rw [hperm.pairwise_iff fun h h' => h (Finding.sameAs_symm h'), hrules h, List.map_nil,
    List.append_nil]
  exact pairwise_attachRemark plan p facts _

end Report

theorem exists_report_of_gives (h : plan.Gives tree files (.ok report)) :
    ∃ units p facts, report = plan.report units p facts := by
  generalize hresult : Except.ok report = result at h
  cases h with
  | noUnits => cases hresult
  | @report s =>
    rw [Stage.report] at hresult
    split at hresult
    · exact ⟨_, _, _, Except.ok.inj hresult⟩
    · cases hresult

section RepeatedRule

open Checker

/-- A rule that names a file. -/
def namingText : Source := .text "x:b.c".toList

def namingRule : Rule := { id := "x", file := some "b.c", origin := .commandLine }

/-- A check with this rule, as often as it is given. -/
def repeatedRule (n : Nat) : Plan where
  checker := directives
  suppressions := .ofSources false true (List.replicate n namingText)

/-- A file with an error. -/
def erringTree : FileTree where
  nodes := .ofList [(["a.c"], .file errorText)]

def erringUnit : SourceUnit := ⟨⟨"a.c"⟩, Digest.fingerprint errorText, [], ∅⟩

def erring : Finding where
  id := "preprocessorErrorDirective"
  severity := .error
  location := ⟨⟨"a.c"⟩, 1, 1⟩
  message := "#error e"

theorem declared_namingText : namingText.declared = { rules := [namingRule] } := by
  decide +kernel

theorem declared_repeatedRule (n : Nat) :
    (repeatedRule n).suppressions.declared = { rules := List.replicate n namingRule } := by
  rw [repeatedRule, Registry.declared_ofSources]
  simp [List.flatMap_replicate, declared_namingText]

/-- The rule covers neither the error nor the finding about itself. -/
theorem not_isSuppressed_repeatedRule (n : Nat) (index : InlineIndex) :
    ∀ f ∈ [erring, Registry.unusedFinding namingRule],
      (repeatedRule n).suppressions.isSuppressed index f = false := by
  have hcovers : ∀ f ∈ [erring, Registry.unusedFinding namingRule],
      namingRule.covers f = false := by decide +kernel
  intro f hf
  rw [Bool.eq_false_iff, ne_eq, Registry.isSuppressed_iff, Registry.rules, declared_repeatedRule]
  rintro (⟨rule, hrule, hrule'⟩ | ⟨hinline, -⟩)
  · rw [(List.mem_replicate.mp hrule).2, hcovers f hf] at hrule'
    cases hrule'
  · rw [repeatedRule, Registry.inline_ofSources] at hinline
    cases hinline

/-- The rule is left over each time it is given. -/
theorem kept_repeatedRule (n : Nat) (index : InlineIndex) :
    ((repeatedRule n).suppressions.filter index [erring]).kept =
      erring :: List.replicate n (Registry.unusedFinding namingRule) := by
  have hreport : (repeatedRule n).suppressions.reportUnused = true :=
    Registry.reportUnused_ofSources
  have hinline : (repeatedRule n).suppressions.inline = false := Registry.inline_ofSources
  have hunmatched : (repeatedRule n).suppressions.unmatched index [erring] =
      List.replicate n namingRule := by
    have hleft : (∃ file ∈ namingRule.file, ¬Glob.hasWildcard file = true) ∧
        ∀ f ∈ [erring], ¬namingRule.covers f = true := by decide +kernel
    rw [Registry.unmatched, hinline, Registry.rules, declared_repeatedRule]
    rw [if_neg Bool.false_ne_true, List.append_nil, List.filter_eq_self]
    intro rule hrule
    rw [(List.mem_replicate.mp hrule).2]
    exact decide_eq_true hleft
  have hkept := not_isSuppressed_repeatedRule n index
  rw [Registry.filter_eq_stream, Registry.reports, hreport, Registry.unused_eq_unmatched,
    hunmatched]
  simp [hkept]

theorem loadAll_erringTree : SourceUnit.loadAll erringTree [] [⟨"a.c"⟩] = [erringUnit] := by
  have hload : SourceUnit.load erringTree [] ⟨"a.c"⟩ = .ok erringUnit :=
    SourceUnit.load_of_no_mentions rfl (mentionsOf_eq_empty errorText (by simp))
  simp [SourceUnit.loadAll, hload, Except.toOption, SourceUnit.dedup]

theorem analyze_erringUnit (n : Nat) :
    (repeatedRule n).analyze erringTree erringUnit {} = .ok { findings := [erring] } := by
  have hrun : directives.run ⟨erringTree, erringUnit, {}, {}⟩ = .ok { findings := [erring] } := by
    decide +kernel
  exact hrun

theorem faults_erringTree : (Plan.inlineIndex erringTree [erringUnit]).faults = [] := by
  decide +kernel

theorem checkUnit_erringUnit (n : Nat) : (repeatedRule n).checkUnit erringTree erringUnit =
    { tree := erringTree, findings := [erring], configurations := 1, misses := 1 } := by
  have hconfigurations : (repeatedRule n).enumeration.configurations erringUnit.conditionals =
      [{}] := rfl
  have hnext := Plan.checkConfiguration_of_ok (o := { tree := erringTree, configurations := 1 })
    rfl (analyze_erringUnit n)
  simp only [Plan.checkUnit, hconfigurations, List.foldl_cons, List.foldl_nil,
    List.length_singleton, hnext]
  rfl

/-- The rule covers nothing, so it is reported as often as it is given. -/
theorem findings_run_repeatedRule (n : Nat) : ∃ report tree,
    (repeatedRule n).run erringTree [⟨"a.c"⟩] = .ok (report, tree) ∧
      ∃ f g, report.findings.Perm (f :: List.replicate n g) ∧
        f.id = "preprocessorErrorDirective" ∧ g.id = "unmatchedSuppression" := by
  let p : Progress := {
    tree := erringTree
    tally := { expected := 1, facts := Program.Facts.merge {} {}, submitted := 1 }
    findings := [erring]
    configurations := 1
    misses := 1 }
  have hrun : (repeatedRule n).run erringTree [⟨"a.c"⟩] =
      .ok ((repeatedRule n).report [erringUnit] p (Program.Facts.merge {} {}), erringTree) := by
    have hunits : SourceUnit.loadAll erringTree (repeatedRule n).includePaths [⟨"a.c"⟩] =
        [erringUnit] := loadAll_erringTree
    simp only [Plan.run, hunits, List.isEmpty_cons, Bool.false_eq_true, if_false,
      List.foldl_cons, List.foldl_nil, Plan.advance, checkUnit_erringUnit]
    rfl
  have hraw : (repeatedRule n).rawFindings p (Program.Facts.merge {} {})
      (Plan.inlineIndex erringTree [erringUnit]) = [erring] := by
    have hconclude : (repeatedRule n).checker.conclude (Program.Facts.merge {} {}) = [] := rfl
    have hforced : (repeatedRule n).enumeration.forced.errors = [] := rfl
    simp [Plan.rawFindings, hconclude, hforced, Registry.diagnostics, declared_repeatedRule,
      faults_erringTree, p, Finding.dedup]
  have hperm : ((repeatedRule n).report [erringUnit] p (Program.Facts.merge {} {})).findings.Perm
      ((erring :: List.replicate n (Registry.unusedFinding namingRule)).map
        (Plan.inlineIndex erringTree [erringUnit]).attachRemark) := by
    rw [← kept_repeatedRule, ← hraw]
    exact List.mergeSort_perm ..
  rw [List.map_cons, List.map_replicate] at hperm
  exact ⟨_, _, hrun, _, _, hperm, id_attachRemark .., id_attachRemark ..⟩

end RepeatedRule

/-- Whatever the order in which workers take their steps, the findings of a report ascend, and each
comes before the next unless two of them are about unmatched suppressions and report the same. -/
theorem pairwise_lt_report_iff (h : plan.Gives tree files (.ok report)) :
    (report.findings.Pairwise fun f g => (Finding.reportOrder f g).isLE = true) ∧
    (report.findings.filter fun f => !(f.id == "unmatchedSuppression")).Pairwise
      (fun f g => Finding.reportOrder f g = .lt) ∧
    ((report.findings.Pairwise fun f g => Finding.reportOrder f g = .lt) ↔
      (report.findings.filter fun f => f.id == "unmatchedSuppression").Pairwise
        fun f g => ¬f.sameAs g = true) ∧
    (plan.suppressions.reportUnused = false →
      report.findings.Pairwise fun f g => Finding.reportOrder f g = .lt) := by
  obtain ⟨units, p, facts, rfl⟩ := exists_report_of_gives h
  have hle := pairwise_isLE_report plan units p facts
  have hothers := pairwise_others_report plan units p facts
  refine ⟨hle, (Finding.pairwise_lt_iff (hle.filter _)).mpr hothers, ?_, ?_⟩
  · rw [Finding.pairwise_lt_iff hle]
    refine ⟨fun hne => hne.filter _, fun hunmatched => pairwise_of_filter hunmatched hothers ?_⟩
    intro f g hids hsame
    simp only [Finding.sameAs, Bool.and_eq_true, beq_iff_eq] at hsame
    exact hids (by rw [hsame.1.1])
  · intro hoff
    exact (Finding.pairwise_lt_iff hle).mpr
      (pairwise_report_of_not_reportUnused plan units p facts hoff)

/-- A rule that is given once and covers nothing is reported once, before the error. -/
theorem pairwise_lt_report_of_single_rule : ∃ report,
    (repeatedRule 1).Gives erringTree [⟨"a.c"⟩] (.ok report) ∧ report.findings.length = 2 ∧
      report.findings.Pairwise fun f g => Finding.reportOrder f g = .lt := by
  obtain ⟨report, tree, hrun, f, g, hperm, hf, hg⟩ := findings_run_repeatedRule 1
  have hgives : (repeatedRule 1).Gives erringTree [⟨"a.c"⟩] (.ok report) := by
    have hgives := (repeatedRule 1).gives_run erringTree [⟨"a.c"⟩]
    rwa [hrun] at hgives
  refine ⟨report, hgives, hperm.length_eq, (pairwise_lt_report_iff hgives).2.2.1.mpr ?_⟩
  have hfilter := hperm.filter fun f => f.id == "unmatchedSuppression"
  simp only [List.replicate_one, List.filter_cons, hf, hg, List.filter_nil] at hfilter
  rw [List.perm_singleton.mp hfilter]
  exact List.pairwise_singleton _ g

/-- A rule that is given twice and covers nothing is reported twice. -/
theorem not_pairwise_lt_report_of_repeated_rule : ∃ report tree,
    (repeatedRule 2).run erringTree [⟨"a.c"⟩] = .ok (report, tree) ∧
      ¬(report.findings.Pairwise fun f g => f.key ≠ g.key) ∧
      ¬(report.findings.Pairwise fun f g => Finding.reportOrder f g = .lt) := by
  obtain ⟨report, tree, hrun, f, g, hperm, -, -⟩ := findings_run_repeatedRule 2
  have hkeys : ¬(report.findings.Pairwise fun f g => f.key ≠ g.key) := by
    rw [hperm.pairwise_iff Ne.symm]
    simp [List.replicate_succ]
  refine ⟨report, tree, hrun, hkeys, fun hlt => hkeys (hlt.imp fun {f g} hfg hkey => ?_)⟩
  simp only [Finding.key, Prod.mk.injEq] at hkey
  have hsame : Finding.reportOrder f g = .eq := by
    rw [Finding.reportOrder_eq_iff]
    simp [Finding.sameAs, hkey]
  rw [hsame] at hfg
  cases hfg

end Run

end MacroSweep
