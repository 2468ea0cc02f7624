import MacroSweep.Options.Basic
import MacroSweep.Proofs.InlineLookup

/-! Suppressions from several sources. Each source adds the rules that it declares and drops what is
wrong with it, so another source never lets a finding through, and their order does not show. -/
namespace MacroSweep.Suppression

/-- Where suppressions come from: a rule on the command line, a list, a document, a file that cannot
be read, or a rule that is ready. -/
inductive Source where
  | text (rule : List Char)
  | list (path : Path) (content : List Char)
  | document (path : Path) (content : List Char)
  | unreadable (path : Path) (cause : FileError)
  | ready (rule : Rule)

def Source.declared : Source → Declared
  | text rule => .ofRuleText rule .commandLine
  | list path content => .ofList path content
  | document path content => .ofDocument path content
  | unreadable path cause => { faults := [⟨.listed path 0, .unreadable cause.message⟩] }
  | ready rule => { rules := [rule] }

namespace Registry

variable {inline reportUnused : Bool} {sources sources' : List Source} {index : InlineIndex}
  {f : Finding} {r r' : Registry}

/-- The suppressions that sources give one after the other. -/
def ofSources (inline reportUnused : Bool) (sources : List Source) : Registry :=
  (sources.map Source.declared).foldl add { inline, reportUnused }

/-- A file of suppressions as a source. -/
def sourceAt (tree : FileTree) (source : Path → List Char → Source) (path : Path) : Source :=
  match tree.readText path with
  | .ok content => source path content
  | .error cause => .unreadable path cause

/-- The suppressions of a run come from its rules, lists and documents. -/
theorem registry_eq_ofSources (o : SuppressionOptions) (tree : FileTree) :
    o.registry tree = ofSources o.inline o.reportUnused
      (o.rules.map (fun rule => .text rule.toList) ++ o.lists.map (sourceAt tree .list) ++
        o.documents.map (sourceAt tree .document)) := by
  have hat : ∀ (source : Path → List Char → Source) (paths : List Path),
      (paths.map (sourceAt tree source)).map Source.declared =
        paths.map (SuppressionOptions.declaredIn tree fun path content =>
          (source path content).declared) := by
    intro source paths
    rw [List.map_map]
    refine List.map_congr_left fun path _ => ?_
    rw [Function.comp_apply, sourceAt, SuppressionOptions.declaredIn]
    cases tree.readText path <;> rfl
  rw [SuppressionOptions.registry, ofSources, List.map_append, List.map_append, List.map_map, hat,
    hat]
  rfl

theorem foldl_add (ds : List Declared) (r : Registry) :
    ds.foldl add r = { r with declared :=
      ⟨r.rules ++ ds.flatMap (·.rules), r.declared.faults ++ ds.flatMap (·.faults)⟩ } := by
  induction ds generalizing r with
  | nil => simp [rules]
  | cons d ds ih =>
    rw [List.foldl_cons, ih, List.flatMap_cons, List.flatMap_cons, ← List.append_assoc,
      ← List.append_assoc]
    rfl

/-- The rules and the faults of sources follow each other as the sources do. -/
theorem declared_ofSources : (ofSources inline reportUnused sources).declared =
    ⟨sources.flatMap (·.declared.rules), sources.flatMap (·.declared.faults)⟩ := by
  rw [ofSources, foldl_add]
  simp [rules, List.flatMap_map]

theorem inline_ofSources : (ofSources inline reportUnused sources).inline = inline := by
  rw [ofSources, foldl_add]

theorem reportUnused_ofSources :
    (ofSources inline reportUnused sources).reportUnused = reportUnused := by
  rw [ofSources, foldl_add]

/-- A finding is suppressed if a rule of some source covers it, or an inline rule does. -/
theorem isSuppressed_ofSources_iff :
    (ofSources inline reportUnused sources).isSuppressed index f = true ↔
      (∃ s ∈ sources, ∃ rule ∈ s.declared.rules, rule.covers f = true) ∨
        inline = true ∧ ∃ i ∈ index.candidates f, index.covers f i = true := by
  rw [isSuppressed_iff, inline_ofSources, rules, declared_ofSources]
  refine or_congr_left ?_
  constructor
  · rintro ⟨rule, hrule, hcovers⟩
    obtain ⟨s, hs, hrule⟩ := List.mem_flatMap.mp hrule
    exact ⟨s, hs, rule, hrule, hcovers⟩
  · rintro ⟨s, hs, rule, hrule, hcovers⟩
    exact ⟨rule, List.mem_flatMap.mpr ⟨s, hs, hrule⟩, hcovers⟩

/-- More sources suppress more. -/
theorem isSuppressed_of_subset (hsub : sources ⊆ sources')
    (h : (ofSources inline reportUnused sources).isSuppressed index f = true) :
    (ofSources inline reportUnused sources').isSuppressed index f = true := by
  rw [isSuppressed_ofSources_iff] at h ⊢
  rcases h with ⟨s, hs, hrule⟩ | h
  · exact .inl ⟨s, hsub hs, hrule⟩
  · exact .inr h

/-- If unused rules are not reported, the findings that are not suppressed are kept and the others
are counted. -/
theorem filter_of_not_reportUnused (h : r.reportUnused = false) (index : InlineIndex)
    (findings : List Finding) :
    r.filter index findings = {
      kept := findings.filter fun f => !r.isSuppressed index f
      suppressed := findings.countP (r.isSuppressed index) } := by
  simp [filter_eq_stream, reports, h]

/-- A registry that suppresses more keeps part of what the other keeps and counts the rest. -/
theorem filter_sublist (hr : r.reportUnused = false) (hr' : r'.reportUnused = false)
    (h : ∀ f, r.isSuppressed index f = true → r'.isSuppressed index f = true)
    (findings : List Finding) :
    (r'.filter index findings).kept.Sublist (r.filter index findings).kept ∧
      (r'.filter index findings).suppressed = (r.filter index findings).suppressed +
        ((r.filter index findings).kept.length - (r'.filter index findings).kept.length) := by
  have htotal : ∀ s : Registry, (findings.filter fun f => !s.isSuppressed index f).length +
      findings.countP (s.isSuppressed index) = findings.length := by
    intro s
    rw [← List.countP_eq_length_filter, Nat.add_comm,
      List.length_eq_countP_add_countP (s.isSuppressed index)]
    simp
  rw [filter_of_not_reportUnused hr, filter_of_not_reportUnused hr']
  have hsub : (findings.filter fun f => !r'.isSuppressed index f).Sublist
      (findings.filter fun f => !r.isSuppressed index f) := by
    apply List.monotone_filter_right
    intro f hf
    by_contra hnot
    simp_all
  refine ⟨hsub, ?_⟩
  have hle := hsub.length_le
  have hsmall := htotal r
  have hlarge := htotal r'
  dsimp only
  omega

/-- Another source, wherever it stands, lets no finding through; the order of the sources does not
matter; and if unused rules are not reported, another source takes findings out of what is kept and
counts each of them. -/
theorem isSuppressed_insert_source (inline reportUnused : Bool) (index : InlineIndex)
    (before after : List Source) (s : Source) :
    (∀ f, (ofSources inline reportUnused (before ++ after)).isSuppressed index f = true →
      (ofSources inline reportUnused (before ++ s :: after)).isSuppressed index f = true) ∧
    (∀ sources : List Source, sources.Perm (before ++ after) → ∀ f,
      (ofSources inline reportUnused sources).isSuppressed index f =
        (ofSources inline reportUnused (before ++ after)).isSuppressed index f) ∧
    ∀ findings : List Finding,
      let larger := (ofSources inline false (before ++ s :: after)).filter index findings
      let smaller := (ofSources inline false (before ++ after)).filter index findings
      larger.kept.Sublist smaller.kept ∧
        larger.suppressed = smaller.suppressed + (smaller.kept.length - larger.kept.length) := by
  have hsub : before ++ after ⊆ before ++ s :: after := by
    intro s' hs'
    simp only [List.mem_append, List.mem_cons] at hs' ⊢
    tauto
  refine ⟨fun f => isSuppressed_of_subset hsub, ?_, ?_⟩
  · intro sources hperm f
    rw [Bool.eq_iff_iff]
    exact ⟨isSuppressed_of_subset hperm.subset, isSuppressed_of_subset hperm.symm.subset⟩
  · intro findings
    exact filter_sublist reportUnused_ofSources reportUnused_ofSources
      (fun f => isSuppressed_of_subset hsub) findings

end Registry

end MacroSweep.Suppression
