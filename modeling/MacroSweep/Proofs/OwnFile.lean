import MacroSweep.Proofs.Glob
import MacroSweep.Proofs.Markers

/-! The file pattern of a rule that a comment declares is the path of its file. A path matches
itself as a pattern, whatever it is made of, so the rule holds in its own file. -/
namespace MacroSweep.Suppression

open MacroSweep.Source Text

variable {path : Path} {line : Line} {after : List Line} {s : InlineState} {rules : List Rule}

/-- A rule as a file declares it: its pattern is the path of the file, and a rule about a macro has
none. -/
def Rule.IsOwn (path : Path) (r : Rule) : Prop :=
  r.file = match r.scope with
    | .expansion _ => none
    | _ => some path.text

theorem Marker.isOwn_rules (path : Path) (n : Nat) (scope : Scope) (lines : LineSelector)
    (m : Marker) : ∀ r ∈ m.rules path n scope lines, r.IsOwn path := by
  intro r hr
  obtain ⟨id, -, rfl⟩ := List.mem_map.mp hr
  rfl

namespace InlineState

/-- All rules declared so far are rules of the file. -/
def IsOwn (path : Path) (s : InlineState) : Prop := ∀ r ∈ s.scan.rules, r.IsOwn path

theorem IsOwn.addRules (h : s.IsOwn path) (hrules : ∀ r ∈ rules, r.IsOwn path) :
    (s.addRules rules).IsOwn path := by
  intro r hr
  rcases List.mem_append.mp hr with hr | hr
  · exact h r hr
  · exact hrules r hr

theorem IsOwn.closeBlock (h : s.IsOwn path) (n : Nat) (id : String) :
    (s.closeBlock path n id).IsOwn path := by
  unfold InlineState.closeBlock
  split
  · exact h
  · next first symbol outer _ =>
    exact IsOwn.addRules (s := { s with blocks := s.blocks.insert id outer }) h
      (Marker.isOwn_rules path first _ _ _)

/-- A marker of any kind declares rules of the file only. -/
theorem IsOwn.addMarker (h : s.IsOwn path) (trailing : Bool) (m : Marker) :
    (s.addMarker path line trailing after m).IsOwn path := by
  unfold InlineState.addMarker
  split
  · split
    · exact h.addRules (m.isOwn_rules path line.number _ _)
    · exact h
  · exact h.addRules (m.isOwn_rules path line.number _ _)
  · have hrules : (m.ids.foldl (openBlock line.number m.symbol) s).scan = s.scan :=
      foldl_eq_of_step InlineState.scan (f := openBlock line.number m.symbol) (fun _ _ => rfl) s
        m.ids
    rwa [IsOwn, hrules]
  · exact List.foldlRecOn m.ids _ h fun s hs id _ => hs.closeBlock line.number id
  · split
    · exact h.addRules (m.isOwn_rules path line.number _ _)
    · exact h

theorem IsOwn.addComment (h : s.IsOwn path) (c : Comment) :
    (s.addComment path line after c).IsOwn path := by
  cases hmarker : marker? c with
  | some m =>
    rw [addComment_of_marker hmarker]
    exact h.addMarker c.trailing m
  | none =>
    obtain ⟨remarks, remark, faults, -, heq⟩ := addComment_of_no_marker hmarker path line after s
    rw [heq]
    exact h

theorem IsOwn.meetCode (h : s.IsOwn path) (n : Nat) : (s.meetCode path n).IsOwn path := by
  intro r hr
  rcases List.mem_append.mp hr with hr | hr
  · exact h r hr
  · obtain ⟨⟨k, m⟩, -, hr⟩ := List.mem_flatMap.mp hr
    exact m.isOwn_rules path k .line (.single n) r hr

theorem IsOwn.addLines (h : s.IsOwn path) (lines : List Line) :
    (s.addLines path lines).IsOwn path := by
  induction lines generalizing s with
  | nil => exact h
  | cons line after ih =>
    have hcomments : (line.comments.foldl (InlineState.addComment path line after) s).IsOwn path :=
      List.foldlRecOn line.comments _ h fun s hs c _ => hs.addComment c
    rw [InlineState.addLines]
    apply ih
    split
    · exact hcomments.meetCode line.number
    · exact hcomments

end InlineState

/-- The rules that a file declares are its own. -/
theorem isOwn_of_mem_scanInline {content : List Char} {r : Rule}
    (h : r ∈ (scanInline path content).rules) : r.IsOwn path := by
  have hempty : InlineState.IsOwn path {} := fun r hr => absurd hr List.not_mem_nil
  rw [scanInline, InlineState.finish_eq] at h
  exact hempty.addLines (sourceLines content) r h

/-- Every text matches itself as a pattern. So a rule that a comment declares for its file, for
lines or for a block passes its file test for each finding at the path of the file: what decides is
its identifier, its symbol and its place. -/
theorem coversFile_of_mem_scanInline :
    (∀ text, Glob.isMatch text text = true) ∧
    ∀ (path : Path) (content : List Char), ∀ r ∈ (scanInline path content).rules,
      (r.scope = .file ∨ r.scope = .line ∨ ∃ first last, r.scope = .block first last) →
      r.file = some path.text ∧
      ∀ f : Finding, f.location.file.text = path.text →
        r.coversFile f.location.file = true ∧
        r.covers f = (Glob.isMatch r.id f.id && r.coversSymbol f.symbol && r.coversPlace f) := by
  refine ⟨Glob.isMatch_self, fun path content r hr hscope => ?_⟩
  have hfile : r.file = some path.text := by
    have hown := isOwn_of_mem_scanInline hr
    obtain h | h | ⟨first, last, h⟩ := hscope <;> rw [Rule.IsOwn, h] at hown <;> exact hown
  refine ⟨hfile, fun f hf => ?_⟩
  have hcovers : r.coversFile f.location.file = true := by
    rw [Rule.coversFile, hfile, hf]
    exact Glob.isMatch_self path.text
  refine ⟨hcovers, ?_⟩
  rw [Rule.covers, hcovers, Bool.and_true]

/-- A path that reads as a pattern. -/
def starredPath : Path := ⟨"**/a?\\*.c"⟩

/-- The rule that a marker on the first line of that file declares. -/
def starredRule : Rule where
  id := "unusedMacro"
  file := some "**/a?\\*.c"
  lines := .single 1
  scope := .line
  origin := .inline starredPath 1

theorem coversFile_starredRule :
    starredRule ∈ (scanInline starredPath "x; // cppcheck-suppress unusedMacro\n".toList).rules ∧
      starredRule.coversFile starredPath = true := by
  have hmem : starredRule ∈
      (scanInline starredPath "x; // cppcheck-suppress unusedMacro\n".toList).rules := by
    decide +kernel
  obtain ⟨-, hrules⟩ := coversFile_of_mem_scanInline
  obtain ⟨-, hcovers⟩ := hrules starredPath _ starredRule hmem (.inr (.inl rfl))
  have hfinding := hcovers
    { id := "unusedMacro", severity := .style, location := ⟨starredPath, 1, 1⟩, message := "" } rfl
  exact ⟨hmem, hfinding.1⟩

end MacroSweep.Suppression
