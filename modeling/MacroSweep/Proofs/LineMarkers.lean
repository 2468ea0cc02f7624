import MacroSweep.Proofs.Dispatch
import MacroSweep.Proofs.Markers
import Mathlib.Data.List.Perm.Basic

/-! Where markers for single lines land. A marker that trails code covers its own line, and one that
stands alone covers the next line that holds code. -/
namespace MacroSweep.Suppression

open MacroSweep.Source Text
open Walk (Numbered numbered_sourceLines)

variable {path : Path} {l : Line} {before after ls : List Line} {s : InlineState} {c : Comment}
  {m : Marker}

/-- A marker for single lines in its comment, on the line where the comment starts. -/
structure PlainMarker where
  line : Line
  comment : Comment
  marker : Marker

/-- The marker for single lines in a comment, if it holds one. -/
def plainMarker? (c : Comment) : Option Marker := (marker? c).filter (·.kind == .line)

/-- The markers for single lines that start on a line. -/
def plainMarkersOn (l : Line) : List PlainMarker :=
  l.comments.flatMap fun c => (plainMarker? c).toList.map (⟨l, c, ·⟩)

/-- The markers for single lines of a file. -/
def plainMarkers (ls : List Line) : List PlainMarker := ls.flatMap plainMarkersOn

/-- The least line from `n` on that holds code: its comments apart, it is not all blank. -/
def nextCode? (ls : List Line) (n : Nat) : Option Nat :=
  ((ls.filter fun l => n ≤ l.number && l.code.any (!isBlank ·)).map (·.number)).min?

namespace PlainMarker

/-- The lines that a marker covers, given the next line of code. One that trails a lone opening
brace covers the line below too. -/
def lines? (p : PlainMarker) (next? : Option Nat) : Option LineSelector :=
  if p.comment.trailing then
    some (if trim p.line.code = ['\x7b'] then .range p.line.number (p.line.number + 1)
      else .single p.line.number)
  else next?.map .single

/-- The rules of a marker, one for each identifier, if it covers lines at all. -/
def rules (path : Path) (p : PlainMarker) (lines? : Option LineSelector) : List Rule :=
  lines?.toList.flatMap fun lines => p.marker.ids.map fun id =>
    { id, file := some path.text, lines, symbol := p.marker.symbol, scope := .line
      origin := .inline path p.line.number }

/-- The rules that a marker declares for its own line. -/
def ownRules (path : Path) (p : PlainMarker) : List Rule :=
  if p.comment.trailing then p.rules path (p.lines? none) else []

/-- The entry of a marker that has to wait for code. -/
def pending (p : PlainMarker) : List (Nat × Marker) :=
  if p.comment.trailing then [] else [(p.line.number, p.marker)]

end PlainMarker

/-- What a scan holds of markers for single lines: their rules, those that wait for code, and the
faults about those that met none. -/
structure LineView where
  rules : List Rule
  waiting : List (Nat × Marker)
  faults : List Fault

def InlineState.lineView (s : InlineState) : LineView where
  rules := s.scan.rules.filter (·.scope == .line)
  waiting := s.waiting
  faults := s.scan.faults.filter (·.cause == .markerWithoutCode)

/-- The rules of waiting markers once the next line of code is known. -/
def landing (path : Path) (next? : Option Nat) (waiting : List (Nat × Marker)) : List Rule :=
  waiting.flatMap fun w => next?.toList.flatMap fun n => w.2.rules path w.1 .line (.single n)

theorem landing_append (path : Path) (next? : Option Nat) (v w : List (Nat × Marker)) :
    landing path next? (v ++ w) = landing path next? v ++ landing path next? w :=
  List.flatMap_append

theorem filter_rules_line (path : Path) (n : Nat) (lines : LineSelector) (m : Marker) :
    (m.rules path n .line lines).filter (·.scope == .line) = m.rules path n .line lines := by
  rw [List.filter_eq_self]
  intro rule hrule
  obtain ⟨id, -, rfl⟩ := List.mem_map.mp hrule
  rfl

theorem filter_rules_of_ne {scope : Scope} (hscope : scope ≠ .line) (path : Path) (n : Nat)
    (lines : LineSelector) (m : Marker) :
    (m.rules path n scope lines).filter (·.scope == .line) = [] := by
  simp [Marker.rules, hscope]

namespace InlineState

theorem lineView_addRules (s : InlineState) (rules : List Rule) : (s.addRules rules).lineView =
    { s.lineView with rules := s.lineView.rules ++ rules.filter (·.scope == .line) } := by
  simp [lineView, addRules]

theorem lineView_addFault {cause : Cause} (h : cause ≠ .markerWithoutCode) (path : Path) (n : Nat)
    (s : InlineState) : (s.addFault path n cause).lineView = s.lineView := by
  simp [lineView, addFault, h]

theorem lineView_closeBlock (path : Path) (n : Nat) (s : InlineState) (id : String) :
    (s.closeBlock path n id).lineView = s.lineView := by
  unfold closeBlock
  split
  · exact lineView_addFault (by simp) ..
  · rw [lineView_addRules, filter_rules_of_ne (by simp), List.append_nil]
    rfl

/-- Markers of other kinds leave those for single lines alone. -/
theorem lineView_addMarker_of_ne (hkind : m.kind ≠ .line) (trailing : Bool) :
    (s.addMarker path l trailing after m).lineView = s.lineView := by
  unfold addMarker
  split
  · exact absurd ‹_› hkind
  · rw [lineView_addRules, filter_rules_of_ne (by simp), List.append_nil]
  · exact foldl_eq_of_step lineView (f := openBlock l.number m.symbol) (fun _ _ => rfl) s m.ids
  · exact foldl_eq_of_step lineView (lineView_closeBlock path l.number) s m.ids
  · split
    · rw [lineView_addRules, filter_rules_of_ne (by simp), List.append_nil]
    · exact lineView_addFault (by simp) ..

/-- A marker adds its rules if it trails code, and else waits. -/
theorem lineView_addMarker (hkind : m.kind = .line) :
    (s.addMarker path l c.trailing after m).lineView = { s.lineView with
      rules := s.lineView.rules ++ PlainMarker.ownRules path ⟨l, c, m⟩
      waiting := s.lineView.waiting ++ PlainMarker.pending ⟨l, c, m⟩ } := by
  cases htrailing : c.trailing with
  | true =>
    simp only [addMarker, hkind, if_true, lineView_addRules, filter_rules_line,
      PlainMarker.ownRules, PlainMarker.pending, PlainMarker.lines?, htrailing, List.append_nil]
    simp [Marker.rules, PlainMarker.rules]
  | false => simp [addMarker, hkind, lineView, PlainMarker.ownRules, PlainMarker.pending, htrailing]

/-- A comment without a marker for single lines leaves them alone. -/
theorem lineView_addComment_of_none (h : plainMarker? c = none) :
    (s.addComment path l after c).lineView = s.lineView := by
  cases hmarker : marker? c with
  | none =>
    obtain ⟨remarks, remark, faults, hfaults, heq⟩ := addComment_of_no_marker hmarker path l after s
    have hnone : faults.filter (·.cause == .markerWithoutCode) = [] := by
      rw [List.filter_eq_nil_iff]
      intro f hf
      obtain ⟨e, he⟩ := hfaults f hf
      simp [he]
    simp [heq, lineView, hnone]
  | some m =>
    have hkind : m.kind ≠ .line := by
      intro hkind
      simp [plainMarker?, hmarker, hkind] at h
    rw [addComment_of_marker hmarker, lineView_addMarker_of_ne hkind]

theorem lineView_addComment : (s.addComment path l after c).lineView = { s.lineView with
    rules := s.lineView.rules ++
      ((plainMarker? c).toList.map (⟨l, c, ·⟩)).flatMap (PlainMarker.ownRules path)
    waiting := s.lineView.waiting ++
      ((plainMarker? c).toList.map (⟨l, c, ·⟩)).flatMap PlainMarker.pending } := by
  cases hplain : plainMarker? c with
  | none => simp [lineView_addComment_of_none hplain]
  | some m =>
    obtain ⟨hmarker, hkind⟩ := Option.filter_eq_some_iff.mp hplain
    rw [addComment_of_marker hmarker, lineView_addMarker (beq_iff_eq.mp hkind)]
    simp

/-- The comments of a line add their markers in order. -/
theorem lineView_addComments (path : Path) (l : Line) (after : List Line) (s : InlineState) :
    (l.comments.foldl (addComment path l after) s).lineView = { s.lineView with
      rules := s.lineView.rules ++ (plainMarkersOn l).flatMap (PlainMarker.ownRules path)
      waiting := s.lineView.waiting ++ (plainMarkersOn l).flatMap PlainMarker.pending } := by
  unfold plainMarkersOn
  generalize l.comments = cs
  induction cs generalizing s with
  | nil => simp
  | cons c cs ih =>
    rw [List.foldl_cons, ih, lineView_addComment]
    simp

theorem lineView_meetCode (path : Path) (n : Nat) (s : InlineState) :
    (s.meetCode path n).lineView = { s.lineView with
      rules := s.lineView.rules ++ landing path (some n) s.lineView.waiting
      waiting := [] } := by
  simp [lineView, meetCode, landing, List.filter_flatMap, filter_rules_line]

end InlineState

theorem hasCode_eq_any (l : Line) : l.hasCode = l.code.any (!isBlank ·) := by
  rw [Line.hasCode, allBlank, List.not_all_eq_any_not]

/-- The number of the first line that holds code. -/
def firstCode? (ls : List Line) : Option Nat := (ls.find? Line.hasCode).map (·.number)

theorem firstCode?_cons (l : Line) (after : List Line) :
    firstCode? (l :: after) = if l.hasCode then some l.number else firstCode? after := by
  cases hcode : l.hasCode <;> simp [firstCode?, hcode]

/-- Lines are numbered upwards, so the next line of code is the first from there on. -/
theorem nextCode?_eq_firstCode? (h : Numbered (before ++ l :: after)) :
    nextCode? (before ++ l :: after) l.number = firstCode? (l :: after) := by
  obtain ⟨-, hlater, hbefore⟩ := List.pairwise_append.mp h
  have hnone : (before.filter fun k => l.number ≤ k.number && k.code.any (!isBlank ·)) = [] := by
    rw [List.filter_eq_nil_iff]
    intro k hk
    have hlt := hbefore k hk l List.mem_cons_self
    simp [Nat.not_le.mpr hlt]
  have hall : ((l :: after).filter fun k => l.number ≤ k.number && k.code.any (!isBlank ·)) =
      (l :: after).filter Line.hasCode := by
    refine List.filter_congr fun k hk => ?_
    have hle : l.number ≤ k.number := by
      rcases List.mem_cons.mp hk with rfl | hk
      · exact Nat.le_refl _
      · exact Nat.le_of_lt ((List.pairwise_cons.mp hlater).1 k hk)
    rw [hasCode_eq_any, decide_eq_true hle, Bool.true_and]
  have hsorted : (((l :: after).filter Line.hasCode).map (·.number)).Pairwise
      fun a b => min a b = a := by
    rw [List.pairwise_map]
    exact (hlater.filter _).imp fun hlt => Nat.min_eq_left (Nat.le_of_lt hlt)
  rw [nextCode?, List.filter_append, hnone, List.nil_append, hall, List.min?_eq_head? hsorted,
    List.head?_map, List.head?_filter, firstCode?]

/-- Markers cover lines by themselves or once they have waited. -/
theorem ownRules_append_landing_perm (path : Path) (next? : Option Nat) (ps : List PlainMarker) :
    (ps.flatMap (PlainMarker.ownRules path) ++
      landing path next? (ps.flatMap PlainMarker.pending)).Perm
        (ps.flatMap fun p => p.rules path (p.lines? next?)) := by
  rw [landing, List.flatMap_assoc]
  refine (List.flatMap_append_perm ps _ _).trans (.of_eq (List.flatMap_congr fun p _ => ?_))
  cases htrailing : p.comment.trailing with
  | true => simp [PlainMarker.ownRules, PlainMarker.pending, PlainMarker.lines?, htrailing]
  | false =>
    cases next? <;> simp [PlainMarker.ownRules, PlainMarker.pending, PlainMarker.lines?,
      PlainMarker.rules, Marker.rules, htrailing]

/-- A line adds its markers to those that wait, and if it holds code, all of them land. -/
theorem lineView_addLine (path : Path) (s : InlineState) (l : Line) (after : List Line) :
    let t := l.comments.foldl (InlineState.addComment path l after) s
    let t := if l.hasCode then t.meetCode path l.number else t
    let waiting := s.waiting ++ (plainMarkersOn l).flatMap PlainMarker.pending
    (t.lineView.rules ++ landing path (firstCode? after) t.waiting =
        s.lineView.rules ++ (plainMarkersOn l).flatMap (PlainMarker.ownRules path) ++
          landing path (firstCode? (l :: after)) waiting) ∧
      t.waiting = (if l.hasCode then [] else waiting) ∧
      t.lineView.faults = s.lineView.faults := by
  intro t t' waiting
  have ht : t.lineView = _ := InlineState.lineView_addComments path l after s
  have hwaiting : t.waiting = waiting := congrArg LineView.waiting ht
  rw [firstCode?_cons]
  cases hcode : l.hasCode with
  | true =>
    have ht' : t' = t.meetCode path l.number := by simp [t', hcode]
    have hnone : t'.waiting = [] := by rw [ht']; rfl
    rw [hnone, ht', InlineState.lineView_meetCode, ht]
    exact ⟨List.append_nil _, rfl, rfl⟩
  | false =>
    have ht' : t' = t := by simp [t', hcode]
    rw [ht', hwaiting, ht]
    exact ⟨rfl, rfl, rfl⟩

/-- Seen from the whole file, the markers on a line land on the least line of code from there on. -/
theorem lines?_eq_of_mem {p : PlainMarker} (h : Numbered (before ++ l :: after))
    (hp : p ∈ plainMarkersOn l) : p.lines? (nextCode? (before ++ l :: after) p.line.number) =
      p.lines? (firstCode? (l :: after)) := by
  obtain ⟨c, -, hp⟩ := List.mem_flatMap.mp hp
  obtain ⟨m, -, rfl⟩ := List.mem_map.mp hp
  rw [nextCode?_eq_firstCode? h]

/-- The markers on a line that cover no line are those that wait while no code follows. -/
theorem pending_of_isNone (next? : Option Nat) (ps : List PlainMarker) :
    ((ps.filter fun p => (p.lines? next?).isNone).map fun p => (p.line.number, p.marker)) =
      if next?.isSome then [] else ps.flatMap PlainMarker.pending := by
  induction ps with
  | nil => simp
  | cons p ps ih =>
    rw [List.flatMap_cons, List.filter_cons]
    cases next? <;> cases htrailing : p.comment.trailing <;>
      simp_all [PlainMarker.lines?, PlainMarker.pending]

/-- After all lines the markers that waited at the start have landed on the first line of code, and
each further marker on the lines it covers; those that cover none still wait. -/
theorem lineView_addLines (path : Path) (s : InlineState) (before ls : List Line)
    (h : Numbered (before ++ ls)) :
    let t := InlineState.addLines path s ls
    let lines? (p : PlainMarker) := p.lines? (nextCode? (before ++ ls) p.line.number)
    t.lineView.rules.Perm (s.lineView.rules ++ landing path (firstCode? ls) s.waiting ++
        (plainMarkers ls).flatMap fun p => p.rules path (lines? p)) ∧
      t.waiting = (if (firstCode? ls).isSome then [] else s.waiting) ++
        ((plainMarkers ls).filter fun p => (lines? p).isNone).map
          (fun p => (p.line.number, p.marker)) ∧
      t.lineView.faults = s.lineView.faults := by
  induction ls generalizing s before with
  | nil =>
    have hnone : landing path none s.waiting = [] := by simp [landing]
    refine ⟨?_, ?_, rfl⟩
    · simp [InlineState.addLines, firstCode?, hnone, plainMarkers]
    · simp [InlineState.addLines, firstCode?, plainMarkers]
  | cons l after ih =>
    intro t lines?
    obtain ⟨hrules, hwaiting, hfaults⟩ := lineView_addLine path s l after
    generalize hu : (if l.hasCode then
      (l.comments.foldl (InlineState.addComment path l after) s).meetCode path l.number
      else l.comments.foldl (InlineState.addComment path l after) s) = u at hrules hwaiting hfaults
    have ht : t = InlineState.addLines path u after := by
      rw [← hu]
      exact InlineState.addLines.eq_2 ..
    have hmarkers : plainMarkers (l :: after) = plainMarkersOn l ++ plainMarkers after := rfl
    have hfirst : ∀ p ∈ plainMarkersOn l, lines? p = p.lines? (firstCode? (l :: after)) :=
      fun p hp => lines?_eq_of_mem h hp
    have hall : before ++ [l] ++ after = before ++ l :: after := by simp
    obtain ⟨ihrules, ihwaiting, ihfaults⟩ := ih u (before ++ [l]) (hall ▸ h)
    rw [← ht, hall] at ihrules ihwaiting
    rw [← ht] at ihfaults
    refine ⟨?_, ?_, ihfaults.trans hfaults⟩
    · have hown := ownRules_append_landing_perm path (firstCode? (l :: after)) (plainMarkersOn l)
      have hhere : ((plainMarkersOn l).flatMap fun p => p.rules path (lines? p)) =
          (plainMarkersOn l).flatMap fun p => p.rules path (p.lines? (firstCode? (l :: after))) :=
        List.flatMap_congr fun p hp => by rw [hfirst p hp]
      rw [hrules, landing_append] at ihrules
      rw [hmarkers, List.flatMap_append, hhere, ← List.append_assoc]
      refine ihrules.trans (List.Perm.append_right _ ?_)
      rw [List.append_assoc, List.append_assoc]
      refine List.Perm.append_left _ ?_
      exact (List.perm_append_comm_assoc ..).trans (hown.append_left _)
    · have hhere : ((plainMarkersOn l).filter fun p => (lines? p).isNone) =
          (plainMarkersOn l).filter fun p => (p.lines? (firstCode? (l :: after))).isNone :=
        List.filter_congr fun p hp => by rw [hfirst p hp]
      rw [ihwaiting, hwaiting, hmarkers, List.filter_append, List.map_append, hhere,
        pending_of_isNone, firstCode?_cons]
      cases l.hasCode with
      | true => simp [lines?]
      | false => by_cases hfound : (firstCode? after).isSome <;> simp [hfound, lines?]

/-- At the end, each marker that still waits is reported. -/
theorem filter_faults_finish (path : Path) (s : InlineState) :
    (s.finish path).faults.filter (·.cause == .markerWithoutCode) =
      s.lineView.faults ++ s.waiting.map fun w => ⟨.inline path w.1, .markerWithoutCode⟩ := by
  have hwaiting : (s.waiting.map fun w =>
      (⟨.inline path w.1, .markerWithoutCode⟩ : Fault)).filter (·.cause == .markerWithoutCode) =
        s.waiting.map fun w => ⟨.inline path w.1, .markerWithoutCode⟩ := by
    simp [List.filter_map, Function.comp_def]
  have hblocks : (s.blocks.toList.flatMap fun b => b.2.reverse.map fun o =>
      (⟨.inline path o.1, .beginWithoutEnd b.1⟩ : Fault)).filter
        (·.cause == .markerWithoutCode) = [] := by
    rw [List.filter_eq_nil_iff]
    intro f hf
    obtain ⟨b, -, hf⟩ := List.mem_flatMap.mp hf
    obtain ⟨o, -, rfl⟩ := List.mem_map.mp hf
    simp
  rw [InlineState.finish_eq, List.filter_append, List.filter_append, hwaiting, hblocks,
    List.append_nil]
  rfl

/-- The rules for single lines of a scan are those of the markers for single lines, one for each
identifier: a marker that trails code covers its line, with the line below if its code is a lone
opening brace, and any other covers the least line from its own on that holds code. A marker that no
code follows gives no rule, and one fault for its line. Nothing else gives a rule for single lines
or such a fault. -/
theorem line_rules_scanInline (path : Path) (content : List Char) :
    let ls := sourceLines content
    let scan := scanInline path content
    let lines? (p : PlainMarker) := p.lines? (nextCode? ls p.line.number)
    (scan.rules.filter (·.scope == .line)).Perm
        ((plainMarkers ls).flatMap fun p => p.rules path (lines? p)) ∧
      scan.faults.filter (·.cause == .markerWithoutCode) =
        ((plainMarkers ls).filter fun p => (lines? p).isNone).map fun p =>
          ⟨.inline path p.line.number, .markerWithoutCode⟩ := by
  intro ls scan lines?
  obtain ⟨hrules, hwaiting, hfaults⟩ :=
    lineView_addLines path {} [] ls (numbered_sourceLines content)
  constructor
  · have hscan : scan = _ := InlineState.finish_eq path (InlineState.addLines path {} ls)
    rw [hscan]
    exact hrules
  · have hnone : (InlineState.addLines path {} ls).lineView.faults = [] := hfaults
    have hleft : (InlineState.addLines path {} ls).waiting = ((plainMarkers ls).filter fun p =>
        (lines? p).isNone).map fun p => (p.line.number, p.marker) := by
      rw [hwaiting]
      simp [lines?]
    have hscan : scan.faults.filter (·.cause == .markerWithoutCode) = _ :=
      filter_faults_finish path (InlineState.addLines path {} ls)
    rw [hscan, hnone, hleft, List.nil_append, List.map_map]
    rfl

end MacroSweep.Suppression
