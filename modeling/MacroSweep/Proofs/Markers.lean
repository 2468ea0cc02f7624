import MacroSweep.Proofs.Text
import MacroSweep.Suppression.Inline

/-! What a comment adds to the scan of a file. A comment that holds a marker adds the marker, and
any other comment adds no more than a remark or a fault about its form. -/
namespace MacroSweep.Suppression

open MacroSweep.Source Text

variable {path : Path} {line : Line} {after : List Line} {s : InlineState} {c : Comment}
  {m : Marker}

/-- The marker that a comment holds, if it holds a well-formed one. -/
def marker? (c : Comment) : Option Marker := (parseMarker c.text).bind Except.toOption

/-- The first line of a text starts as the text does. -/
theorem head?_trim_headD_lines {a : Char} (cs : List Char) (ha : isBlank a = false) :
    (trim ((lines (a :: cs)).headD [])).head? = some a := by
  have hfeed : (a != '\n') = true := by
    rw [bne_iff_ne]
    rintro rfl
    cases ha
  have hcons : ∀ ds, (trim (a :: ds)).head? = some a := by
    intro ds
    rw [trim, trimStart, List.dropWhile_cons_of_neg (by simp [ha]), trimEnd_cons]
    split <;> simp [ha]
  have hreturn : ∀ ds, ∃ es, dropReturn (a :: ds) = a :: es := by
    intro ds
    unfold dropReturn
    split
    · next hlast =>
      cases ds with
      | nil =>
        cases hlast
        cases ha
      | cons d ds => exact ⟨_, List.dropLast_cons_of_ne_nil (by simp)⟩
    · exact ⟨ds, rfl⟩
  unfold lines
  split
  · simpa using hcons cs
  · obtain ⟨es, hes⟩ := hreturn (cs.takeWhile (· != '\n'))
    simp only [List.takeWhile_cons, hfeed, if_true, List.headD_cons, hes, hcons]

/-- A remark holds no marker. -/
theorem parseMarker_of_remark {text rest : List Char} (h : dropStart? remarkWord text = some rest) :
    parseMarker text = none := by
  cases text with
  | nil => cases h
  | cons a cs =>
    have hremark : remarkWord = 'R' :: "EMARK:".toList := rfl
    have hmarker : markerWord.toList = 'c' :: "ppcheck-suppress".toList := rfl
    rw [hremark, dropStart?] at h
    split at h
    · next hfirst =>
      rw [← hfirst]
      have hhead := head?_trim_headD_lines (a := 'R') cs (by decide)
      obtain ⟨ds, hds⟩ := List.head?_eq_some_iff.mp hhead
      rw [parseMarker, hds, hmarker, dropStart?, if_neg (by decide)]
      rfl
    · cases h

theorem addComment_of_marker (h : marker? c = some m) :
    s.addComment path line after c = s.addMarker path line c.trailing after m := by
  obtain ⟨r, hparse, hr⟩ := Option.bind_eq_some_iff.mp h
  obtain rfl : r = .ok m := by
    cases r with
    | error e => cases hr
    | ok m' => exact congrArg Except.ok (Option.some.inj hr)
  unfold InlineState.addComment
  split
  · next hremark => simp [parseMarker_of_remark hremark] at hparse
  · rw [hparse]

/-- A comment without a marker may set a remark or be reported as malformed. -/
theorem addComment_of_no_marker (h : marker? c = none) (path : Path) (line : Line)
    (after : List Line) (s : InlineState) :
    ∃ remarks remark faults, (∀ f ∈ faults, ∃ e, f.cause = .malformedMarker e) ∧
      s.addComment path line after c =
        { s with scan := { s.scan with remarks, faults := s.scan.faults ++ faults }, remark } := by
  unfold InlineState.addComment
  split
  · split
    · exact ⟨_, s.remark, [], by simp, by rw [List.append_nil]⟩
    · exact ⟨s.scan.remarks, _, [], by simp, by rw [List.append_nil]⟩
  · split
    · exact ⟨s.scan.remarks, s.remark, [], by simp, by rw [List.append_nil]⟩
    · next e _ =>
      exact ⟨s.scan.remarks, s.remark, [⟨.inline path line.number, .malformedMarker e⟩], by simp,
        rfl⟩
    · next m hparse => simp [marker?, hparse, Except.toOption] at h

/-- A run of steps keeps what each of them keeps. -/
theorem foldl_eq_of_step {α β γ : Type} (view : α → γ) {f : α → β → α}
    (h : ∀ a b, view (f a b) = view a) (a : α) (bs : List β) : view (bs.foldl f a) = view a := by
  induction bs generalizing a with
  | nil => rfl
  | cons b bs ih => exact (ih (f a b)).trans (h a b)

namespace InlineState

/-- Faults that are added one after another. -/
theorem scan_foldl_addFault {α : Type} (path : Path) (line : α → Nat) (cause : α → Cause)
    (as : List α) (s : InlineState) :
    (as.foldl (fun s a => s.addFault path (line a) (cause a)) s).scan =
      { s.scan with
        faults := s.scan.faults ++ as.map (fun a => ⟨.inline path (line a), cause a⟩) } := by
  induction as generalizing s with
  | nil => simp
  | cons a as ih =>
    rw [List.foldl_cons, ih]
    simp [addFault]

/-- At the end what still waits is reported. -/
theorem finish_eq (path : Path) (s : InlineState) : s.finish path =
    { s.scan with faults := s.scan.faults ++
        s.waiting.map (fun w => ⟨.inline path w.1, .markerWithoutCode⟩) ++
        s.blocks.toList.flatMap (fun b =>
          b.2.reverse.map fun o => ⟨.inline path o.1, .beginWithoutEnd b.1⟩) } := by
  let report (s : InlineState) (w : Nat × Marker) := s.addFault path w.1 .markerWithoutCode
  have hblocks : (s.waiting.foldl report s).blocks = s.blocks :=
    foldl_eq_of_step InlineState.blocks (f := report) (fun _ _ => rfl) s s.waiting
  have hwaiting := scan_foldl_addFault path (fun w : Nat × Marker => w.1)
    (fun _ => .markerWithoutCode) s.waiting s
  refine (scan_foldl_addFault path (fun b : Nat × String => b.1)
    (fun b => .beginWithoutEnd b.2) _ _).trans ?_
  rw [hwaiting, hblocks, List.map_flatMap]
  simp only [List.map_map, Function.comp_def]

end InlineState

end MacroSweep.Suppression
