import MacroSweep.Proofs.BlockPairs
import MacroSweep.Proofs.Dispatch
import MacroSweep.Proofs.Glob
import MacroSweep.Proofs.Markers
import MacroSweep.Proofs.Ordered
import Mathlib.Data.List.Perm.Basic

/-! Blocks between begin and end markers. The scan of a file keeps the open begins of each
identifier on a stack, and so declares a rule for each begin and end that belong together. -/
namespace MacroSweep.Suppression

open MacroSweep.Source Text
open Walk (Numbered numbered_sourceLines)

variable {path : Path} {l : Line} {after ls : List Line} {s : InlineState} {c : Comment}
  {m : Marker} {marks : List BlockMark} {n : Nat} {id : String}

/-- The begins or ends of a marker on line `n`, one for each identifier. -/
def blockMarksOf (n : Nat) (m : Marker) : List BlockMark :=
  match m.kind with
  | .opening => m.ids.map (⟨n, ·, true, m.symbol⟩)
  | .closing => m.ids.map (⟨n, ·, false, m.symbol⟩)
  | _ => []

/-- The begins and ends of a file in order. -/
def blockMarks (ls : List Line) : List BlockMark :=
  ls.flatMap fun l => l.comments.flatMap fun c => (marker? c).toList.flatMap (blockMarksOf l.number)

/-- Whether a rule covers a block. -/
def isBlock (r : Rule) : Bool :=
  match r.scope with
  | .block _ _ => true
  | _ => false

/-- Whether a fault is about a begin or an end that stands alone. -/
def isBlockFault (f : Fault) : Bool :=
  match f.cause with
  | .endWithoutBegin _ => true
  | .beginWithoutEnd _ => true
  | _ => false

/-- The rule of a begin and its end: it spans their lines and has the symbol filter of the begin. -/
def blockRule (path : Path) (b e : BlockMark) : Rule where
  id := b.id
  file := some path.text
  symbol := b.symbol
  scope := .block b.line e.line
  origin := .inline path b.line

def endFault (path : Path) (e : BlockMark) : Fault := ⟨.inline path e.line, .endWithoutBegin e.id⟩

def beginFault (path : Path) (b : BlockMark) : Fault := ⟨.inline path b.line, .beginWithoutEnd b.id⟩

/-- Markers of other kinds declare no blocks. -/
theorem filter_isBlock_rules {scope : Scope} (hscope : ∀ first last, scope ≠ .block first last)
    (path : Path) (n : Nat) (lines : LineSelector) (m : Marker) :
    (m.rules path n scope lines).filter isBlock = [] := by
  rw [List.filter_eq_nil_iff]
  intro r hr
  obtain ⟨id, -, rfl⟩ := List.mem_map.mp hr
  cases scope with
  | block first last => exact absurd rfl (hscope first last)
  | global | line | file | expansion => simp [isBlock]

/-- A begin as the scan keeps it until its end comes. -/
def openBlockOf (b : BlockMark × Nat) : OpenBlock := (b.1.line, b.1.symbol)

/-- What a scan has of blocks once the given begins and ends are read. -/
structure Tracks (path : Path) (s : InlineState) (marks : List BlockMark) : Prop where
  blocks : ∀ id, (s.blocks.find? id).getD [] = (openBegins id marks).map openBlockOf
  rules : s.scan.rules.filter isBlock = (pairs marks).map fun p => blockRule path p.1.1 p.2.1
  faults : s.scan.faults.filter isBlockFault = (loneEnds marks).map fun e => endFault path e.1

namespace Tracks

theorem nil (path : Path) : Tracks path {} [] where
  blocks _ := rfl
  rules := rfl
  faults := rfl

/-- What has nothing to do with blocks changes nothing of them. -/
theorem of_eq {t : InlineState} (h : Tracks path s marks) (hblocks : t.blocks = s.blocks)
    (hrules : t.scan.rules.filter isBlock = s.scan.rules.filter isBlock)
    (hfaults : t.scan.faults.filter isBlockFault = s.scan.faults.filter isBlockFault) :
    Tracks path t marks where
  blocks id := hblocks ▸ h.blocks id
  rules := hrules.trans h.rules
  faults := hfaults.trans h.faults

theorem addRules {rules : List Rule} (h : Tracks path s marks)
    (hrules : rules.filter isBlock = []) : Tracks path (s.addRules rules) marks :=
  h.of_eq rfl (by simp [InlineState.addRules, hrules]) rfl

theorem addFault {cause : Cause} (h : Tracks path s marks)
    (hcause : isBlockFault ⟨.inline path n, cause⟩ = false) :
    Tracks path (s.addFault path n cause) marks :=
  h.of_eq rfl rfl (by simp [InlineState.addFault, hcause])

/-- A mark touches the stack of its own identifier only. -/
theorem find?_insert {b : BlockMark} {stack : List OpenBlock} (h : Tracks path s marks)
    (hstack : stack = (openBegins b.id (marks ++ [b])).map openBlockOf) (id : String) :
    ((s.blocks.insert b.id stack).find? id).getD [] =
      (openBegins id (marks ++ [b])).map openBlockOf := by
  by_cases hid : id = b.id
  · subst hid
    simp [SortedMap.find?_insert, hstack]
  · rw [openBegins_snoc_of_ne (Ne.symm hid), ← h.blocks]
    simp [SortedMap.find?_insert, hid]

/-- A begin is put on the stack of its identifier. -/
theorem openBlock (h : Tracks path s marks) (n : Nat) (symbol : Option String) (id : String) :
    Tracks path (s.openBlock n symbol id) (marks ++ [⟨n, id, true, symbol⟩]) where
  blocks := by
    refine h.find?_insert (b := ⟨n, id, true, symbol⟩) ?_
    rw [openBegins_snoc_of_opens rfl, List.map_cons, h.blocks]
    rfl
  rules := by
    rw [pairs_snoc, partners_of_opens rfl, List.map_nil, List.append_nil]
    exact h.rules
  faults := by
    rw [loneEnds_snoc, if_neg (by simp), List.append_nil]
    exact h.faults

/-- An end takes the begin on top of the stack of its identifier, or is reported. -/
theorem closeBlock (h : Tracks path s marks) (n : Nat) (symbol : Option String) (id : String) :
    Tracks path (s.closeBlock path n id) (marks ++ [⟨n, id, false, symbol⟩]) := by
  let e : BlockMark := ⟨n, id, false, symbol⟩
  have hclose : openBegins id (marks ++ [e]) = (openBegins id marks).tail :=
    openBegins_snoc_of_closes (m := e) (stacked_openBegins id marks) rfl
  have hpartners : partners marks e = (openBegins id marks).head?.toList := partners_of_closes rfl
  have hblocks := h.blocks id
  cases hstack : openBegins id marks with
  | nil =>
    rw [hstack] at hclose hpartners hblocks
    have hstep : s.closeBlock path n id = s.addFault path n (.endWithoutBegin id) := by
      rw [InlineState.closeBlock, hblocks]
      rfl
    rw [hstep]
    refine ⟨fun other => ?_, ?_, ?_⟩
    · by_cases hid : other = id
      · subst hid
        rw [hclose]
        exact hblocks
      · rw [openBegins_snoc_of_ne (Ne.symm hid)]
        exact h.blocks other
    · rw [pairs_snoc, hpartners]
      simpa [InlineState.addFault] using h.rules
    · rw [loneEnds_snoc, hpartners, if_pos (by simp), List.map_append, ← h.faults]
      simp [InlineState.addFault, isBlockFault, endFault]
  | cons b outer =>
    rw [hstack] at hclose hpartners hblocks
    have hid : b.1.id = id := (mem_openBegins.mp (hstack ▸ List.mem_cons_self)).2.2.1
    have hstep : s.closeBlock path n id =
        { s with blocks := s.blocks.insert id (outer.map openBlockOf) }.addRules
          [blockRule path b.1 e] := by
      rw [InlineState.closeBlock, hblocks]
      simp [Marker.rules, blockRule, openBlockOf, hid, e]
    rw [hstep]
    refine ⟨h.find?_insert (b := e) (by rw [hclose]; rfl), ?_, ?_⟩
    · rw [pairs_snoc, hpartners, List.map_append, ← h.rules]
      simp [InlineState.addRules, isBlock, blockRule, e]
    · rw [loneEnds_snoc, hpartners, if_neg (by simp), List.append_nil]
      exact h.faults

/-- What each item of a list adds, the list adds in order. -/
theorem foldl {α : Type} {f : InlineState → α → InlineState} {g : α → List BlockMark}
    (step : ∀ (s : InlineState) (marks : List BlockMark) (a : α),
      Tracks path s marks → Tracks path (f s a) (marks ++ g a))
    (as : List α) (h : Tracks path s marks) :
    Tracks path (as.foldl f s) (marks ++ as.flatMap g) := by
  induction as generalizing s marks with
  | nil => simpa using h
  | cons a as ih =>
    rw [List.foldl_cons, List.flatMap_cons, ← List.append_assoc]
    exact ih (step s marks a h)

theorem addMarker (h : Tracks path s marks) (l : Line) (trailing : Bool) (after : List Line)
    (m : Marker) :
    Tracks path (s.addMarker path l trailing after m) (marks ++ blockMarksOf l.number m) := by
  rw [InlineState.addMarker, blockMarksOf]
  cases hkind : m.kind with
  | line =>
    rw [List.append_nil]
    dsimp only
    split
    · exact h.addRules (filter_isBlock_rules (by simp) ..)
    · exact h.of_eq rfl rfl rfl
  | file =>
    rw [List.append_nil]
    exact h.addRules (filter_isBlock_rules (by simp) ..)
  | opening =>
    dsimp only
    rw [List.map_eq_flatMap]
    exact foldl (fun s marks id h => h.openBlock l.number m.symbol id) m.ids h
  | closing =>
    dsimp only
    rw [List.map_eq_flatMap]
    exact foldl (fun s marks id h => h.closeBlock l.number m.symbol id) m.ids h
  | expansion =>
    rw [List.append_nil]
    dsimp only
    split
    · exact h.addRules (filter_isBlock_rules (by simp) ..)
    · exact h.addFault rfl

theorem addComment (h : Tracks path s marks) (l : Line) (after : List Line) (c : Comment) :
    Tracks path (s.addComment path l after c)
      (marks ++ (marker? c).toList.flatMap (blockMarksOf l.number)) := by
  cases hm : marker? c with
  | some m =>
    rw [addComment_of_marker hm, Option.toList_some, List.flatMap_singleton]
    exact h.addMarker l c.trailing after m
  | none =>
    obtain ⟨remarks, remark, faults, hfaults, hstep⟩ := addComment_of_no_marker hm path l after s
    rw [hstep, Option.toList_none, List.flatMap_nil, List.append_nil]
    have hnone : faults.filter isBlockFault = [] := by
      rw [List.filter_eq_nil_iff]
      intro f hf
      obtain ⟨e, he⟩ := hfaults f hf
      simp [isBlockFault, he]
    exact h.of_eq rfl rfl (by rw [List.filter_append, hnone, List.append_nil])

/-- A line of code takes no block rules. -/
theorem meetCode (h : Tracks path s marks) (n : Nat) : Tracks path (s.meetCode path n) marks := by
  refine h.of_eq rfl ?_ rfl
  have hnone : (s.waiting.flatMap fun w => w.2.rules path w.1 .line (.single n)).filter isBlock =
      [] := by
    rw [List.filter_flatMap, List.flatMap_eq_nil_iff]
    exact fun w _ => filter_isBlock_rules (by simp) ..
  rw [InlineState.meetCode, List.filter_append, hnone, List.append_nil]

theorem addLines (h : Tracks path s marks) (ls : List Line) :
    Tracks path (s.addLines path ls) (marks ++ blockMarks ls) := by
  induction ls generalizing s marks with
  | nil => simpa [InlineState.addLines, blockMarks] using h
  | cons l after ih =>
    have hline := foldl (fun s marks c h => h.addComment l after c) l.comments h
    rw [InlineState.addLines, blockMarks, List.flatMap_cons, ← List.append_assoc]
    refine ih ?_
    split
    · exact hline.meetCode l.number
    · exact hline

end Tracks

/-- Grouping a list by keys that cover it only reorders it. -/
theorem flatMap_filter_perm {α κ : Type} [DecidableEq κ] (f : α → κ) {keys : List κ} {l : List α}
    (hkeys : keys.Nodup) (hl : ∀ a ∈ l, f a ∈ keys) :
    (keys.flatMap fun k => l.filter (f · == k)).Perm l := by
  induction keys generalizing l with
  | nil =>
    obtain rfl : l = [] := List.eq_nil_iff_forall_not_mem.mpr fun a ha => nomatch hl a ha
    exact .nil
  | cons k keys ih =>
    obtain ⟨hk, hkeys⟩ := List.nodup_cons.mp hkeys
    have hrest := ih (l := l.filter (f · != k)) hkeys fun a ha => by
      obtain ⟨ha, hne⟩ := List.mem_filter.mp ha
      exact (List.mem_cons.mp (hl a ha)).resolve_left (by simpa using hne)
    have hsame : (keys.flatMap fun k' => (l.filter (f · != k)).filter (f · == k')) =
        keys.flatMap fun k' => l.filter (f · == k') := by
      refine List.flatMap_congr fun k' hk' => ?_
      rw [List.filter_filter]
      refine List.filter_congr fun a _ => ?_
      by_cases ha : f a = k'
      · have hne : k' ≠ k := fun h => hk (h ▸ hk')
        simp [ha, hne]
      · simp [ha]
    rw [hsame] at hrest
    rw [List.flatMap_cons]
    exact (hrest.append_left _).trans (List.filter_append_perm (f · == k) l)

/-- The stacks that are left over hold the begins without an end. -/
theorem Tracks.openFaults_perm (h : Tracks path s marks) :
    (s.blocks.toList.flatMap fun b =>
      b.2.reverse.map fun o => (⟨.inline path o.1, .beginWithoutEnd b.1⟩ : Fault)).Perm
      ((loneBegins marks).map fun b => beginFault path b.1) := by
  have hstack : ∀ b ∈ s.blocks.toList,
      (b.2.reverse.map fun o => (⟨.inline path o.1, .beginWithoutEnd b.1⟩ : Fault)) =
        ((loneBegins marks).filter (·.1.id == b.1)).map fun b => beginFault path b.1 := by
    intro b hb
    have hfind := h.blocks b.1
    rw [SortedMap.mem_toList_iff.mp hb, Option.getD_some] at hfind
    rw [hfind, openBegins, List.map_reverse (f := openBlockOf), List.reverse_reverse, List.map_map]
    refine List.map_congr_left fun o ho => ?_
    have hid : o.1.id = b.1 := by simpa using (List.mem_filter.mp ho).2
    simp [beginFault, openBlockOf, hid]
  have hkeys : (s.blocks.toList.map (·.1)).Nodup := by
    rw [List.nodup_iff_pairwise_ne, List.pairwise_map]
    refine s.blocks.increasing.imp fun hlt heq => ?_
    rw [heq, Std.ReflOrd.compare_self] at hlt
    cases hlt
  have hcover : ∀ b ∈ loneBegins marks, b.1.id ∈ s.blocks.toList.map (·.1) := by
    intro b hb
    have hopen : b ∈ openBegins b.1.id marks := by
      simpa [openBegins] using hb
    have hfind := h.blocks b.1.id
    cases hmap : s.blocks.find? b.1.id with
    | none =>
      rw [hmap, Option.getD_none, eq_comm, List.map_eq_nil_iff] at hfind
      rw [hfind] at hopen
      cases hopen
    | some stack =>
      exact List.mem_map.mpr ⟨(b.1.id, stack), SortedMap.mem_toList_iff.mpr hmap, rfl⟩
  rw [List.flatMap_congr hstack]
  have hgroup := flatMap_filter_perm (fun b : BlockMark × Nat => b.1.id) hkeys hcover
  rw [List.flatMap_map] at hgroup
  rw [← List.map_flatMap]
  exact hgroup.map _

/-- At the end, the begins that are still open are reported. -/
theorem Tracks.faults_finish (h : Tracks path s marks) :
    ((s.finish path).faults.filter isBlockFault).Perm
      ((loneEnds marks).map (fun e => endFault path e.1) ++
        (loneBegins marks).map (fun b => beginFault path b.1)) := by
  have hwaiting : (s.waiting.map fun w =>
      (⟨.inline path w.1, .markerWithoutCode⟩ : Fault)).filter isBlockFault = [] := by
    rw [List.filter_eq_nil_iff, List.forall_mem_map]
    exact fun _ _ => nofun
  have hopen : (s.blocks.toList.flatMap fun b => b.2.reverse.map fun o =>
      (⟨.inline path o.1, .beginWithoutEnd b.1⟩ : Fault)).filter isBlockFault =
        s.blocks.toList.flatMap fun b => b.2.reverse.map fun o =>
          ⟨.inline path o.1, .beginWithoutEnd b.1⟩ := by
    rw [List.filter_eq_self]
    intro f hf
    obtain ⟨b, -, hf⟩ := List.mem_flatMap.mp hf
    obtain ⟨o, -, rfl⟩ := List.mem_map.mp hf
    rfl
  rw [InlineState.finish_eq, List.filter_append, List.filter_append, h.faults, hwaiting, hopen,
    List.append_nil]
  exact h.openFaults_perm.append_left _

theorem line_of_mem_blockMarksOf {b : BlockMark} (h : b ∈ blockMarksOf n m) : b.line = n := by
  rw [blockMarksOf] at h
  split at h
  · obtain ⟨id, -, rfl⟩ := List.mem_map.mp h
    rfl
  · obtain ⟨id, -, rfl⟩ := List.mem_map.mp h
    rfl
  · cases h

/-- Marks stand in the order of their lines. -/
theorem pairwise_blockMarks (h : Numbered ls) :
    (blockMarks ls).Pairwise fun a b => a.line ≤ b.line := by
  have hline : ∀ (l : Line) (b : BlockMark),
      (b ∈ l.comments.flatMap fun c => (marker? c).toList.flatMap (blockMarksOf l.number)) →
        b.line = l.number := by
    intro l b hb
    obtain ⟨c, -, hb⟩ := List.mem_flatMap.mp hb
    obtain ⟨m, -, hb⟩ := List.mem_flatMap.mp hb
    exact line_of_mem_blockMarksOf hb
  rw [blockMarks, List.pairwise_flatMap]
  constructor
  · intro l _
    refine List.pairwise_of_forall_mem_list fun a ha b hb => ?_
    rw [hline l a ha, hline l b hb]
  · refine h.imp fun {l k} hlt a ha b hb => ?_
    rw [hline l a ha, hline k b hb]
    exact Nat.le_of_lt hlt

/-- A begin is not below its end. -/
theorem line_le_of_mem_pairs {p : (BlockMark × Nat) × (BlockMark × Nat)}
    (h : marks.Pairwise fun a b => a.line ≤ b.line) (hp : p ∈ pairs marks) :
    p.1.1.line ≤ p.2.1.line := by
  obtain ⟨⟨b, i⟩, ⟨e, j⟩⟩ := p
  obtain ⟨hb, he, -, -, -, hlt, -⟩ := mem_pairs.mp hp
  obtain ⟨hi, hb⟩ := List.getElem?_eq_some_iff.mp (List.mk_mem_zipIdx_iff_getElem?.mp hb)
  obtain ⟨hj, he⟩ := List.getElem?_eq_some_iff.mp (List.mk_mem_zipIdx_iff_getElem?.mp he)
  have hle := List.pairwise_iff_getElem.mp h i j hi hj hlt
  rwa [hb, he] at hle

/-- In its own file, the rule of a block covers the lines from the begin to the end. -/
theorem covers_blockRule (b e : BlockMark) {f : Finding} (h : f.location.file = path) :
    (blockRule path b e).covers f =
      (Glob.isMatch b.id f.id && (blockRule path b e).coversSymbol f.symbol &&
        decide (b.line ≤ f.location.line ∧ f.location.line ≤ e.line)) := by
  have hfile : (blockRule path b e).coversFile f.location.file = true := by
    rw [h]
    exact Glob.isMatch_self path.text
  rw [Rule.covers, hfile, Bool.and_true, Bool.decide_and]
  rfl

/-- The begins and ends of a file pair like brackets, each identifier by itself. The block rules are
those of the pairs, in the order of the ends, and no begin or end is in two pairs. Each begin or end
that is in no pair is reported once. A block covers the findings of its file from its begin to its
end. -/
theorem block_rules_scanInline (path : Path) (content : List Char) :
    let scan := scanInline path content
    let marks := blockMarks (sourceLines content)
    scan.rules.filter isBlock = (pairs marks).map (fun p => blockRule path p.1.1 p.2.1) ∧
      (((pairs marks).map (·.1)).Nodup ∧ ((pairs marks).map (·.2)).Nodup) ∧
      (scan.faults.filter isBlockFault).Perm
        ((loneEnds marks).map (fun e => endFault path e.1) ++
          (loneBegins marks).map (fun b => beginFault path b.1)) ∧
      ∀ p ∈ pairs marks, p.1.1.line ≤ p.2.1.line ∧
        ∀ f : Finding, f.location.file = path → (blockRule path p.1.1 p.2.1).covers f =
          (Glob.isMatch p.1.1.id f.id && (blockRule path p.1.1 p.2.1).coversSymbol f.symbol &&
            decide (p.1.1.line ≤ f.location.line ∧ f.location.line ≤ p.2.1.line)) := by
  intro scan marks
  have h : Tracks path (InlineState.addLines path {} (sourceLines content)) marks :=
    (Tracks.nil path).addLines (sourceLines content)
  have hlines := pairwise_blockMarks (numbered_sourceLines content)
  refine ⟨?_, nodup_pairs marks, h.faults_finish,
    fun p hp => ⟨line_le_of_mem_pairs hlines hp, fun f => covers_blockRule p.1.1 p.2.1⟩⟩
  rw [← h.rules]
  exact congrArg (·.rules.filter isBlock) (InlineState.finish_eq path _)

end MacroSweep.Suppression
