import MacroSweep.Proofs.CommentText
import Mathlib.Data.List.TakeWhile

/-! A text laid out: its lines as parts, each line with what ends it. The layout is written as the
text. -/
namespace MacroSweep.Source

open Text

/-- What ends a line: the end of the text, a line feed, or a carriage return and a line feed. -/
inductive LineEnd where
  | text
  | feed
  | returnFeed
  deriving DecidableEq, Repr

def LineEnd.written : LineEnd → List Char
  | text => []
  | feed => ['\n']
  | returnFeed => ['\r', '\n']

/-- The lines of a text, each with its end. -/
def cutLines (cs : List Char) : List (List Char × LineEnd) :=
  match _h : cs.dropWhile (· != '\n') with
  | [] => if cs.isEmpty then [] else [(cs, .text)]
  | _ :: rest =>
    let l := cs.takeWhile (· != '\n')
    (dropReturn l, if l.getLast? = some '\r' then .returnFeed else .feed) :: cutLines rest
termination_by cs.length
decreasing_by
  have := length_dropWhile_le (· != '\n') cs
  rw [_h, List.length_cons] at this
  omega

/-- Lines with their ends, written one after the other. -/
def writtenLines (ls : List (List Char × LineEnd)) : List Char :=
  ls.flatMap fun l => l.1 ++ l.2.written

/-- Lines with their ends as they are cut. Only the last line can lack a line feed, and it is not
empty then; a carriage return before a line feed belongs to the end. -/
inductive Cut : List (List Char × LineEnd) → Prop where
  | nil : Cut []
  | last {l} (hl : '\n' ∉ l) (hne : l ≠ []) : Cut [(l, .text)]
  | feed {l ls} (hl : '\n' ∉ l) (hlast : l.getLast? ≠ some '\r') (h : Cut ls) :
    Cut ((l, .feed) :: ls)
  | returnFeed {l ls} (hl : '\n' ∉ l) (h : Cut ls) : Cut ((l, .returnFeed) :: ls)

variable {c : Char} {cs l l' t text rest : List Char} {e : LineEnd} {p : Part}
  {left right : List Part} {v : List Char × LineEnd} {ls us vs ws : List (List Char × LineEnd)}
  {inside : Bool}

theorem dropReturn_append_return (cs : List Char) : dropReturn (cs ++ ['\r']) = cs := by
  simp [dropReturn]

theorem dropReturn_of_getLast? (h : cs.getLast? = some '\r') : dropReturn cs ++ ['\r'] = cs := by
  rw [dropReturn, if_pos h]
  exact List.dropLast_append_getLast? _ h

/-- A line and its end as they are cut: a carriage return before a line feed goes to the end. -/
def LineEnd.settle (e : LineEnd) (l : List Char) : List Char × LineEnd :=
  if e = .feed ∧ l.getLast? = some '\r' then (dropReturn l, .returnFeed) else (l, e)

theorem LineEnd.written_settle (e : LineEnd) (l : List Char) :
    (e.settle l).1 ++ (e.settle l).2.written = l ++ e.written := by
  unfold settle
  split
  · next h =>
    obtain ⟨rfl, hlast⟩ := h
    calc dropReturn l ++ ['\r', '\n'] = dropReturn l ++ ['\r'] ++ ['\n'] := by simp
      _ = l ++ ['\n'] := by rw [dropReturn_of_getLast? hlast]
  · rfl

theorem LineEnd.settle_feed (l : List Char) :
    LineEnd.feed.settle l =
      (dropReturn l, if l.getLast? = some '\r' then .returnFeed else .feed) := by
  by_cases hlast : l.getLast? = some '\r'
  · simp [settle, hlast]
  · simp [settle, dropReturn, hlast]

theorem all_ne_feed (hl : '\n' ∉ l) : ∀ c ∈ l, (c != '\n') = true := by
  intro c hc
  rw [bne_iff_ne]
  rintro rfl
  exact hl hc

theorem cutLines_append_feed (hl : '\n' ∉ l) (rest : List Char) :
    cutLines (l ++ '\n' :: rest) =
      (dropReturn l, if l.getLast? = some '\r' then .returnFeed else .feed) :: cutLines rest := by
  have hdrop : (l ++ '\n' :: rest).dropWhile (· != '\n') = '\n' :: rest := by
    simp [List.dropWhile_append_of_pos (all_ne_feed hl)]
  have htake : (l ++ '\n' :: rest).takeWhile (· != '\n') = l := by
    simp [List.takeWhile_append_of_pos (all_ne_feed hl)]
  rw [cutLines]
  split
  · next h => simp [hdrop] at h
  · next c rest' h =>
    rw [hdrop, List.cons.injEq] at h
    rw [htake, ← h.2]

theorem cutLines_of_notMem (hl : '\n' ∉ l) (hne : l ≠ []) : cutLines l = [(l, .text)] := by
  have hdrop : l.dropWhile (· != '\n') = [] := List.dropWhile_eq_nil_iff.mpr (all_ne_feed hl)
  rw [cutLines]
  split
  · simp [hne]
  · next h => simp [hdrop] at h

theorem lines_eq (cs : List Char) : lines cs = (cutLines cs).map (·.1) := by
  fun_induction lines cs with
  | case1 | case2 | case3 =>
    rw [cutLines]
    split <;> simp_all

theorem writtenLines_cons (l : List Char) (e : LineEnd) (ls : List (List Char × LineEnd)) :
    writtenLines ((l, e) :: ls) = l ++ e.written ++ writtenLines ls := List.flatMap_cons

theorem cutLines_writtenLines (h : Cut ls) : cutLines (writtenLines ls) = ls := by
  induction h with
  | nil => simp [writtenLines, cutLines]
  | last hl hne => simp [writtenLines, LineEnd.written, cutLines_of_notMem hl hne]
  | feed hl hlast h ih =>
    simp [writtenLines_cons, LineEnd.written, cutLines_append_feed hl, dropReturn, hlast, ih]
  | @returnFeed l ls hl h ih =>
    have hl' : '\n' ∉ l ++ ['\r'] := by simp [hl]
    have hcut := cutLines_append_feed hl' (writtenLines ls)
    rw [dropReturn_append_return, ih, List.append_assoc, List.getLast?_concat, if_pos rfl] at hcut
    simpa [writtenLines_cons, LineEnd.written] using hcut

theorem takeWhile_append_feed (h : cs.dropWhile (· != '\n') = c :: rest) :
    cs.takeWhile (· != '\n') ++ '\n' :: rest = cs := by
  have hc := List.head?_dropWhile_not (· != '\n') cs
  rw [h, List.head?_cons] at hc
  obtain rfl : c = '\n' := by simpa using hc
  rw [← h, List.takeWhile_append_dropWhile]

theorem writtenLines_cutLines (cs : List Char) : writtenLines (cutLines cs) = cs := by
  fun_induction cutLines cs with
  | case1 cs h hcs => rw [List.isEmpty_iff.mp hcs, writtenLines, List.flatMap_nil]
  | case2 cs h hcs => simp [writtenLines, LineEnd.written]
  | case3 cs c rest h l ih =>
    rw [← LineEnd.settle_feed, writtenLines_cons, ih, LineEnd.written_settle, List.append_assoc]
    exact takeWhile_append_feed h

theorem feed_notMem_takeWhile (cs : List Char) : '\n' ∉ cs.takeWhile (· != '\n') := by
  intro h
  have := List.mem_takeWhile_imp h
  simp at this

theorem cut_settle_feed (hl : '\n' ∉ l) (h : Cut ls) : Cut (LineEnd.feed.settle l :: ls) := by
  unfold LineEnd.settle
  split
  · next hlast =>
    rw [dropReturn, if_pos hlast.2]
    exact .returnFeed (fun hmem => hl (List.dropLast_subset _ hmem)) h
  · next hlast => exact .feed hl (fun hreturn => hlast ⟨rfl, hreturn⟩) h

theorem cut_cutLines (cs : List Char) : Cut (cutLines cs) := by
  fun_induction cutLines cs with
  | case1 cs h => exact .nil
  | case2 cs h hcs =>
    refine .last ?_ (by simpa using hcs)
    intro hmem
    simpa using List.dropWhile_eq_nil_iff.mp h _ hmem
  | case3 cs c rest h l ih =>
    rw [← LineEnd.settle_feed]
    exact cut_settle_feed (feed_notMem_takeWhile cs) ih

theorem writtenLines_append (us vs : List (List Char × LineEnd)) :
    writtenLines (us ++ vs) = writtenLines us ++ writtenLines vs := List.flatMap_append

theorem Cut.suffix (h : Cut (us ++ vs)) : Cut vs := by
  induction us with
  | nil => exact h
  | cons u us ih =>
    rw [List.cons_append] at h
    generalize hws : us ++ vs = ws at h
    cases h with
    | last =>
      obtain ⟨-, rfl⟩ := List.append_eq_nil_iff.mp hws
      exact .nil
    | feed _ _ h | returnFeed _ h => exact ih (hws ▸ h)

/-- Other lines in the place of the last that were cut. -/
theorem Cut.replace (h : Cut (us ++ v :: vs)) (hws : Cut ws) : Cut (us ++ ws) := by
  induction us with
  | nil => exact hws
  | cons u us ih =>
    rw [List.cons_append] at h ⊢
    generalize hrest : us ++ v :: vs = rest at h
    cases h with
    | last => simp at hrest
    | feed hu hlast h => exact .feed hu hlast (ih (hrest ▸ h))
    | returnFeed hu h => exact .returnFeed hu (ih (hrest ▸ h))

theorem Cut.feed_notMem (h : Cut ((l, e) :: ls)) : '\n' ∉ l := by
  cases h <;> assumption

theorem Cut.getLast?_ne (h : Cut ((l, .feed) :: ls)) : l.getLast? ≠ some '\r' := by
  cases h
  assumption

theorem Cut.eq_nil_of_text (h : Cut ((l, .text) :: ls)) : ls = [] := by
  cases h
  rfl

/-- Another line in the place of one that was cut. -/
theorem Cut.settle (h : Cut ((l, e) :: ls)) (hl : '\n' ∉ l') (hne : e = .text → l' ≠ []) :
    Cut (e.settle l' :: ls) := by
  cases h with
  | last => exact .last hl (hne rfl)
  | feed _ _ h => exact cut_settle_feed hl h
  | returnFeed _ h => exact .returnFeed hl h

/-- Whether a block comment is open behind a part. -/
def Part.leavesOpen (inside : Bool) : Part → Bool
  | block _ _ closes => !closes
  | _ => inside

/-- Whether a block comment is open behind parts. -/
def leftOpen (inside : Bool) (ps : List Part) : Bool := ps.foldl Part.leavesOpen inside

/-- A line as its parts, and what ends it. -/
structure LaidLine where
  parts : List Part
  ending : LineEnd
  deriving DecidableEq, Repr

def LaidLine.written (l : LaidLine) : List Char := writtenParts l.parts ++ l.ending.written

/-- Laid lines as they are written. -/
def written (ls : List LaidLine) : List Char := ls.flatMap LaidLine.written

/-- Lays lines out; `inside` says whether a block comment reaches them. -/
def layoutFrom (inside : Bool) : List (List Char × LineEnd) → List LaidLine
  | [] => []
  | (cs, e) :: ls =>
    ⟨lineParts inside cs, e⟩ :: layoutFrom (leftOpen inside (lineParts inside cs)) ls

/-- A text laid out. -/
def layout (content : List Char) : List LaidLine := layoutFrom false (cutLines content)

theorem written_layoutFrom (inside : Bool) (ls : List (List Char × LineEnd)) :
    written (layoutFrom inside ls) = writtenLines ls := by
  induction ls generalizing inside with
  | nil => rfl
  | cons l ls ih =>
    rw [layoutFrom, written, List.flatMap_cons, LaidLine.written, written_lineParts, ← written, ih]
    rfl

/-- Nothing of a text is lost in its layout. -/
theorem written_layout (content : List Char) : written (layout content) = content := by
  rw [layout, written_layoutFrom, writtenLines_cutLines]

/-- Whether a block comment is open behind laid lines. -/
def openBehind (inside : Bool) (ls : List LaidLine) : Bool := leftOpen inside (ls.flatMap (·.parts))

theorem openBehind_concat (inside : Bool) (ls : List LaidLine) (l : LaidLine) :
    openBehind inside (ls ++ [l]) = leftOpen (openBehind inside ls) l.parts := by
  simp [openBehind, leftOpen]

theorem layoutFrom_append (inside : Bool) (us vs : List (List Char × LineEnd)) :
    layoutFrom inside (us ++ vs) =
      layoutFrom inside us ++ layoutFrom (openBehind inside (layoutFrom inside us)) vs := by
  induction us generalizing inside with
  | nil => rfl
  | cons u us ih =>
    simp [layoutFrom, ih, openBehind, leftOpen]

theorem exists_of_layoutFrom {above below : List LaidLine} {laid : LaidLine}
    (h : layoutFrom inside ls = above ++ laid :: below) :
    ∃ us cs vs, ls = us ++ (cs, laid.ending) :: vs ∧ above = layoutFrom inside us ∧
      laid.parts = lineParts (openBehind inside above) cs ∧
      below = layoutFrom (openBehind inside (above ++ [laid])) vs := by
  induction above generalizing inside ls with
  | nil =>
    cases ls with
    | nil => simp [layoutFrom] at h
    | cons l ls =>
      obtain ⟨rfl, rfl⟩ := List.cons.inj h
      exact ⟨[], l.1, ls, rfl, rfl, rfl, by simp [openBehind]⟩
  | cons a above ih =>
    cases ls with
    | nil => simp [layoutFrom] at h
    | cons l ls =>
      rw [List.cons_append] at h
      obtain ⟨rfl, hrest⟩ := List.cons.inj h
      obtain ⟨us, cs, vs, rfl, habove, hparts, hbelow⟩ := ih hrest
      refine ⟨l :: us, cs, vs, rfl, by rw [habove, layoutFrom], ?_, ?_⟩
      · simpa [openBehind, leftOpen] using hparts
      · simpa [openBehind, leftOpen] using hbelow

theorem leftOpen_withText (inside : Bool) (left : List Part) (p : Part) (right : List Part)
    (t : List Char) : leftOpen inside (left ++ p.withText t :: right) =
      leftOpen inside (left ++ p :: right) := by
  cases p <;> simp [leftOpen, Part.withText, Part.leavesOpen]

theorem eq_nil_of_continued {closes : Bool}
    (h : lineParts inside cs = left ++ .block false text closes :: right) : left = [] := by
  cases left with
  | nil => rfl
  | cons q left =>
    cases inside with
    | false => exact absurd rfl (codeParts_ne_continued h text closes)
    | true =>
      cases hsplit : splitBlock? cs with
      | none => simp [lineParts, hsplit] at h
      | some x =>
        rw [lineParts_of_splitBlock? hsplit, List.cons_append] at h
        exact absurd rfl (codeParts_ne_continued (List.cons.inj h).2 text closes)

/-- Before the text of a comment stands its mark, or nothing. -/
theorem getLast?_before_text (h : lineParts inside cs = left ++ p :: right) (hp : p.Admits t) :
    (writtenParts left ++ p.opening).getLast? ≠ some '\r' := by
  cases p with
  | code | literal => exact hp.elim
  | remark => simp [Part.opening]
  | block opens text closes =>
    cases opens with
    | true => simp [Part.opening]
    | false =>
      rw [eq_nil_of_continued h]
      simp [writtenParts, Part.opening]

theorem Part.Admits.of_append {t' : List Char} (h : p.Admits (t ++ t')) : p.Admits t := by
  cases p with
  | code | literal => exact h.elim
  | remark => simp_all [Part.Admits]
  | block =>
    obtain ⟨hfeed, hquote, hend⟩ := h
    refine ⟨?_, ?_, fun hin => hend (hin.trans (List.prefix_append _ _).isInfix)⟩ <;> simp_all

/-- A carriage return at the end of a line that was not there before is in the text of a comment
that goes to the end of the line. -/
theorem exists_of_return (h : lineParts inside cs = left ++ p :: right) (hp : p.Admits t)
    (hcs : cs.getLast? ≠ some '\r')
    (hlast : (writtenParts (left ++ p.withText t :: right)).getLast? = some '\r') :
    ∃ t', t' ++ ['\r'] = t ∧
      dropReturn (writtenParts (left ++ p.withText t :: right)) =
        writtenParts (left ++ p.withText t' :: right) := by
  have hwritten := written_lineParts inside cs
  rw [h, writtenParts_eq] at hwritten
  rw [hp.writtenParts_eq] at hlast
  by_cases hbehind : p.closing ++ writtenParts right = []
  · rw [hbehind, List.append_nil] at hlast
    obtain rfl | ⟨t', c, rfl⟩ := List.eq_nil_or_concat' t
    · rw [List.append_nil] at hlast
      exact absurd hlast (getLast?_before_text h hp)
    · obtain rfl : c = '\r' := by simpa using hlast
      refine ⟨t', rfl, ?_⟩
      rw [hp.writtenParts_eq, hp.of_append.writtenParts_eq, hbehind, List.append_nil,
        List.append_nil, ← List.append_assoc, dropReturn_append_return]
  · rw [← List.append_assoc, List.getLast?_append_of_ne_nil _ hbehind] at hlast
    rw [← hwritten, ← List.append_assoc, List.getLast?_append_of_ne_nil _ hbehind] at hcs
    exact absurd hlast hcs

theorem written_append (us vs : List LaidLine) : written (us ++ vs) = written us ++ written vs :=
  List.flatMap_append

/-- The line of a comment as it is cut with another text in the comment. -/
theorem exists_settle (h : lineParts inside cs = left ++ p :: right) (hp : p.Admits t)
    (hcs : e = .feed → cs.getLast? ≠ some '\r') :
    ∃ t' e', (t' = t ∧ e' = e ∨ t' ++ ['\r'] = t ∧ e = .feed ∧ e' = .returnFeed) ∧ p.Admits t' ∧
      e.settle (writtenParts (left ++ p.withText t :: right)) =
        (writtenParts (left ++ p.withText t' :: right), e') := by
  by_cases hreturn : e = .feed ∧
    (writtenParts (left ++ p.withText t :: right)).getLast? = some '\r'
  · obtain ⟨t', ht, hdrop⟩ := exists_of_return h hp (hcs hreturn.1) hreturn.2
    refine ⟨t', .returnFeed, .inr ⟨ht, hreturn.1, rfl⟩, (ht ▸ hp).of_append, ?_⟩
    rw [LineEnd.settle, if_pos hreturn, hdrop]
  · exact ⟨t, e, .inl ⟨rfl, rfl⟩, hp, by rw [LineEnd.settle, if_neg hreturn]⟩

/-- With another text in a comment the layout has this text in its place, and is the same otherwise.
A carriage return that now stands before the line feed goes to the end of the line. -/
theorem layout_withText {content : List Char} {above below : List LaidLine}
    (h : layout content = above ++ ⟨left ++ p :: right, e⟩ :: below) (hp : p.Admits t)
    (hne : e = .text → writtenParts (left ++ p.withText t :: right) ≠ []) :
    ∃ t' e', (t' = t ∧ e' = e ∨ t' ++ ['\r'] = t ∧ e = .feed ∧ e' = .returnFeed) ∧
      layout (written (above ++ ⟨left ++ p.withText t :: right, e⟩ :: below)) =
        above ++ ⟨left ++ p.withText t' :: right, e'⟩ :: below := by
  obtain ⟨us, cs, vs, hcut, rfl, hparts, rfl⟩ := exists_of_layoutFrom h
  generalize hinside : openBehind false (layoutFrom false us) = inside at hparts
  have hisCut := hcut ▸ cut_cutLines content
  have hhere := hisCut.suffix
  have hline : '\n' ∉ writtenParts (left ++ p.withText t :: right) := by
    have hcs := hhere.feed_notMem
    rw [← written_lineParts inside cs, ← hparts, writtenParts_eq] at hcs
    rw [hp.writtenParts_eq]
    have := hp.feed_notMem
    simp_all
  have hreturn : e = .feed → cs.getLast? ≠ some '\r' := by
    rintro rfl
    exact hhere.getLast?_ne
  obtain ⟨t', e', ht, hp', hsettle⟩ := exists_settle hparts.symm hp hreturn
  have hcut' := cutLines_writtenLines (hisCut.replace (hsettle ▸ hhere.settle hline hne))
  refine ⟨t', e', ht, ?_⟩
  have hwritten : written (layoutFrom false us ++ ⟨left ++ p.withText t :: right, e⟩ ::
      layoutFrom (openBehind false (layoutFrom false us ++ [⟨left ++ p :: right, e⟩])) vs) =
        writtenLines (us ++ (writtenParts (left ++ p.withText t' :: right), e') :: vs) := by
    have hsame := e.written_settle (writtenParts (left ++ p.withText t :: right))
    rw [hsettle] at hsame
    rw [written_append, written_layoutFrom, written, List.flatMap_cons, ← written,
      written_layoutFrom, writtenLines_append, writtenLines_cons, hsame, LaidLine.written]
  rw [layout, hwritten, hcut', layoutFrom_append, layoutFrom, hinside,
    lineParts_withText hparts.symm hp', leftOpen_withText, openBehind_concat, hinside]

/-- What a part leaves of itself in the code of its line. -/
def Part.coded : Part → List Char
  | code c => [c]
  | literal text => text
  | remark _ => []
  | block opens _ _ => if opens then [' '] else []

def LaidLine.code (l : LaidLine) : List Char := l.parts.flatMap Part.coded

theorem code_scanParts (number : Nat) (seen : Bool) (block : Option OpenComment) (ps : List Part) :
    (scanParts number seen block ps).code = ps.flatMap Part.coded := by
  induction ps generalizing seen block with
  | nil => rfl
  | cons p ps ih =>
    cases p with
    | code | literal | remark =>
      simp [scanParts, LineScan.consCode, LineScan.consClosed, Part.coded, ih]
    | block opens text closes =>
      cases opens <;> cases closes <;>
        simp [scanParts, LineScan.consCode, LineScan.consClosed, Part.coded, ih]

theorem isSome_block_scanParts (number : Nat) (seen : Bool) (block : Option OpenComment)
    (ps : List Part) :
    (scanParts number seen block ps).block.isSome = leftOpen block.isSome ps := by
  induction ps generalizing seen block with
  | nil => rfl
  | cons p ps ih =>
    cases p with
    | code | literal | remark =>
      simp [scanParts, LineScan.consCode, LineScan.consClosed, leftOpen, Part.leavesOpen, ih]
    | block opens text closes =>
      cases opens <;> cases closes <;>
        simp [scanParts, LineScan.consCode, LineScan.consClosed, leftOpen, Part.leavesOpen, ih]

/-- Scans laid lines from `number` on. -/
def scanLaid (number : Nat) (block : Option OpenComment) : List LaidLine → List LineScan
  | [] => []
  | l :: ls =>
    let s := scanParts number false block l.parts
    s :: scanLaid (number + 1) s.block ls

theorem scanLines_eq (number : Nat) (block : Option OpenComment) (ls : List (List Char × LineEnd)) :
    scanLines number block (ls.map (·.1)) = scanLaid number block (layoutFrom block.isSome ls) := by
  induction ls generalizing number block with
  | nil => rfl
  | cons l ls ih =>
    rw [List.map_cons, scanLines, layoutFrom, scanLaid, scanLine_eq, ih, isSome_block_scanParts]

theorem scanLines_lines (content : List Char) :
    scanLines 1 none (lines content) = scanLaid 1 none (layout content) := by
  rw [lines_eq, scanLines_eq]
  rfl

theorem code_scanLaid (number : Nat) (block : Option OpenComment) (ls : List LaidLine) :
    (scanLaid number block ls).map (·.code) = ls.map LaidLine.code := by
  induction ls generalizing number block with
  | nil => rfl
  | cons l ls ih =>
    rw [scanLaid, List.map_cons, List.map_cons, ih, code_scanParts]
    rfl

/-- The code of each line is what its parts leave. -/
theorem code_sourceLines (content : List Char) :
    (sourceLines content).map (·.code) = (layout content).map LaidLine.code := by
  rw [← code_scanLaid 1 none, ← scanLines_lines]
  apply List.ext_getElem
  · simp [sourceLines]
  · intro i h₁ h₂
    simp [sourceLines]

end MacroSweep.Source
