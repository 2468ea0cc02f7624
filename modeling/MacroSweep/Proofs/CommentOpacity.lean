import MacroSweep.Proofs.CommentOrder
import MacroSweep.Proofs.Layout

/-! Comments are opaque to code: with another text in a comment, the scan finds the same code and
the same other comments. The two scans run alike up to the changed text; behind it they differ at
most in the text of the comment that is open, until it ends. -/
namespace MacroSweep.Source

open Text

/-- Whether a comment ends with a part. -/
def Part.ends : Part → Bool
  | remark _ => true
  | block _ _ closes => closes
  | _ => false

/-- The number of comments that end with the given parts. -/
def endedIn (ps : List Part) : Nat := ps.countP Part.ends

/-- Comments with the text `x` in the comment that `k` others stand before, and with `y` in its
place. -/
inductive Renewed (x y : List Char) : Nat → List (Nat × Comment) → List (Nat × Comment) → Prop where
  | here (line : Nat) (start stop : List Char) (trailing : Bool) (rest : List (Nat × Comment)) :
    Renewed x y 0 ((line, ⟨trim (start ++ x ++ stop), trailing⟩) :: rest)
      ((line, ⟨trim (start ++ y ++ stop), trailing⟩) :: rest)
  | there {k : Nat} {cs cs' : List (Nat × Comment)} (c : Nat × Comment) (h : Renewed x y k cs cs') :
    Renewed x y (k + 1) (c :: cs) (c :: cs')

/-- An open comment with the text `x` in it, and with `y` in its place. -/
inductive Alike (x y : List Char) : OpenComment → OpenComment → Prop where
  | intro (line : Nat) (start stop : List Char) (trailing : Bool) :
    Alike x y ⟨line, start ++ x ++ stop, trailing⟩ ⟨line, start ++ y ++ stop, trailing⟩

variable {cs t x y : List Char} {e : LineEnd} {p : Part} {ps left right : List Part}
  {vs : List (List Char × LineEnd)} {inside : Bool} {k : Nat} {o o' : OpenComment}

theorem Alike.extend (h : Alike x y o o') (text : List Char) :
    Alike x y (o.extend text) (o'.extend text) := by
  obtain ⟨line, start, stop, trailing⟩ := h
  have := Alike.intro (x := x) (y := y) line start (stop ++ text ++ ['\n']) trailing
  simpa [OpenComment.extend] using this

theorem Alike.close (h : Alike x y o o') (text : List Char) (rest : List (Nat × Comment)) :
    Renewed x y 0 ((o.line, o.close text) :: rest) ((o'.line, o'.close text) :: rest) := by
  obtain ⟨line, start, stop, trailing⟩ := h
  have := Renewed.here (x := x) (y := y) line start (stop ++ text) trailing rest
  simpa [OpenComment.close] using this

theorem Renewed.append {cs cs' : List (Nat × Comment)} (h : Renewed x y k cs cs')
    (ds es : List (Nat × Comment)) :
    Renewed x y (ds.length + k) (ds ++ cs ++ es) (ds ++ cs' ++ es) := by
  induction ds with
  | nil =>
    rw [List.length_nil, Nat.zero_add, List.nil_append, List.nil_append]
    induction h with
    | here line start stop trailing rest => exact .here line start stop trailing (rest ++ es)
    | there c _ ih => exact .there c ih
  | cons d ds ih =>
    rw [List.length_cons, Nat.add_right_comm]
    exact .there d ih

theorem Renewed.get {cs cs' : List (Nat × Comment)} {line : Nat} {c : Comment}
    (h : Renewed x y k cs cs') (hc : cs[k]? = some (line, c)) :
    ∃ start stop, c.text = trim (start ++ x ++ stop) ∧
      cs' = cs.set k (line, { c with text := trim (start ++ y ++ stop) }) := by
  induction h with
  | here line start stop trailing =>
    simp only [List.getElem?_cons_zero, Option.some.injEq, Prod.mk.injEq] at hc
    obtain ⟨rfl, rfl⟩ := hc
    exact ⟨start, stop, rfl, rfl⟩
  | there d h ih =>
    rw [List.getElem?_cons_succ] at hc
    obtain ⟨start, stop, htext, rfl⟩ := ih hc
    exact ⟨start, stop, htext, rfl⟩

/-- The comments that end on lines reached by a comment, with another text in it. It may never
end. -/
theorem renewed_scanLines (h : Alike x y o o') (number : Nat) (ls : List (List Char)) :
    (scanLines number (some o) ls).flatMap (·.closed) = [] ∧
        (scanLines number (some o') ls).flatMap (·.closed) = [] ∨
      Renewed x y 0 ((scanLines number (some o) ls).flatMap (·.closed))
        ((scanLines number (some o') ls).flatMap (·.closed)) := by
  induction ls generalizing number o o' with
  | nil => exact .inl ⟨rfl, rfl⟩
  | cons l ls ih =>
    rw [scanLines, scanLines, List.flatMap_cons, List.flatMap_cons]
    cases hsplit : splitBlock? l with
    | none =>
      simp only [scanLine, hsplit]
      exact ih (h.extend l) (number + 1)
    | some r =>
      simp only [scanLine, hsplit, LineScan.consClosed]
      exact .inr (h.close r.1 _)

/-- The scans of a line with the text `x` in the comment that `k` others end before on the line, and
with `y` in its place. -/
def LineScan.Rewritten (x y : List Char) (k : Nat) (s s' : LineScan) : Prop :=
  s.block = s'.block ∧ Renewed x y k s.closed s'.closed ∨
    s.closed = s'.closed ∧ s.closed.length = k ∧
      ∃ o o', s.block = some o ∧ s'.block = some o' ∧ Alike x y o o'

theorem LineScan.Rewritten.consClosed {s s' : LineScan} (h : s.Rewritten x y k s') (line : Nat)
    (c : Comment) : (s.consClosed line c).Rewritten x y (k + 1) (s'.consClosed line c) := by
  obtain ⟨hblock, h⟩ | ⟨hclosed, hlength, hblock⟩ := h
  · exact .inl ⟨hblock, .there _ h⟩
  · exact .inr ⟨congrArg ((line, c) :: ·) hclosed, congrArg (· + 1) hlength, hblock⟩

theorem endedIn_cons (q : Part) (ps : List Part) :
    endedIn (q :: ps) = endedIn ps + if q.ends then 1 else 0 := List.countP_cons

/-- The scan of a line with another text in one of its comments. -/
theorem renewed_scanParts (hp : p.Admits t) (hlast : p.isLast → right = []) (number : Nat)
    (seen : Bool) (block : Option OpenComment) (left : List Part) :
    (scanParts number seen block (left ++ p :: right)).Rewritten p.text t (endedIn left)
      (scanParts number seen block (left ++ p.withText t :: right)) := by
  induction left generalizing seen block with
  | nil =>
    cases p with
    | code | literal => exact hp.elim
    | remark text =>
      have h := Renewed.here (x := text) (y := t) number [] [] seen
        (scanParts number seen block right).closed
      simp only [List.nil_append, List.append_nil] at h
      exact .inl ⟨rfl, h⟩
    | block opens text closes =>
      generalize ho : (if opens then ⟨number, [], seen⟩ else block.getD ⟨number, [], seen⟩ :
        OpenComment) = o
      cases closes with
      | true =>
        have h := Renewed.here (x := text) (y := t) o.line o.text [] o.trailing
          (scanParts number seen none right).closed
        simp only [List.append_nil] at h
        simp only [List.nil_append, Part.withText, scanParts, ho]
        cases opens <;> exact .inl ⟨rfl, h⟩
      | false =>
        have hright : right = [] := hlast rfl
        subst hright
        have h := Alike.intro (x := text) (y := t) o.line o.text ['\n'] o.trailing
        simp only [List.nil_append, Part.withText, scanParts, ho]
        cases opens <;> exact .inr ⟨rfl, rfl, _, _, rfl, rfl, h⟩
  | cons q left ih =>
    rw [endedIn_cons]
    cases q with
    | code | literal => exact ih _ _
    | remark => exact (ih _ _).consClosed _ _
    | block opens text closes =>
      cases closes with
      | true => cases opens <;> exact (ih _ _).consClosed _ _
      | false => cases opens <;> exact ih _ _

theorem length_closed_scanParts (number : Nat) (seen : Bool) (block : Option OpenComment)
    (ps : List Part) : (scanParts number seen block ps).closed.length = endedIn ps := by
  induction ps generalizing seen block with
  | nil => rfl
  | cons p ps ih =>
    rw [endedIn_cons]
    cases p with
    | code | literal | remark =>
      simp [scanParts, LineScan.consCode, LineScan.consClosed, Part.ends, ih]
    | block opens text closes =>
      cases opens <;> cases closes <;>
        simp [scanParts, LineScan.consCode, LineScan.consClosed, Part.ends, ih]

theorem endedIn_append (ps qs : List Part) : endedIn (ps ++ qs) = endedIn ps + endedIn qs :=
  List.countP_append

theorem length_closed_scanLaid (number : Nat) (block : Option OpenComment) (ls : List LaidLine) :
    ((scanLaid number block ls).flatMap (·.closed)).length = endedIn (ls.flatMap (·.parts)) := by
  induction ls generalizing number block with
  | nil => rfl
  | cons l ls ih =>
    rw [scanLaid, List.flatMap_cons, List.flatMap_cons, List.length_append, ih,
      length_closed_scanParts, endedIn_append]

/-- The comments of lines that a comment reaches, with another text in it, if it ends there. -/
theorem renewed_layoutFrom (h : Alike x y o o') (number : Nat)
    (hmore : 0 < endedIn ((layoutFrom true vs).flatMap (·.parts))) :
    Renewed x y 0 ((scanLaid number (some o) (layoutFrom true vs)).flatMap (·.closed))
      ((scanLaid number (some o') (layoutFrom true vs)).flatMap (·.closed)) := by
  have hcount := length_closed_scanLaid number (some o) (layoutFrom true vs)
  have heq : ∀ o, scanLaid number (some o) (layoutFrom true vs) =
      scanLines number (some o) (vs.map (·.1)) := fun o => (scanLines_eq number (some o) vs).symm
  rw [heq] at hcount
  rw [heq, heq]
  obtain ⟨hnil, -⟩ | hrenewed := renewed_scanLines h number (vs.map (·.1))
  · rw [hnil, List.length_nil] at hcount
    omega
  · exact hrenewed

/-- The comments of laid lines with another text in one of them, if it ends. The induction is on the
lines above it. -/
theorem renewed_scanLaid {below : List LaidLine} (hp : p.Admits t) (hlast : p.isLast → right = [])
    (e' : LineEnd) (number : Nat) (block : Option OpenComment) (above : List LaidLine)
    (hbelow : below = layoutFrom
      (openBehind block.isSome (above ++ [⟨left ++ p :: right, e⟩])) vs)
    (hmore : endedIn (above.flatMap (·.parts) ++ left) <
      endedIn ((above ++ ⟨left ++ p :: right, e⟩ :: below).flatMap (·.parts))) :
    Renewed p.text t (endedIn (above.flatMap (·.parts) ++ left))
      ((scanLaid number block (above ++ ⟨left ++ p :: right, e⟩ :: below)).flatMap (·.closed))
      ((scanLaid number block (above ++ ⟨left ++ p.withText t :: right, e'⟩ :: below)).flatMap
        (·.closed)) := by
  induction above generalizing number block with
  | nil =>
    have hopen := isSome_block_scanParts number false block (left ++ p :: right)
    have hcount := length_closed_scanParts number false block (left ++ p :: right)
    simp only [List.nil_append, List.flatMap_nil, scanLaid, List.flatMap_cons] at hmore ⊢
    obtain ⟨hblock, h⟩ | ⟨hclosed, hlength, o, o', ho, ho', h⟩ :=
      renewed_scanParts hp hlast number false block left
    · rw [← hblock]
      simpa using h.append [] _
    · have hinside : openBehind block.isSome [⟨left ++ p :: right, e⟩] = true := by
        simpa [openBehind, ho] using hopen.symm
      rw [List.nil_append, hinside] at hbelow
      have hrest : 0 < endedIn ((layoutFrom true vs).flatMap (·.parts)) := by
        rw [endedIn_append, hbelow] at hmore
        omega
      have hrenewed := renewed_layoutFrom h (number + 1) hrest
      rw [← hbelow] at hrenewed
      rw [ho, ho', ← hclosed, ← hlength]
      simpa using hrenewed.append (scanParts number false block (left ++ p :: right)).closed []
  | cons a above ih =>
    have hopen := isSome_block_scanParts number false block a.parts
    have hcount := length_closed_scanParts number false block a.parts
    simp only [List.cons_append, scanLaid, List.flatMap_cons, List.append_assoc, endedIn_append]
      at hmore ⊢
    have hinside : openBehind block.isSome (a :: (above ++ [⟨left ++ p :: right, e⟩])) =
        openBehind (scanParts number false block a.parts).block.isSome
          (above ++ [⟨left ++ p :: right, e⟩]) := by
      rw [hopen]
      simp [openBehind, leftOpen]
    have hrest := ih (number + 1) (scanParts number false block a.parts).block
      (hinside ▸ hbelow) (by rw [endedIn_append]; omega)
    have hrenewed := hrest.append (scanParts number false block a.parts).closed []
    rw [hcount, endedIn_append] at hrenewed
    simpa using hrenewed

/-- A line without its comments. -/
def Line.bare (l : Line) : Line := { l with comments := [] }

theorem joinContinued_bare (text : List Char) (ls : List Line) :
    joinContinued text (ls.map Line.bare) =
      ((joinContinued text ls).1, (joinContinued text ls).2.map Line.bare) := by
  induction ls generalizing text with
  | nil => rfl
  | cons l ls ih =>
    simp only [List.map_cons, joinContinued]
    split
    · exact ih _
    · rfl

/-- Directives are read off the lines without their comments. -/
theorem directives_bare (ls : List Line) : directives (ls.map Line.bare) = directives ls := by
  fun_induction directives ls with
  | case1 => simp [directives]
  | case2 l ls body h ih =>
    have hcode : trimStart l.bare.code = '#' :: body := h
    rw [List.map_cons, directives]
    simp only [hcode, joinContinued_bare, ih]
    rfl
  | case3 l ls h ih =>
    rw [List.map_cons, directives]
    simp only [ih]
    split
    · next body hcode => exact absurd hcode (h body)
    · rfl

theorem bare_sourceLines_eq {content content' : List Char}
    (h : (layout content).map LaidLine.code = (layout content').map LaidLine.code) :
    (sourceLines content).map Line.bare = (sourceLines content').map Line.bare := by
  rw [← code_sourceLines, ← code_sourceLines] at h
  have hlength : (sourceLines content).length = (sourceLines content').length := by
    simpa using congrArg List.length h
  have hnumber := Walk.number_sourceLines content
  rw [hlength, ← Walk.number_sourceLines content'] at hnumber
  apply List.ext_getElem
  · simpa using hlength
  · intro i h₁ h₂
    have hi : i < (sourceLines content).length := by simpa using h₁
    have hi' : i < (sourceLines content').length := hlength ▸ hi
    have hcode := List.getElem_of_eq h (by simpa using hi)
    have hnum := List.getElem_of_eq hnumber (by simpa using hi)
    simp only [List.getElem_map] at hcode hnum ⊢
    rw [Line.bare, Line.bare, hcode, hnum]

theorem exists_endedIn_eq (h : k < endedIn ps) :
    ∃ left p right, ps = left ++ p :: right ∧ p.ends ∧ endedIn left = k := by
  induction ps generalizing k with
  | nil => simp [endedIn] at h
  | cons q ps ih =>
    rw [endedIn_cons] at h
    by_cases hq : q.ends
    · rw [if_pos hq] at h
      cases k with
      | zero => exact ⟨[], q, ps, rfl, hq, rfl⟩
      | succ k =>
        obtain ⟨left, p, right, rfl, hp, rfl⟩ := ih (Nat.lt_of_succ_lt_succ h)
        exact ⟨q :: left, p, right, rfl, hp, by rw [endedIn_cons, if_pos hq]⟩
    · rw [if_neg hq] at h
      obtain ⟨left, p, right, rfl, hp, rfl⟩ := ih h
      exact ⟨q :: left, p, right, rfl, hp, by rw [endedIn_cons, if_neg hq, Nat.add_zero]⟩

/-- A part of a laid text. -/
structure Place where
  above : List LaidLine
  left : List Part
  part : Part
  right : List Part
  ending : LineEnd
  below : List LaidLine

namespace Place

/-- The text that a place is in. -/
def lines (p : Place) : List LaidLine :=
  p.above ++ ⟨p.left ++ p.part :: p.right, p.ending⟩ :: p.below

/-- The number of comments that end before a place. -/
def ended (p : Place) : Nat := endedIn (p.above.flatMap (·.parts) ++ p.left)

/-- A place in a comment with another text of the comment. -/
def withText (p : Place) (t : List Char) : Place := { p with part := p.part.withText t }

end Place

theorem exists_place {ls : List LaidLine} (h : k < endedIn (ls.flatMap (·.parts))) :
    ∃ p : Place, p.lines = ls ∧ p.part.ends ∧ p.ended = k := by
  induction ls generalizing k with
  | nil => simp [endedIn] at h
  | cons l ls ih =>
    rw [List.flatMap_cons, endedIn_append] at h
    by_cases hk : k < endedIn l.parts
    · obtain ⟨left, p, right, hparts, hp, hleft⟩ := exists_endedIn_eq hk
      refine ⟨⟨[], left, p, right, l.ending, ls⟩, ?_, hp, hleft⟩
      rw [Place.lines, List.nil_append, ← hparts]
    · obtain ⟨p, rfl, hp, hended⟩ := ih (k := k - endedIn l.parts) (by omega)
      refine ⟨{ p with above := l :: p.above }, rfl, hp, ?_⟩
      rw [Place.ended] at hended ⊢
      rw [List.flatMap_cons, List.append_assoc, endedIn_append, hended]
      omega

theorem lineParts_isLast (h : lineParts inside cs = left ++ p :: right) (hlast : p.isLast) :
    right = [] := by
  cases inside with
  | false => exact eq_nil_of_isLast h hlast
  | true =>
    cases hsplit : splitBlock? cs with
    | none =>
      rw [lineParts_of_splitBlock?_eq_none hsplit] at h
      obtain ⟨-, h⟩ | ⟨-, h⟩ := List.singleton_eq_append_iff.mp h
      · exact (List.cons.inj h).2
      · cases h
    | some r =>
      rw [lineParts_of_splitBlock? hsplit] at h
      cases left with
      | nil =>
        obtain ⟨rfl, -⟩ := List.cons.inj h
        cases hlast
      | cons q left => exact eq_nil_of_isLast (List.cons.inj h).2 hlast

theorem Part.Admits.unmarked (h : p.Admits t) (hopening : p.opening = [])
    (hclosing : p.closing = []) : p.isLast ∧ p.ends = false := by
  cases p with
  | code | literal => exact h.elim
  | remark => simp [opening] at hopening
  | block opens text closes =>
    cases closes with
    | false => exact ⟨rfl, rfl⟩
    | true => simp [closing, blockEnd] at hclosing

theorem coded_withText (t : List Char) (p : Part) : (p.withText t).coded = p.coded := by
  cases p <;> rfl

/-- The last line of a text does not vanish with the text of a comment that ends. -/
theorem writtenParts_ne_nil (hp : p.Admits t) (hlast : p.isLast → right = [])
    (h : endedIn left < endedIn (left ++ p :: right)) :
    writtenParts (left ++ p.withText t :: right) ≠ [] := by
  intro hnil
  simp only [hp.writtenParts_eq, List.append_eq_nil_iff] at hnil
  obtain ⟨⟨-, hopening⟩, -, hclosing, -⟩ := hnil
  obtain ⟨hisLast, hends⟩ := hp.unmarked hopening hclosing
  rw [hlast hisLast, endedIn_append, endedIn_cons, hends] at h
  simp [endedIn] at h

/-- What a place in the layout of a text has around it. -/
theorem Place.surroundings {p : Place} {content : List Char} (h : p.lines = layout content) :
    (p.part.isLast → p.right = []) ∧ (p.ending = .text → p.below = []) ∧
      ∃ vs, p.below = layoutFrom
        (openBehind false (p.above ++ [⟨p.left ++ p.part :: p.right, p.ending⟩])) vs := by
  obtain ⟨us, cs, vs, hcut, -, hparts, hbelow⟩ := exists_of_layoutFrom h.symm
  refine ⟨lineParts_isLast hparts.symm, fun hending => ?_, vs, hbelow⟩
  have hcut' := (hcut ▸ cut_cutLines content).suffix
  rw [hending] at hcut'
  have hvs : vs = [] := hcut'.eq_nil_of_text
  rw [hbelow, hvs, layoutFrom]

/-- The layout of a text with another text in a comment that ends. -/
theorem Place.layout_withText {p : Place} {content t : List Char} (h : p.lines = layout content)
    (hp : p.part.Admits t) (hmore : p.ended < endedIn (p.lines.flatMap (·.parts))) :
    ∃ t' e', (t' = t ∨ t' ++ ['\r'] = t ∧ p.ending = .feed) ∧ p.part.Admits t' ∧
      layout (written (p.withText t).lines) =
        p.above ++ ⟨p.left ++ p.part.withText t' :: p.right, e'⟩ :: p.below := by
  obtain ⟨hlast, hbelow, -⟩ := Place.surroundings h
  have hne : p.ending = .text → writtenParts (p.left ++ p.part.withText t :: p.right) ≠ [] := by
    intro hending
    refine writtenParts_ne_nil hp hlast ?_
    simp only [Place.ended, Place.lines, hbelow hending, List.flatMap_append, List.flatMap_cons,
      List.flatMap_nil, List.append_nil, endedIn_append] at hmore ⊢
    omega
  obtain ⟨t', e', ht, hlayout⟩ := Source.layout_withText h.symm hp hne
  obtain ⟨rfl, -⟩ | ⟨rfl, hending, -⟩ := ht
  · exact ⟨t', e', .inl rfl, hp, hlayout⟩
  · exact ⟨t', e', .inr ⟨rfl, hending⟩, hp.of_append, hlayout⟩

/-- Comments are opaque to code. The layout of a text is written as the text, and every comment has
a place in it. Another text at any place of a comment changes the text of this comment there, and
leaves the lines without their comments, all other comments, and so the directives and what they
mention. -/
theorem sourceLines_withText {content : List Char} {line : Nat} {c : Comment}
    (hc : (comments content)[k]? = some (line, c)) :
    written (layout content) = content ∧
    (∃ p : Place, p.lines = layout content ∧ p.part.ends ∧ p.ended = k) ∧
    ∀ p : Place, p.lines = layout content → p.ended = k → ∀ t, p.part.Admits t →
      (∃ start stop t', c.text = trim (start ++ p.part.text ++ stop) ∧
        (t' = t ∨ t' ++ ['\r'] = t ∧ p.ending = .feed) ∧
        comments (written (p.withText t).lines) =
          (comments content).set k (line, { c with text := trim (start ++ t' ++ stop) })) ∧
      (sourceLines (written (p.withText t).lines)).map Line.bare =
        (sourceLines content).map Line.bare ∧
      directives (sourceLines (written (p.withText t).lines)) = directives (sourceLines content) ∧
      mentions (written (p.withText t).lines) = mentions content := by
  simp only [comments_eq, closedComments, scanLines_lines] at hc ⊢
  have hk : k < endedIn ((layout content).flatMap (·.parts)) := by
    rw [← length_closed_scanLaid 1 none]
    exact (List.getElem?_eq_some_iff.mp hc).1
  refine ⟨written_layout content, exists_place hk, fun p hlines hended t hp => ?_⟩
  have hmore : p.ended < endedIn (p.lines.flatMap (·.parts)) := by rwa [hended, hlines]
  obtain ⟨t', e', ht, hp', hlayout⟩ := Place.layout_withText hlines hp hmore
  obtain ⟨hlast, -, vs, hbelow⟩ := Place.surroundings hlines
  have hcode : (layout (written (p.withText t).lines)).map LaidLine.code =
      (layout content).map LaidLine.code := by
    rw [hlayout, ← hlines]
    simp [Place.lines, LaidLine.code, coded_withText]
  have hbare := bare_sourceLines_eq hcode
  have hdirectives := congrArg directives hbare
  rw [directives_bare, directives_bare] at hdirectives
  have hrenewed := renewed_scanLaid hp' hlast e' 1 none p.above hbelow hmore
  rw [← hlayout, ← Place.lines, hlines, ← Place.ended, hended] at hrenewed
  obtain ⟨start, stop, htext, hcomments⟩ := hrenewed.get hc
  exact ⟨⟨start, stop, t', htext, ht, hcomments⟩, hbare, hdirectives,
    by rw [mentions, mentions, hdirectives]⟩

/-- A directive with an apostrophe that looks for its partner through a comment over two lines. -/
def loneApostrophe : List Char := "#error '\\x /*a\n'b*/ y // z\n".toList

/-- The first line of the comment in `loneApostrophe`. -/
def openingPlace : Place where
  above := []
  left := "#error '\\x ".toList.map .code
  part := .block true ['a'] false
  right := []
  ending := .feed
  below := [⟨[.block false ['\'', 'b'] true, .code ' ', .code 'y', .code ' ', .remark [' ', 'z']],
    .feed⟩]

theorem sourceLines_of_loneApostrophe :
    (comments loneApostrophe)[0]? = some (1, ⟨['a', '\n', '\'', 'b'], true⟩) ∧
      openingPlace.lines = layout loneApostrophe ∧ openingPlace.ended = 0 ∧
      openingPlace.part.Admits ['#', '\\'] ∧
      (sourceLines (written (openingPlace.withText ['#', '\\']).lines)).map Line.bare =
        (sourceLines loneApostrophe).map Line.bare := by
  have hc : (comments loneApostrophe)[0]? = some (1, ⟨['a', '\n', '\'', 'b'], true⟩) := by
    decide +kernel
  have hlines : openingPlace.lines = layout loneApostrophe := by decide +kernel
  have hended : openingPlace.ended = 0 := by decide +kernel
  have hadmits : openingPlace.part.Admits ['#', '\\'] := by
    refine ⟨by decide, by decide, ?_⟩
    rw [← splitBlock?_eq_none_iff]
    decide
  exact ⟨hc, hlines, hended, hadmits,
    ((sourceLines_withText hc).2.2 openingPlace hlines hended _ hadmits).2.1⟩

end MacroSweep.Source
