import MacroSweep.Markup.Reference
import MacroSweep.Text.Lines

/-! A markup document as a stream of tags and texts. Comments, declarations and literal sections are
passed over, and attributes are not looked at. -/
namespace MacroSweep.Markup

open Text

/-- A part of a document. -/
inductive Event where
  | opening (name : String)
  | closing (name : String)
  | empty (name : String)
  /-- A text between tags without the blanks around it, references not yet replaced. -/
  | text (raw : List Char)
  deriving DecidableEq, Repr

/-- Why a document is no markup. -/
inductive MarkupError where
  | unclosedTag
  | unclosedComment
  | unclosedSection
  | unclosedInstruction
  | unclosedDoctype
  | unknownMarkup
  | missingDoctypeName
  | unmatchedEnd (name : String)
  | mismatchedEnd (expected found : String)
  deriving DecidableEq, Repr

def MarkupError.message : MarkupError → String
  | unclosedTag => "syntax error: tag not closed: `>` not found before end of input"
  | unclosedComment => "syntax error: comment not closed: `-->` not found before end of input"
  | unclosedSection => "syntax error: CDATA not closed: `]]>` not found before end of input"
  | unclosedInstruction =>
    "syntax error: processing instruction or xml declaration not closed: " ++
      "`?>` not found before end of input"
  | unclosedDoctype => "syntax error: DOCTYPE not closed: `>` not found before end of input"
  | unknownMarkup => "syntax error: unknown or missed symbol in markup"
  | missingDoctypeName =>
    "ill-formed document: `<!DOCTYPE>` declaration does not contain a name of a document type"
  | unmatchedEnd name =>
    s!"ill-formed document: close tag `</{name}>` does not match any open tag"
  | mismatchedEnd expected found =>
    s!"ill-formed document: expected `</{expected}>`, but `</{found}>` was found"

/-- How a document ends: at its end, or at an error. -/
inductive Ending where
  | done
  | failed (error : MarkupError)
  deriving DecidableEq, Repr

/-- The events of a document, each with the byte position reached, and its end. -/
structure Stream where
  events : List (Event × Nat)
  ending : Ending
  position : Nat
  deriving DecidableEq, Repr

def Stream.cons (e : Event) (position : Nat) (s : Stream) : Stream :=
  { s with events := (e, position) :: s.events }

/-- The blanks of markup. -/
def isSpace (c : Char) : Bool := c == ' ' || c == '\t' || c == '\n' || c == '\r'

/-- Cuts at the first `>` before which the text read so far, last character first, is complete. -/
def cutComplete? (complete : List Char → Bool) (seen : List Char) :
    List Char → Option (List Char × List Char)
  | [] => none
  | c :: cs =>
    if c = '>' ∧ complete seen then some (seen.reverse, cs)
    else cutComplete? complete (c :: seen) cs

/-- Cuts at the first `>` outside quotes; `quote` is the quote that is open. -/
def cutTag? (quote : Option Char) : List Char → Option (List Char × List Char)
  | [] => none
  | c :: cs =>
    if quote = none ∧ c = '>' then some ([], cs)
    else
      let next := match quote with
        | none => if c = '\'' ∨ c = '"' then some c else none
        | some q => if c = q then none else some q
      (cutTag? next cs).map fun (inside, rest) => (c :: inside, rest)

theorem length_of_cutComplete? {complete : List Char → Bool} {seen cs inside rest : List Char}
    (h : cutComplete? complete seen cs = some (inside, rest)) : rest.length < cs.length := by
  induction cs generalizing seen with
  | nil => simp [cutComplete?] at h
  | cons c cs ih =>
    unfold cutComplete? at h
    split at h
    · cases h; simp
    · exact Nat.lt_succ_of_lt (ih h)

theorem length_of_cutTag? {quote : Option Char} {cs inside rest : List Char}
    (h : cutTag? quote cs = some (inside, rest)) : rest.length < cs.length := by
  induction cs generalizing quote inside with
  | nil => simp [cutTag?] at h
  | cons c cs ih =>
    unfold cutTag? at h
    split at h
    · cases h; simp
    · simp only [Option.map_eq_some_iff, Prod.exists, Prod.mk.injEq] at h
      obtain ⟨_, _, h, _, rfl⟩ := h
      exact Nat.lt_succ_of_lt (ih h)

/-- The name that opens the inside of a tag. -/
def tagName (inside : List Char) : String := String.ofList (inside.takeWhile (fun c => !isSpace c))

/-- The name of a closing tag, to whose end blanks do not belong. -/
def closingName (inside : List Char) : String :=
  String.ofList (if inside.all isSpace then inside else dropEndWhile isSpace inside)

/-- What stands between angle brackets. -/
inductive Tag where
  | opening (name : String)
  | closing (name : String)
  | empty (name : String)
  /-- Markup that is passed over. -/
  | other
  deriving DecidableEq, Repr

/-- Reads a tag after its opening bracket. -/
def readElement (cs : List Char) : Except MarkupError (Tag × List Char) :=
  match cutTag? none cs with
  | none => .error .unclosedTag
  | some ('/' :: inside, rest) => .ok (.closing (closingName inside), rest)
  | some (inside, rest) =>
    if inside.getLast? = some '/' then .ok (.empty (tagName inside.dropLast), rest)
    else .ok (.opening (tagName inside), rest)

/-- Reads markup that must open with `start` and be complete before its `>`. -/
def readSkipped (start : String) (error : MarkupError) (complete : List Char → Bool)
    (cs : List Char) : Except MarkupError (Tag × List Char) :=
  match cutComplete? complete [] cs with
  | some (inside, rest) =>
    if start.toList.isPrefixOf inside then .ok (.other, rest) else .error error
  | none => .error error

/-- Whether a comment may end after the text read so far, which cannot share its dashes with the
start. -/
def completeComment : List Char → Bool
  | '-' :: '-' :: seen => 2 < seen.length
  | _ => false

def completeSection : List Char → Bool
  | ']' :: ']' :: _ => true
  | _ => false

def completeInstruction : List Char → Bool
  | '?' :: _ => true
  | _ => false

/-- Whether as many brackets open as close in the text read so far. -/
def completeDoctype (seen : List Char) : Bool := seen.count '<' == seen.count '>'

/-- Reads a document type declaration, whose first word may be in either case. -/
def readDoctype (cs : List Char) : Except MarkupError (Tag × List Char) :=
  match cutComplete? completeDoctype [] cs with
  | none => .error .unclosedDoctype
  | some (inside, rest) =>
    if (inside.take 8).map Char.toUpper = "!DOCTYPE".toList then
      if (inside.drop 8).all isSpace then .error .missingDoctypeName else .ok (.other, rest)
    else .error .unclosedDoctype

/-- Reads the markup that follows an opening bracket. -/
def readTag : List Char → Except MarkupError (Tag × List Char)
  | [] => .error .unclosedTag
  | '!' :: '-' :: cs => readSkipped "!--" .unclosedComment completeComment ('!' :: '-' :: cs)
  | '!' :: '[' :: cs => readSkipped "![CDATA[" .unclosedSection completeSection ('!' :: '[' :: cs)
  | '!' :: 'D' :: cs => readDoctype ('!' :: 'D' :: cs)
  | '!' :: 'd' :: cs => readDoctype ('!' :: 'd' :: cs)
  | '!' :: _ => .error .unknownMarkup
  | '?' :: '>' :: _ => .error .unclosedInstruction
  | '?' :: cs => readSkipped "?" .unclosedInstruction completeInstruction ('?' :: cs)
  | cs => readElement cs

theorem length_of_readElement {cs rest : List Char} {t : Tag}
    (h : readElement cs = .ok (t, rest)) : rest.length < cs.length := by
  unfold readElement at h
  split at h
  · cases h
  · next hc => cases h; exact length_of_cutTag? hc
  · next hc => split at h <;> cases h <;> exact length_of_cutTag? hc

theorem length_of_readSkipped {start : String} {error : MarkupError}
    {complete : List Char → Bool} {cs rest : List Char} {t : Tag}
    (h : readSkipped start error complete cs = .ok (t, rest)) : rest.length < cs.length := by
  unfold readSkipped at h
  split at h
  · next hc => split at h <;> cases h; exact length_of_cutComplete? hc
  · cases h

theorem length_of_readDoctype {cs rest : List Char} {t : Tag}
    (h : readDoctype cs = .ok (t, rest)) : rest.length < cs.length := by
  unfold readDoctype at h
  split at h
  · cases h
  · next hc =>
    split at h
    · split at h <;> cases h; exact length_of_cutComplete? hc
    · cases h

theorem length_of_readTag {cs rest : List Char} {t : Tag}
    (h : readTag cs = .ok (t, rest)) : rest.length < cs.length := by
  unfold readTag at h
  split at h
  · cases h
  · exact length_of_readSkipped h
  · exact length_of_readSkipped h
  · exact length_of_readDoctype h
  · exact length_of_readDoctype h
  · cases h
  · cases h
  · exact length_of_readSkipped h
  · exact length_of_readElement h

/-- Where an error is reported: at the bracket that opens the markup, except that a missing name
is reported where it is expected. -/
def errorPosition (size : Nat) (error : MarkupError) (markup : List Char) : Nat :=
  match error with
  | .missingDoctypeName =>
    match cutComplete? completeDoctype [] markup with
    | some (_, rest) => size - byteLength rest - 1
    | none => size - byteLength markup - 1
  | _ => size - byteLength markup - 1

mutual

/-- Reads the rest of a document of `size` bytes from a place between tags. `opened` holds the
names of the open elements, the innermost first. -/
def readText (size : Nat) (opened : List String) (cs : List Char) : Stream :=
  match _h : (cs.dropWhile isSpace).dropWhile (· != '<') with
  | [] =>
    match dropEndWhile isSpace (cs.dropWhile isSpace) with
    | [] => ⟨[], .done, size⟩
    | raw => ⟨[(.text raw, size)], .done, size⟩
  | bracket :: markup =>
    let position := size - byteLength (bracket :: markup)
    match dropEndWhile isSpace ((cs.dropWhile isSpace).takeWhile (· != '<')) with
    | [] => readMarkup size opened markup
    | raw => (readMarkup size opened markup).cons (.text raw) position
termination_by cs.length
decreasing_by
  all_goals
    have h1 := length_dropWhile_le (· != '<') (cs.dropWhile isSpace)
    have h2 := length_dropWhile_le isSpace cs
    rw [_h] at h1
    simp only [List.length_cons] at h1; omega

/-- Reads the rest of a document from a place after an opening bracket. -/
def readMarkup (size : Nat) (opened : List String) (cs : List Char) : Stream :=
  let failed (error : MarkupError) : Stream := ⟨[], .failed error, errorPosition size error cs⟩
  match _h : readTag cs with
  | .error error => failed error
  | .ok (tag, rest) =>
    let position := size - byteLength rest
    match tag with
    | .other => readText size opened rest
    | .empty name => (readText size opened rest).cons (.empty name) position
    | .opening name => (readText size (name :: opened) rest).cons (.opening name) position
    | .closing name =>
      match opened with
      | [] => failed (.unmatchedEnd name)
      | expected :: outer =>
        if name = expected then (readText size outer rest).cons (.closing name) position
        else failed (.mismatchedEnd expected name)
termination_by cs.length
decreasing_by
  all_goals exact length_of_readTag _h

end

/-- The line of a byte position. -/
def lineAt (content : List Char) (position : Nat) : Nat :=
  let rec count (position : Nat) : List Char → Nat
    | [] => 0
    | c :: cs =>
      if position = 0 then 0
      else (if c = '\n' then 1 else 0) + count (position - c.utf8Size) cs
  count position content + 1

/-- The events of a document. A byte order mark at its start is passed over, and positions do not
count it. -/
def read (content : List Char) : Stream :=
  let text := match content with
    | '\uFEFF' :: text => text
    | text => text
  readText (byteLength text) [] text

end MacroSweep.Markup
