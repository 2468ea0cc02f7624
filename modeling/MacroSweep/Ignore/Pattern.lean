import MacroSweep.Glob
import MacroSweep.Ignore.Sign
import MacroSweep.Text.Utf8

/-! Patterns of ignore files. They are matched byte by byte; braces hold alternatives, which may
hold braces in turn, and two stars in place of a whole segment stand for any number of them. -/
namespace MacroSweep.Ignore

open Text

/-- A pattern. -/
inductive Pattern where
  /-- The empty text. -/
  | empty
  /-- A character as it is. -/
  | literal (c : Char)
  /-- One byte other than a slash. -/
  | anyByte
  /-- Any bytes without a slash. -/
  | star
  /-- Any bytes. -/
  | anyText
  /-- Nothing, or any bytes that end in a slash. -/
  | segments
  /-- One byte of a set, or one outside it. -/
  | oneOf (negated : Bool) (ranges : List (Char × Char))
  /-- One pattern after another. -/
  | seq (p q : Pattern)
  /-- One of two patterns. -/
  | either (p q : Pattern)
  deriving DecidableEq, Repr

/-- A range of characters as ranges of bytes: only its two inner ends span a range. -/
def byteRanges (range : Char × Char) : List (Char × Char) :=
  let low := byteChars [range.1]
  let high := byteChars [range.2]
  if range.1 = range.2 then low.map fun b => (b, b)
  else
    (low.dropLast.map fun b => (b, b)) ++ [(low.getLastD ' ', high.headD ' ')] ++
      (high.tail.map fun b => (b, b))

namespace Pattern

/-- Patterns one after another. -/
def ofList (items : List Pattern) : Pattern := items.foldr .seq .empty

/-- One of several patterns; of none, the empty text. -/
def anyOf : List Pattern → Pattern
  | [] => .empty
  | [p] => p
  | p :: ps => .either p (anyOf ps)

/-- Any number of whole segments between two others. -/
def between : Pattern := .seq (.literal '/') .segments

/-- All that lies below a directory. -/
def inside : Pattern := .seq (.literal '/') .anyText

/-- The positions of a text that a pattern can end at, given those it can start at. -/
def advance (text : List Char) : Pattern → List Bool → List Bool
  | .empty, reached => reached
  | .literal c, reached =>
    (byteChars [c]).foldl (fun reached b => Glob.overOne (· == b) false reached text) reached
  | .anyByte, reached => Glob.overOne (· != '/') false reached text
  | .star, reached => Glob.overRun (· != '/') false reached text
  | .anyText, reached => Glob.overRun (fun _ => true) false reached text
  | .segments, reached => Glob.overSegments false false reached text
  | .oneOf negated ranges, reached =>
    Glob.overOne (fun b => (ranges.any fun (low, high) => low ≤ b && b ≤ high) != negated) false
      reached text
  | .seq p q, reached => q.advance text (p.advance text reached)
  | .either p q, reached =>
    List.zipWith (· || ·) (p.advance text reached) (q.advance text reached)

/-- Whether a pattern matches the whole of a text of bytes. -/
def isMatch (p : Pattern) (text : List Char) : Bool :=
  (p.advance text (true :: text.map fun _ => false)).getLastD false

end Pattern

/-- The pattern of a sign that stands for itself or for one byte, or of a star. -/
def Sign.pattern : Sign → Pattern
  | .literal c => .literal c
  | .slash => .literal '/'
  | .anyChar => .anyByte
  | .star => .star
  | .oneOf negated ranges => .oneOf negated (ranges.flatMap byteRanges)
  | .opening => .literal '\x7b'
  | .comma => .literal ','
  | .closing => .literal '\x7d'

/-- Whether two stars after a sign can stand for segments. Within braces an escaped comma or brace
counts as a slash here. -/
def Sign.opensSegment (inBraces : Bool) : Sign → Bool
  | .slash => true
  | .literal c => c == '/' || inBraces && (c == ',' || c == '\x7b')
  | _ => false

/-- Braces that are being read: the alternatives that are finished, and the items of the one at
hand; the last comes first in both. The whole pattern counts as braces too. -/
structure Braces where
  finished : List (List Pattern) := []
  items : List Pattern := []

namespace Braces

def push (b : Braces) (p : Pattern) : Braces := { b with items := p :: b.items }

/-- Starts the next alternative. -/
def next (b : Braces) : Braces := { finished := b.items :: b.finished }

/-- The pattern of closed braces. An alternative that holds nothing is left out. -/
def close (b : Braces) : Pattern :=
  .anyOf ((b.next.finished.filter (·.any (· ≠ .empty))).reverse.map fun items =>
    .ofList items.reverse)

/-- Puts any number of segments in place of the slash before them. At the start of a pattern they
are there already. -/
def widen (b : Braces) (p : Pattern) : Braces :=
  match b.items with
  | [] | .segments :: _ => b
  | _ :: before => { b with items := p :: before }

/-- Adds two stars with a slash after them. They stand for any number of segments if they start an
alternative or a segment. -/
def pushSegments (b : Braces) (atStart : Bool) : Braces :=
  if b.items.isEmpty then b.push .segments
  else if atStart then b.widen .between
  else (b.push .star).push (.literal '/')

/-- Adds two stars with no slash after them. They stand for all below a directory if they start a
segment and end an alternative. -/
def pushStars (b : Braces) (atStart inBraces : Bool) (rest : List Sign) : Braces :=
  let atEnd := match rest with
    | [] => true
    | s :: _ => inBraces && (s == .comma || s == .closing)
  if b.items.isEmpty then b.push (if rest.isEmpty then .segments else .star)
  else if atStart && atEnd then b.widen .inside
  else b.push .star

/-- Reads the items of a pattern inside the braces `outer`, which all have to close. `atStart` says
whether the sign before lets two stars stand for segments. -/
def read (outer : List Braces) (b : Braces) (atStart : Bool) : List Sign → Option (List Pattern)
  | [] => if outer.isEmpty then some b.items.reverse else none
  | .star :: .star :: .slash :: rest => read outer (b.pushSegments atStart) true rest
  | .star :: .star :: rest => read outer (b.pushStars atStart (!outer.isEmpty) rest) false rest
  | .opening :: rest => read (b :: outer) {} false rest
  | .closing :: rest =>
    match outer with
    | [] => none
    | around :: outer => read outer (around.push b.close) false rest
  | s :: rest =>
    if s = .comma ∧ !outer.isEmpty then read outer b.next false rest
    else read outer (b.push s.pattern) (s.opensSegment (!outer.isEmpty)) rest

end Braces

/-- Reads a pattern. Two stars alone match all. -/
def Pattern.ofChars? (cs : List Char) : Option Pattern := do
  match ← Braces.read [] {} false (← signs? cs) with
  | [.segments] => return .anyText
  | items => return .ofList items

end MacroSweep.Ignore
