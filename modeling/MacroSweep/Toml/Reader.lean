import MacroSweep.Toml.Quoted
import MacroSweep.Toml.Scalar
import MacroSweep.Toml.Table

/-! Reading TOML text. -/
namespace MacroSweep.Toml

open Text

/-- How many values may lie within one another, and how many parts a dotted key may have, is less
than this. -/
def maxNesting : Nat := 80

def skipSpace (cs : List Char) : List Char := cs.dropWhile isSpace

theorem length_skipSpace_le (cs : List Char) : (skipSpace cs).length ≤ cs.length :=
  length_dropWhile_le isSpace cs

theorem lt_of_skipSpace {cs rest : List Char} {c : Char} (h : skipSpace cs = c :: rest) :
    rest.length < cs.length := by
  have := length_skipSpace_le cs
  rwa [h] at this

/-- Drops a comment. -/
def skipComment : List Char → List Char
  | '#' :: cs => cs.dropWhile isPrintable
  | cs => cs

/-- Drops blanks, line endings and comments. -/
def skipTrivia (cs : List Char) : List Char :=
  match _h : cs.dropWhile fun c => isSpace c || c == '\n' with
  | '#' :: rest => skipTrivia (rest.dropWhile isPrintable)
  | rest => rest
termination_by cs.length
decreasing_by
  have := length_dropWhile_le (fun c => isSpace c || c == '\n') cs
  have := length_dropWhile_le isPrintable rest
  rw [_h, List.length_cons] at *
  omega

theorem length_skipTrivia_le (cs : List Char) : (skipTrivia cs).length ≤ cs.length := by
  fun_induction skipTrivia cs with
  | case1 cs rest h ih =>
    have := length_dropWhile_le (fun c => isSpace c || c == '\n') cs
    have := length_dropWhile_le isPrintable rest
    rw [h, List.length_cons] at *
    omega
  | case2 cs => exact length_dropWhile_le _ cs

theorem lt_of_skipTrivia {cs rest : List Char} {c : Char} (h : skipTrivia cs = c :: rest) :
    rest.length < cs.length := by
  have := length_skipTrivia_le cs
  rwa [h] at this

/-- The characters of a key without quotes. -/
def isBareChar (c : Char) : Bool := c.isAlphanum || c == '_' || c == '-'

/-- Reads one part of a key. -/
def readSimpleKey : Reader String
  | [] => none
  | c :: rest =>
    if c = '"' then (readLine readBasic rest).map fun (key, l) => (key, l.cons c)
    else if c = '\'' then (readLine readLiteral rest).map fun (key, l) => (key, l.cons c)
    else if isBareChar c then
      some (String.ofList (c :: rest.takeWhile isBareChar),
        (Left.tail c rest).shrink _ (length_dropWhile_le isBareChar rest))
    else none

/-- Reads a key, whose parts have dots between them. -/
def readKey (cs : List Char) : Option (List String × Left cs) :=
  match readSimpleKey (skipSpace cs) with
  | none => none
  | some (key, r) =>
    match _h : skipSpace r.1 with
    | '.' :: rest =>
      match readKey rest with
      | none => none
      | some (keys, last) =>
        some (key :: keys,
          ((r.next ⟨rest, lt_of_skipSpace _h⟩).next last).within (length_skipSpace_le cs))
    | rest =>
      some ([key],
        (r.shrink rest (_h ▸ length_skipSpace_le r.1)).within (length_skipSpace_le cs))
termination_by cs.length
decreasing_by
  exact Nat.lt_of_lt_of_le (r.next ⟨rest, lt_of_skipSpace _h⟩).2 (length_skipSpace_le cs)

/-- A key and its value. -/
abbrev Entry := List String × Value

/-- Reads a key and its value, with a sign of equality between them. -/
def readEntry (value : Reader Value) (cs : List Char) : Option (Entry × Left cs) :=
  match readKey cs with
  | none => none
  | some (path, r) =>
    match _h : r.1 with
    | '=' :: rest =>
      match value (skipSpace rest) with
      | none => none
      | some (v, last) =>
        if path.length < maxNesting then
          some ((path, v), (r.after _h).next (last.within (length_skipSpace_le rest)))
        else none
    | _ => none

/-- Reads the items of an array, and the bracket that closes it. -/
def readItems (value : Reader Value) (cs : List Char) : Option (List Value × Left cs) :=
  match cs with
  | ']' :: rest => some ([], .tail _ rest)
  | cs =>
    match value cs with
    | none => none
    | some (v, r) =>
      match _h : skipTrivia r.1 with
      | ']' :: rest => some ([v], r.next ⟨rest, lt_of_skipTrivia _h⟩)
      | ',' :: rest =>
        match readItems value (skipTrivia rest) with
        | none => none
        | some (vs, last) =>
          some (v :: vs,
            (r.next ⟨rest, lt_of_skipTrivia _h⟩).next (last.within (length_skipTrivia_le rest)))
      | _ => none
termination_by cs.length
decreasing_by
  exact Nat.lt_of_le_of_lt (length_skipTrivia_le rest) (r.next ⟨rest, lt_of_skipTrivia _h⟩).2

/-- Reads the entries of an inline table, at least one, and the brace that closes it. -/
def readEntries (value : Reader Value) (cs : List Char) : Option (List Entry × Left cs) :=
  match readEntry value cs with
  | none => none
  | some (e, r) =>
    match _h : skipSpace r.1 with
    | '\x7d' :: rest => some ([e], r.next ⟨rest, lt_of_skipSpace _h⟩)
    | ',' :: rest =>
      match readEntries value rest with
      | none => none
      | some (es, last) => some (e :: es, (r.next ⟨rest, lt_of_skipSpace _h⟩).next last)
    | _ => none
termination_by cs.length
decreasing_by
  exact (r.next ⟨rest, lt_of_skipSpace _h⟩).2

/-- Reads an array after its opening bracket. -/
def readArray (value : Reader Value) (cs : List Char) : Option (Value × Left cs) :=
  match readItems value (skipTrivia cs) with
  | none => none
  | some (items, r) =>
    some (.array items, r.within (length_skipTrivia_le cs))

/-- Reads an inline table after its opening brace. -/
def readTable (value : Reader Value) (cs : List Char) : Option (Value × Left cs) :=
  match _h : skipSpace cs with
  | '\x7d' :: rest => some (.table [], ⟨rest, lt_of_skipSpace _h⟩)
  | _ =>
    match readEntries value cs with
    | none => none
    | some (entries, r) => (inlineTable? entries).map fun table => (table, r)

/-- Reads quoted text after its opening quote. -/
def readQuoted (quote : Char) (line lines : Reader (List Char)) (cs : List Char) :
    Option (Value × Left cs) :=
  match cs with
  | a :: b :: rest =>
    if a = quote ∧ b = quote then
      (readLines lines rest).map fun (s, l) => (.string s, (l.cons b).cons a)
    else (readLine line (a :: b :: rest)).map fun (s, l) => (.string s, l)
  | cs => (readLine line cs).map fun (s, l) => (.string s, l)

/-- Reads a value without quotes or brackets. -/
def readScalar (cs : List Char) : Option (Value × Left cs) :=
  let (word, rest) := splitScalar cs
  if h : rest.length < cs.length then (scalar? word).map fun v => (v, ⟨rest, h⟩) else none

/-- Reads a value in which others may lie within one another `depth` deep. -/
def readValue (depth : Nat) (cs : List Char) : Option (Value × Left cs) :=
  match depth, cs with
  | _, [] => none
  | depth, c :: rest =>
    if c = '"' then (readQuoted '"' readBasic readBasicLines rest).map fun (v, l) => (v, l.cons c)
    else if c = '\'' then
      (readQuoted '\'' readLiteral readLiteralLines rest).map fun (v, l) => (v, l.cons c)
    else
      match depth with
      | 0 => if c = '[' ∨ c = '\x7b' then none else readScalar (c :: rest)
      | depth + 1 =>
        if c = '[' then (readArray (readValue depth) rest).map fun (v, l) => (v, l.cons c)
        else if c = '\x7b' then (readTable (readValue depth) rest).map fun (v, l) => (v, l.cons c)
        else readScalar (c :: rest)

/-- A line of a document: an entry of the current table, or the header of another table. -/
inductive Statement where
  | entry (path : List String) (v : Value)
  | table (path : List String)
  | item (path : List String)

/-- Reads a header after its first bracket. -/
def readHeader (cs : List Char) : Option (Statement × Left cs) :=
  match cs with
  | '[' :: rest =>
    match readKey rest with
    | some (path, r) =>
      match _h : r.1 with
      | ']' :: ']' :: last => some (.item path, ((r.after _h).next (.tail ']' last)).cons '[')
      | _ => none
    | none => none
  | cs =>
    match readKey cs with
    | some (path, r) =>
      match _h : r.1 with
      | ']' :: _ => some (.table path, r.after _h)
      | _ => none
    | none => none

/-- Whether the parts of a header's key are few enough. -/
def Statement.isShallow : Statement → Bool
  | entry _ _ => true
  | table path => path.length < maxNesting
  | item path => path.length < maxNesting

/-- Reads a header or an entry. -/
def readStatement (cs : List Char) : Option (Statement × Left cs) :=
  match cs with
  | '[' :: rest =>
    match readHeader rest with
    | some (s, l) => if s.isShallow then some (s, l.cons '[') else none
    | none => none
  | cs => (readEntry (readValue (maxNesting - 1)) cs).map fun ((path, v), l) => (.entry path v, l)

/-- Reads the statements of a document, each on a line of its own. -/
def readStatements (cs : List Char) : Option (List Statement) :=
  match _h : skipTrivia cs with
  | [] => some []
  | c :: rest =>
    match readStatement (c :: rest) with
    | none => none
    | some (s, r) =>
      match _h' : skipComment (skipSpace r.1) with
      | [] => some [s]
      | '\n' :: rest => (readStatements rest).map (s :: ·)
      | _ => none
termination_by cs.length
decreasing_by
  have h1 := length_skipTrivia_le cs
  have h2 := length_skipSpace_le r.1
  have h3 : (skipComment (skipSpace r.1)).length ≤ (skipSpace r.1).length := by
    unfold skipComment
    split
    · next hc => rw [hc]; exact Nat.le_succ_of_le (length_dropWhile_le _ _)
    · exact Nat.le_refl _
  have h4 := r.2
  rw [_h] at h1
  rw [_h', List.length_cons] at h3
  omega

/-- A document that is being read, and the table its next entries go to. -/
structure Draft where
  fields : Fields := []
  current : List String := []

/-- Changes the table at the end of a path of headers. -/
def alterHeader (change : String → Fields → Option Fields) (path : List String) (fs : Fields) :
    Option Fields := do
  Fields.alterAt (change (← path.getLast?)) path.dropLast fs

/-- Adds a statement. -/
def Draft.add (d : Draft) : Statement → Option Draft
  | .entry path v => do
    return { d with fields := ← Fields.alterAt (Fields.insert path v) d.current d.fields }
  | .table path => do
    return { fields := ← alterHeader Fields.writeTable path d.fields, current := path }
  | .item path => do
    return { fields := ← alterHeader Fields.addTable path d.fields, current := path }

/-- Line endings as line feeds. -/
def dropReturns : List Char → List Char
  | [] => []
  | '\r' :: '\n' :: cs => '\n' :: dropReturns cs
  | c :: cs => c :: dropReturns cs

/-- The mark that may open a text. -/
def dropMark : List Char → List Char
  | '\uFEFF' :: cs => cs
  | cs => cs

/-- Reads a document; its value is a table. -/
def parse? (text : List Char) : Option Value := do
  let statements ← readStatements (dropReturns (dropMark text))
  let draft ← statements.foldlM Draft.add {}
  return .table (finishFields draft.fields)

end MacroSweep.Toml
