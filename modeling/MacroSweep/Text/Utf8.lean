/-! Text as bytes. Reading replaces each ill-formed piece, as long as it can be the start of a
character, by one replacement character. -/
namespace MacroSweep.Text

def encode (cs : List Char) : List UInt8 := cs.flatMap String.utf8EncodeChar

/-- A byte as the character of its number. -/
def byteChar (b : UInt8) : Char := Char.ofNat b.toNat

/-- The bytes of a text, each as a character. -/
def byteChars (cs : List Char) : List Char := (encode cs).map byteChar

/-- How many bytes a text has. -/
def byteLength (cs : List Char) : Nat := cs.foldl (fun n c => n + c.utf8Size) 0

theorem length_le_byteLength (cs : List Char) : cs.length ≤ byteLength cs := by
  have general : ∀ (n : Nat) (cs : List Char),
      n + cs.length ≤ cs.foldl (fun n c => n + c.utf8Size) n := by
    intro n cs
    induction cs generalizing n with
    | nil => exact Nat.le_refl n
    | cons c cs ih =>
      have hc := c.utf8Size_pos
      have hcs := ih (n + c.utf8Size)
      simp only [List.length_cons, List.foldl_cons]
      omega
  have h := general 0 cs
  rwa [Nat.zero_add] at h

/-- All characters. -/
def chars : List Char := (List.range 0x110000).map Char.ofNat

theorem mem_chars (c : Char) : c ∈ chars := by
  refine List.mem_map.mpr ⟨c.toNat, List.mem_range.mpr ?_, Char.ofNat_toNat c⟩
  have hvalid : c.toNat < 0xD800 ∨ (0xDFFF < c.toNat ∧ c.toNat < 0x110000) := c.valid
  omega

/-- All texts of at most so many characters. -/
def textsUpTo : Nat → List (List Char)
  | 0 => [[]]
  | n + 1 => [] :: (textsUpTo n).flatMap fun cs => chars.map (· :: cs)

theorem mem_textsUpTo {n : Nat} {cs : List Char} (h : cs.length ≤ n) : cs ∈ textsUpTo n := by
  induction n generalizing cs with
  | zero => simp [textsUpTo, List.length_eq_zero_iff.mp (Nat.le_zero.mp h)]
  | succ n ih =>
    cases cs with
    | nil => exact List.mem_cons_self
    | cons c cs =>
      refine List.mem_cons_of_mem _ (List.mem_flatMap.mpr ⟨cs, ih (Nat.le_of_succ_le_succ h), ?_⟩)
      exact List.mem_map.mpr ⟨c, mem_chars c, rfl⟩

/-- The character that stands for bytes that are no text. -/
def replacement : Char := '�'

/-- The bytes that may follow a first byte, by place, and the bits that the first byte gives. -/
def followers? (first : UInt8) : Option (Nat × List (UInt8 × UInt8)) :=
  let any : UInt8 × UInt8 := (0x80, 0xBF)
  if first < 0x80 then some (first.toNat, [])
  else if first < 0xC2 then none
  else if first < 0xE0 then some ((first - 0xC0).toNat, [any])
  else if first = 0xE0 then some (0, [(0xA0, 0xBF), any])
  else if first = 0xED then some (0xD, [(0x80, 0x9F), any])
  else if first < 0xF0 then some ((first - 0xE0).toNat, [any, any])
  else if first = 0xF0 then some (0, [(0x90, 0xBF), any, any])
  else if first < 0xF4 then some ((first - 0xF0).toNat, [any, any, any])
  else if first = 0xF4 then some (4, [(0x80, 0x8F), any, any])
  else none

/-- Reads the bytes after the first; a byte out of range ends the piece and is left. -/
def readFollowers (value : Nat) : List (UInt8 × UInt8) → List UInt8 → Option Nat × List UInt8
  | [], bytes => (some value, bytes)
  | (low, high) :: ranges, byte :: bytes =>
    if low ≤ byte ∧ byte ≤ high then
      readFollowers (value * 64 + byte.toNat % 64) ranges bytes
    else (none, byte :: bytes)
  | _ :: _, [] => (none, [])

theorem length_readFollowers_le (value : Nat) (ranges : List (UInt8 × UInt8))
    (bytes : List UInt8) : (readFollowers value ranges bytes).2.length ≤ bytes.length := by
  induction ranges generalizing value bytes with
  | nil => simp [readFollowers]
  | cons r ranges ih =>
    cases bytes with
    | nil => simp [readFollowers]
    | cons b bytes =>
      simp only [readFollowers]
      split
      · exact Nat.le_succ_of_le (ih _ bytes)
      · simp

/-- Reads one character, or none for an ill-formed piece, with the bytes that follow. -/
def readChar (first : UInt8) (bytes : List UInt8) : Option Char × List UInt8 :=
  match followers? first with
  | none => (none, bytes)
  | some (value, ranges) =>
    let (code, rest) := readFollowers value ranges bytes
    (code.map Char.ofNat, rest)

theorem length_readChar_le (first : UInt8) (bytes : List UInt8) :
    (readChar first bytes).2.length ≤ bytes.length := by
  unfold readChar
  split
  · exact Nat.le_refl _
  · exact length_readFollowers_le _ _ _

/-- The characters of bytes, with none for each ill-formed piece. -/
def pieces : List UInt8 → List (Option Char)
  | [] => []
  | first :: bytes => (readChar first bytes).1 :: pieces (readChar first bytes).2
termination_by bytes => bytes.length
decreasing_by exact Nat.lt_succ_of_le (length_readChar_le first bytes)

/-- Reads bytes as text, whatever they are. -/
def decodeLossy (bytes : List UInt8) : List Char :=
  (pieces bytes).map fun piece => piece.getD replacement

/-- Reads bytes that are all text. -/
def decode? (bytes : List UInt8) : Option (List Char) := (pieces bytes).mapM id

end MacroSweep.Text
