/-! The BLAKE3 hash of a list of bytes. Text is cut into chunks, chunks into blocks; blocks of a
chunk are chained, and chunks are joined in a binary tree whose left parts are full. -/
namespace MacroSweep.Digest

/-- Eight words that stand for a chunk or a part of the tree. -/
abbrev Chain := Vector UInt32 8

/-- Sixteen words, the message of one compression. -/
abbrev Block := Vector UInt32 16

/-- The words every chunk starts from. -/
def start : Chain :=
  #v[0x6A09E667, 0xBB67AE85, 0x3C6EF372, 0xA54FF53A, 0x510E527F, 0x9B05688C, 0x1F83D9AB, 0x5BE0CD19]

/-- The order in which a round takes the words of the message of the round before. -/
def schedule : Vector (Fin 16) 16 := #v[2, 6, 3, 10, 7, 0, 4, 13, 1, 11, 12, 5, 9, 14, 15, 8]

def rotateRight (word : UInt32) (n : UInt32) : UInt32 := (word >>> n) ||| (word <<< (32 - n))

/-- Mixes two message words into four words of the state. -/
def mix (state : Block) (a b c d : Fin 16) (x y : UInt32) : Block :=
  let state := state.set a (state[a] + state[b] + x)
  let state := state.set d (rotateRight (state[d] ^^^ state[a]) 16)
  let state := state.set c (state[c] + state[d])
  let state := state.set b (rotateRight (state[b] ^^^ state[c]) 12)
  let state := state.set a (state[a] + state[b] + y)
  let state := state.set d (rotateRight (state[d] ^^^ state[a]) 8)
  let state := state.set c (state[c] + state[d])
  state.set b (rotateRight (state[b] ^^^ state[c]) 7)

/-- Mixes the columns and then the diagonals of the state. -/
def round (state m : Block) : Block :=
  let state := mix state 0 4 8 12 m[0] m[1]
  let state := mix state 1 5 9 13 m[2] m[3]
  let state := mix state 2 6 10 14 m[4] m[5]
  let state := mix state 3 7 11 15 m[6] m[7]
  let state := mix state 0 5 10 15 m[8] m[9]
  let state := mix state 1 6 11 12 m[10] m[11]
  let state := mix state 2 7 8 13 m[12] m[13]
  mix state 3 4 9 14 m[14] m[15]

def permute (m : Block) : Block := schedule.map fun i => m[i]

def rounds : Nat → Block → Block → Block
  | 0, state, _ => state
  | n + 1, state, m => rounds n (round state m) (permute m)

def firstBlock : UInt32 := 1
def lastBlock : UInt32 := 2
def joined : UInt32 := 4
def whole : UInt32 := 8

/-- The input of one compression: all that is known of a part before it is known to be the root. -/
structure Node where
  chain : Chain
  block : Block
  counter : UInt64
  length : UInt32
  flags : UInt32

/-- The words a node compresses to. -/
def Node.compress (node : Node) : Chain :=
  let h := node.chain
  let state : Block :=
    #v[h[0], h[1], h[2], h[3], h[4], h[5], h[6], h[7], start[0], start[1], start[2], start[3],
      node.counter.toUInt32, (node.counter >>> 32).toUInt32, node.length, node.flags]
  let state := rounds 7 state node.block
  Vector.ofFn fun (i : Fin 8) => state[i.val] ^^^ state[i.val + 8]

/-- The word of four bytes, the least first. -/
def littleWord (bytes : List UInt8) : UInt32 :=
  bytes.foldr (fun byte word => (word <<< 8) ||| byte.toUInt32) 0

/-- A block of at most 64 bytes, filled with zeros. -/
def blockOf (bytes : List UInt8) : Block :=
  Vector.ofFn fun i => littleWord ((bytes.drop (4 * i.val)).take 4)

/-- Chains the blocks of a chunk up to the last, which stays to be compressed. -/
def chunkFrom (counter : UInt64) (flags : UInt32) (chain : Chain) (bytes : List UInt8) : Node :=
  if bytes.length ≤ 64 then
    { chain, counter, block := blockOf bytes, length := bytes.length.toUInt32
      flags := flags ||| lastBlock }
  else
    let node : Node := { chain, counter, block := blockOf (bytes.take 64), length := 64, flags }
    chunkFrom counter 0 node.compress (bytes.drop 64)
termination_by bytes.length
decreasing_by
  rw [List.length_drop]
  omega

def chunkSize : Nat := 1024

/-- How many bytes go to the left: the most full chunks that are a power of two and leave some. -/
def leftSize (size : Nat) : Nat := chunkSize * Nat.pow 2 ((size - 1) / chunkSize).log2

theorem leftSize_pos (size : Nat) : 0 < leftSize size :=
  Nat.mul_pos (by decide) (Nat.two_pow_pos _)

theorem leftSize_lt {size : Nat} (h : chunkSize < size) : leftSize size < size := by
  have hc : 1 ≤ (size - 1) / chunkSize :=
    (Nat.one_le_div_iff (by decide)).mpr (by omega)
  have hl : Nat.pow 2 ((size - 1) / chunkSize).log2 ≤ (size - 1) / chunkSize :=
    Nat.log2_self_le (by omega)
  have hm : chunkSize * ((size - 1) / chunkSize) ≤ size - 1 := Nat.mul_div_le _ _
  have := Nat.mul_le_mul_left chunkSize hl
  unfold leftSize
  omega

/-- The node of two parts. -/
def join (left right : Chain) : Node where
  chain := start
  block := left ++ right
  counter := 0
  length := 64
  flags := joined

/-- The node of the bytes from a chunk on. -/
def tree (counter : Nat) (bytes : List UInt8) : Node :=
  if _h : bytes.length ≤ chunkSize then chunkFrom counter.toUInt64 firstBlock start bytes
  else
    let left := leftSize bytes.length
    join (tree counter (bytes.take left)).compress
      (tree (counter + left / chunkSize) (bytes.drop left)).compress
termination_by bytes.length
decreasing_by
  · have := leftSize_lt (Nat.lt_of_not_le _h)
    rw [List.length_take]
    omega
  · have := leftSize_pos bytes.length
    rw [List.length_drop]
    omega

def hexDigits (byte : UInt8) : List Char :=
  [Nat.digitChar (byte.toNat / 16), Nat.digitChar (byte.toNat % 16)]

def wordBytes (word : UInt32) : List UInt8 :=
  [word.toUInt8, (word >>> 8).toUInt8, (word >>> 16).toUInt8, (word >>> 24).toUInt8]

/-- The hash of bytes. -/
def hash (bytes : List UInt8) : List UInt8 :=
  let root := tree 0 bytes
  { root with flags := root.flags ||| whole }.compress.toList.flatMap wordBytes

/-- The hash of bytes, written in hexadecimal digits. -/
def fingerprint (bytes : List UInt8) : String :=
  String.ofList ((hash bytes).flatMap hexDigits)

end MacroSweep.Digest
