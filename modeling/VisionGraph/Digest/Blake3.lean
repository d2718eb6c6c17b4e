/-!
The BLAKE3 digest of a byte string.

The input is cut into chunks of 1024 bytes and every chunk into blocks of 64 bytes. Blocks of a chunk
are compressed in turn, each starting from the chaining value of the one before. Chunks are the leaves
of a binary tree whose left subtrees are complete and as large as possible.
-/

namespace VisionGraph.Blake3

/-- A chaining value: eight words. -/
abbrev Chain := Array UInt32

def initial : Chain :=
  #[0x6A09E667, 0xBB67AE85, 0x3C6EF372, 0xA54FF53A, 0x510E527F, 0x9B05688C, 0x1F83D9AB, 0x5BE0CD19]

/-- The order in which a round takes the words that the round before took in order. -/
def permutation : Array Nat := #[2, 6, 3, 10, 7, 0, 4, 13, 1, 11, 12, 5, 9, 14, 15, 8]

def rotateRight (w : UInt32) (k : UInt32) : UInt32 := (w >>> k) ||| (w <<< (32 - k))

/-- Mixes four words of the state with two words of the block. -/
def mix (s : Array UInt32) (a b c d : Nat) (x y : UInt32) : Array UInt32 :=
  let va := s.getD a 0 + s.getD b 0 + x
  let vd := rotateRight (s.getD d 0 ^^^ va) 16
  let vc := s.getD c 0 + vd
  let vb := rotateRight (s.getD b 0 ^^^ vc) 12
  let va := va + vb + y
  let vd := rotateRight (vd ^^^ va) 8
  let vc := vc + vd
  let vb := rotateRight (vb ^^^ vc) 7
  (((s.setIfInBounds a va).setIfInBounds b vb).setIfInBounds c vc).setIfInBounds d vd

/-- One round: the columns of the state, then its diagonals. -/
def round (s m : Array UInt32) : Array UInt32 :=
  let w (k : Nat) := m.getD k 0
  let s := mix s 0 4 8 12 (w 0) (w 1)
  let s := mix s 1 5 9 13 (w 2) (w 3)
  let s := mix s 2 6 10 14 (w 4) (w 5)
  let s := mix s 3 7 11 15 (w 6) (w 7)
  let s := mix s 0 5 10 15 (w 8) (w 9)
  let s := mix s 1 6 11 12 (w 10) (w 11)
  let s := mix s 2 7 8 13 (w 12) (w 13)
  mix s 3 4 9 14 (w 14) (w 15)

/-- Seven rounds; the block is permuted between rounds. -/
def rounds : (left : Nat) → (s m : Array UInt32) → Array UInt32
  | 0, s, _ => s
  | left + 1, s, m => rounds left (round s m) (permutation.map (m.getD · 0))

def chunkStart : UInt32 := 1
def chunkEnd : UInt32 := 2
def parent : UInt32 := 4
def root : UInt32 := 8

/-- Compresses a block of sixteen words into a chaining value. -/
def compress (chain : Chain) (block : Array UInt32) (counter : Nat) (length : Nat) (flags : UInt32) : Chain :=
  let state := chain ++ initial.extract 0 4 ++
    #[UInt32.ofNat counter, UInt32.ofNat (counter / UInt32.size), UInt32.ofNat length, flags]
  let s := rounds 7 state block
  (Array.range 8).map fun k => s.getD k 0 ^^^ s.getD (k + 8) 0

/-- A word of the input in little-endian order; past the end there are zeros. -/
def word (bytes : ByteArray) (start limit : Nat) : UInt32 :=
  let byte (k : Nat) : UInt32 :=
    if h : k < bytes.size then (if k < limit then bytes[k].toUInt32 else 0) else 0
  byte start ||| (byte (start + 1) <<< 8) ||| (byte (start + 2) <<< 16) ||| (byte (start + 3) <<< 24)

def blockAt (bytes : ByteArray) (start limit : Nat) : Array UInt32 :=
  (Array.range 16).map fun k => word bytes (start + 4 * k) limit

/-- A compression that is still to be done, so that the last one can be marked as the root. -/
structure Pending where
  chain : Chain
  block : Array UInt32
  counter : Nat
  length : Nat
  flags : UInt32

def Pending.value (p : Pending) : Chain := compress p.chain p.block p.counter p.length p.flags

/-- Compresses the blocks of a chunk up to the last one. -/
def chunkBlocks (bytes : ByteArray) (counter limit : Nat) : (left start : Nat) → Chain → UInt32 → Pending
  | 0, start, chain, flags =>
    ⟨chain, blockAt bytes start limit, counter, limit - start, flags ||| chunkEnd⟩
  | left + 1, start, chain, flags =>
    chunkBlocks bytes counter limit left (start + 64)
      (compress chain (blockAt bytes start limit) counter 64 flags) 0

/-- The chunk with a number, up to its last block. -/
def chunk (bytes : ByteArray) (counter : Nat) : Pending :=
  let start := 1024 * counter
  let limit := min bytes.size (start + 1024)
  chunkBlocks bytes counter limit ((limit - start - 1) / 64) start initial chunkStart

def joinChains (left right : Chain) : Pending := ⟨initial, left ++ right, 0, 64, parent⟩

/-- The number of chunks of the left subtree over `n` chunks: the largest power of two below `n`. -/
def leftCount (n : Nat) : Nat := Nat.pow 2 (n - 1).log2

/-- The tree over `n` chunks from a given one on; the depth bounds the recursion. -/
def tree (bytes : ByteArray) : (depth n first : Nat) → Pending
  | 0, _, first => chunk bytes first
  | depth + 1, n, first =>
    if n ≤ 1 then chunk bytes first
    else
      let left := leftCount n
      joinChains (tree bytes depth left first).value (tree bytes depth (n - left) (first + left)).value

/-- The digest as eight words. -/
def digest (bytes : ByteArray) : Chain :=
  let chunks := max ((bytes.size + 1023) / 1024) 1
  let top := tree bytes chunks chunks 0
  { top with flags := top.flags ||| root }.value

def hexByte (b : UInt8) : List Char :=
  [Nat.digitChar (b.toNat / 16), Nat.digitChar (b.toNat % 16)]

/-- The digest in hexadecimal digits. -/
def hex (bytes : ByteArray) : String :=
  String.ofList ((digest bytes).toList.flatMap fun (w : UInt32) =>
    [w, w >>> 8, w >>> 16, w >>> 24].flatMap fun (b : UInt32) => hexByte b.toUInt8)

end VisionGraph.Blake3
