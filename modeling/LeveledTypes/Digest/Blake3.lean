import LeveledTypes.Digest.Basic

/-!
# BLAKE3

The hash function BLAKE3, with an output of 32 bytes and without a key. The input is cut into chunks
of 1024 bytes, each hashed block by block; the chunks are the leaves of a binary tree whose left
subtrees are as large a power of two as leaves something on the right.
-/
namespace LeveledTypes.Blake3

abbrev Words := Vector UInt32 16

abbrev ChainingValue := Vector UInt32 8

def initial : ChainingValue :=
  #v[0x6A09E667, 0xBB67AE85, 0x3C6EF372, 0xA54FF53A, 0x510E527F, 0x9B05688C, 0x1F83D9AB, 0x5BE0CD19]

def chunkStart : UInt32 := 1
def chunkEnd : UInt32 := 2
def parentNode : UInt32 := 4
def rootNode : UInt32 := 8

def chunkSize : Nat := 1024
def blockSize : Nat := 64

def rotateRight (x n : UInt32) : UInt32 := (x >>> n) ||| (x <<< (32 - n))

/-- The quarter round on four words of the state. -/
def mix (s : Words) (a b c d : Fin 16) (x y : UInt32) : Words :=
  let va := s[a] + s[b] + x
  let vd := rotateRight (s[d] ^^^ va) 16
  let vc := s[c] + vd
  let vb := rotateRight (s[b] ^^^ vc) 12
  let va := va + vb + y
  let vd := rotateRight (vd ^^^ va) 8
  let vc := vc + vd
  let vb := rotateRight (vb ^^^ vc) 7
  (((s.set a va).set b vb).set c vc).set d vd

/-- One round: the columns, then the diagonals. -/
def round (s m : Words) : Words :=
  let s := mix s 0 4 8 12 m[0] m[1]
  let s := mix s 1 5 9 13 m[2] m[3]
  let s := mix s 2 6 10 14 m[4] m[5]
  let s := mix s 3 7 11 15 m[6] m[7]
  let s := mix s 0 5 10 15 m[8] m[9]
  let s := mix s 1 6 11 12 m[10] m[11]
  let s := mix s 2 7 8 13 m[12] m[13]
  mix s 3 4 9 14 m[14] m[15]

def permute (m : Words) : Words :=
  #v[m[2], m[6], m[3], m[10], m[7], m[0], m[4], m[13], m[1], m[11], m[12], m[5], m[9],
    m[14], m[15], m[8]]

def rounds : Nat → Words → Words → Words
  | 0, s, _ => s
  | n + 1, s, m => rounds n (round s m) (permute m)

/-- A block ready to be compressed. -/
structure Node where
  cv : ChainingValue
  block : Words
  counter : UInt64
  length : UInt32
  flags : UInt32

/-- The first half of the compressed block. -/
def Node.compress (n : Node) : ChainingValue :=
  let s : Words := #v[n.cv[0], n.cv[1], n.cv[2], n.cv[3], n.cv[4], n.cv[5], n.cv[6], n.cv[7],
    initial[0], initial[1], initial[2], initial[3],
    n.counter.toUInt32, (n.counter >>> 32).toUInt32, n.length, n.flags]
  let s := rounds 7 s n.block
  #v[s[0] ^^^ s[8], s[1] ^^^ s[9], s[2] ^^^ s[10], s[3] ^^^ s[11],
    s[4] ^^^ s[12], s[5] ^^^ s[13], s[6] ^^^ s[14], s[7] ^^^ s[15]]

/-- The byte at an offset, zero past the end. -/
def byteAt (data : ByteArray) (i : Nat) : UInt32 :=
  if h : i < data.size then data[i].toUInt32 else 0

/-- The sixteen words of the block at an offset. -/
def blockAt (data : ByteArray) (offset : Nat) : Words :=
  Vector.ofFn fun i =>
    let o := offset + 4 * i.val
    byteAt data o ||| (byteAt data (o + 1) <<< 8) ||| (byteAt data (o + 2) <<< 16) |||
      (byteAt data (o + 3) <<< 24)

/-- Goes through the blocks of a chunk, of which `length` bytes remain from `offset` on; the last
block is kept back. -/
def chunkFrom (data : ByteArray) (counter : UInt64) (cv : ChainingValue) (offset length : Nat)
    (flags : UInt32) : Node :=
  if _h : length ≤ blockSize then
    ⟨cv, blockAt data offset, counter, length.toUInt32, flags ||| chunkEnd⟩
  else
    let cv := (Node.mk cv (blockAt data offset) counter blockSize.toUInt32 flags).compress
    chunkFrom data counter cv (offset + blockSize) (length - blockSize) 0
termination_by length
decreasing_by simp only [blockSize] at *; omega

/-- The leaf of a chunk. -/
def chunk (data : ByteArray) (index : Nat) : Node :=
  let offset := index * chunkSize
  chunkFrom data index.toUInt64 initial offset (min chunkSize (data.size - offset)) chunkStart

def parent (l r : ChainingValue) : Node :=
  ⟨initial, #v[l[0], l[1], l[2], l[3], l[4], l[5], l[6], l[7], r[0], r[1], r[2], r[3], r[4],
    r[5], r[6], r[7]], 0, blockSize.toUInt32, parentNode⟩

/-- The largest power of two below a number that is at least two. -/
def leftSize (n : Nat) : Nat := 1 <<< Nat.log2 (n - 1)

theorem leftSize_pos (n : Nat) : 0 < leftSize n := by
  simp only [leftSize, Nat.shiftLeft_eq, Nat.one_mul]
  exact Nat.two_pow_pos _

theorem leftSize_lt {n : Nat} (h : 2 ≤ n) : leftSize n < n := by
  have := Nat.log2_self_le (n := n - 1) (by omega)
  simp only [leftSize, Nat.shiftLeft_eq, Nat.one_mul]
  omega

/-- The tree over `count` chunks from the chunk `first` on. -/
def tree (data : ByteArray) (first count : Nat) : Node :=
  if _h : count < 2 then chunk data first
  else
    parent (tree data first (leftSize count)).compress
      (tree data (first + leftSize count) (count - leftSize count)).compress
termination_by count
decreasing_by
  · exact leftSize_lt (by omega)
  · have := leftSize_pos count
    omega

def chunkCount (data : ByteArray) : Nat := (data.size + (chunkSize - 1)) / chunkSize

/-- The digest of a content. -/
def digest (data : ByteArray) : Digest :=
  let root := tree data 0 (chunkCount data)
  let cv := { root with flags := root.flags ||| rootNode }.compress
  ⟨Vector.ofFn fun i => (cv.get ⟨i.val / 4, by omega⟩ >>> (8 * (i.val % 4)).toUInt32).toUInt8⟩

end Blake3

namespace Digest

/-- The digest of a text in UTF-8. -/
def ofText (s : String) : Digest := Blake3.digest s.toUTF8

/-- The digest of a content of its own and of the digests it depends on. A zero byte stands
between. -/
def withDeps (own : ByteArray) (deps : List Digest) : Digest :=
  Blake3.digest (deps.foldl (fun b d => d.bytes.toList.foldl ByteArray.push b) (own.push 0))

end Digest

end LeveledTypes
