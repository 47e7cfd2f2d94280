/-!
# Digests of keys

A key is identified by its BLAKE3 digest. The input is cut into chunks of 1024 bytes, a chunk into
blocks of 64 bytes that are compressed one after another, and the chunks are joined by a binary tree
whose left half is always the greatest power of two of chunks that leaves something to the right.

## Main definitions

* `Blake3.compress`: the compression function
* `Blake3.subtree`: the node that covers a run of bytes
* `Blake3.hash`: the eight words of a digest
* `Blake3.headWord`: the first eight bytes of a digest as one little-endian word
-/

namespace Barrage.Blake3

/-- The eight words every chaining value starts from. -/
def initial : List UInt32 :=
  [0x6A09E667, 0xBB67AE85, 0x3C6EF372, 0xA54FF53A, 0x510E527F, 0x9B05688C, 0x1F83D9AB, 0x5BE0CD19]

/-- Where each message word of the next round comes from. -/
def schedule : List Nat := [2, 6, 3, 10, 7, 0, 4, 13, 1, 11, 12, 5, 9, 14, 15, 8]

/-- Bytes of a chunk. -/
def chunkBytes : Nat := 1024

/-- Bytes of a block. -/
def blockBytes : Nat := 64

/-- Marks of a compression: the first and the last block of a chunk, a parent node, the root. -/
def chunkStart : UInt32 := 1
/-- Mark of the last block of a chunk. -/
def chunkEnd : UInt32 := 2
/-- Mark of a node above two others. -/
def parentMark : UInt32 := 4
/-- Mark of the node that covers the whole input. -/
def rootMark : UInt32 := 8

/-- Rotates a word to the right. -/
def rotate (x : UInt32) (n : UInt32) : UInt32 := (x >>> n) ||| (x <<< (32 - n))

/-- A word of a state or a message. -/
def wordAt (v : Array UInt32) (i : Nat) : UInt32 := v.getD i 0

/-- Mixes two message words into a column or a diagonal of the state. -/
def mix (v : Array UInt32) (a b c d : Nat) (x y : UInt32) : Array UInt32 :=
  let va := wordAt v a + wordAt v b + x
  let vd := rotate (wordAt v d ^^^ va) 16
  let vc := wordAt v c + vd
  let vb := rotate (wordAt v b ^^^ vc) 12
  let va := va + vb + y
  let vd := rotate (vd ^^^ va) 8
  let vc := vc + vd
  let vb := rotate (vb ^^^ vc) 7
  (((v.setIfInBounds a va).setIfInBounds b vb).setIfInBounds c vc).setIfInBounds d vd

/-- One round: the four columns, then the four diagonals. -/
def round (v m : Array UInt32) : Array UInt32 :=
  let v := mix v 0 4 8 12 (wordAt m 0) (wordAt m 1)
  let v := mix v 1 5 9 13 (wordAt m 2) (wordAt m 3)
  let v := mix v 2 6 10 14 (wordAt m 4) (wordAt m 5)
  let v := mix v 3 7 11 15 (wordAt m 6) (wordAt m 7)
  let v := mix v 0 5 10 15 (wordAt m 8) (wordAt m 9)
  let v := mix v 1 6 11 12 (wordAt m 10) (wordAt m 11)
  let v := mix v 2 7 8 13 (wordAt m 12) (wordAt m 13)
  mix v 3 4 9 14 (wordAt m 14) (wordAt m 15)

/-- The message of the next round. -/
def permute (m : Array UInt32) : Array UInt32 := (schedule.map (wordAt m)).toArray

/-- Runs a number of rounds. -/
def rounds : Nat → Array UInt32 → Array UInt32 → Array UInt32
  | 0, v, _ => v
  | n + 1, v, m => rounds n (round v m) (permute m)

/-- The input of one compression, kept apart from its output so that the root can be marked. -/
structure Node where
  chaining : List UInt32
  block : List UInt32
  counter : Nat
  length : Nat
  marks : UInt32

/-- Seven rounds over a node; the first eight words are folded with the last eight. -/
def compress (node : Node) (marks : UInt32) : List UInt32 :=
  let start := node.chaining ++ initial.take 4 ++
    [node.counter.toUInt32, (node.counter >>> 32).toUInt32, node.length.toUInt32, node.marks ||| marks]
  let v := rounds 7 start.toArray node.block.toArray
  (List.range 8).map fun i => wordAt v i ^^^ wordAt v (i + 8)

/-- The chaining value a node hands to the node above it. -/
def Node.value (node : Node) : List UInt32 := compress node 0

/-- Reads little-endian words; a short last word is filled with zero bytes. -/
def words : List UInt8 → List UInt32
  | a :: b :: c :: d :: rest =>
    (a.toUInt32 ||| b.toUInt32 <<< 8 ||| c.toUInt32 <<< 16 ||| d.toUInt32 <<< 24) :: words rest
  | [a, b, c] => [a.toUInt32 ||| b.toUInt32 <<< 8 ||| c.toUInt32 <<< 16]
  | [a, b] => [a.toUInt32 ||| b.toUInt32 <<< 8]
  | [a] => [a.toUInt32]
  | [] => []

/-- The sixteen words of a block, filled with zeros. -/
def blockWords (bytes : List UInt8) : List UInt32 :=
  let ws := words bytes
  ws ++ List.replicate (16 - ws.length) 0

/-- Compresses the blocks of a chunk in turn; the last block is left as a node. -/
def chunkNode (counter : Nat) (chaining : List UInt32) (marks : UInt32) (bytes : List UInt8) : Node :=
  if blockBytes < bytes.length then
    let node : Node := ⟨chaining, blockWords (bytes.take blockBytes), counter, blockBytes, marks⟩
    chunkNode counter node.value 0 (bytes.drop blockBytes)
  else ⟨chaining, blockWords bytes, counter, bytes.length, marks ||| chunkEnd⟩
termination_by bytes.length
decreasing_by simp only [List.length_drop, blockBytes] at *; omega

/-- Bytes of the left half of a tree over `length` bytes, which are more than one chunk. -/
def leftBytes (length : Nat) : Nat := chunkBytes * Nat.pow 2 (Nat.log2 ((length - 1) / chunkBytes))

/-- The node that covers a run of bytes starting at the given chunk. `height` bounds the levels of the
tree; a run of fewer than `2 ^ height` chunks never reaches the bound. -/
def subtree (height : Nat) (counter : Nat) (bytes : List UInt8) : Node :=
  match height with
  | 0 => chunkNode counter initial chunkStart bytes
  | height + 1 =>
    if bytes.length ≤ chunkBytes then chunkNode counter initial chunkStart bytes
    else
      let left := leftBytes bytes.length
      let leftNode := subtree height counter (bytes.take left)
      let rightNode := subtree height (counter + left / chunkBytes) (bytes.drop left)
      ⟨initial, leftNode.value ++ rightNode.value, 0, blockBytes, parentMark⟩

/-- The eight words of the digest of some bytes. -/
def hash (bytes : List UInt8) : List UInt32 :=
  compress (subtree bytes.length 0 bytes) rootMark

/-- The first eight bytes of a digest, read as a little-endian word. -/
def headWord (bytes : List UInt8) : UInt64 :=
  match hash bytes with
  | low :: high :: _ => low.toUInt64 ||| high.toUInt64 <<< 32
  | _ => 0

end Barrage.Blake3
