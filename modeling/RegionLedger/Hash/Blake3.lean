import RegionLedger.Word.Square

/-!
# BLAKE3

The BLAKE3 hash of a byte string.  The input is cut into chunks of 1024 bytes, each chunk into
blocks of 64 bytes; blocks are compressed in a chain along their chunk, and the chunks are joined in
pairs by a binary tree whose left subtrees are full.

* `compress` — the compression function.
* `Node` — the arguments of a compression put off until it is known whether it is the last one.
* `Node.ofChunk`, `Node.ofParent` — the node of a chunk, the node over two subtrees.
* `plant`, `joinAll` — the tree over all chunks, grown from left to right.
* `hash` — the 256-bit hash as eight words.
-/

namespace RegionLedger.Blake3

/-- The eight words that one compression hands to the next. -/
structure Chaining where
  /-- The first four words. -/
  front : Quad
  /-- The last four words. -/
  back : Quad
deriving DecidableEq, Repr

/-- The chaining value that every chunk and every parent starts from. -/
def start : Chaining where
  front := ⟨0x6a09e667, 0xbb67ae85, 0x3c6ef372, 0xa54ff53a⟩
  back := ⟨0x510e527f, 0x9b05688c, 0x1f83d9ab, 0x5be0cd19⟩

/-! ## Flags -/

/-- Marks the first block of a chunk. -/
def chunkStart : UInt32 := 1

/-- Marks the last block of a chunk. -/
def chunkEnd : UInt32 := 2

/-- Marks the block of two chaining values. -/
def parent : UInt32 := 4

/-- Marks the compression that yields the hash. -/
def root : UInt32 := 8

/-! ## Compression -/

/-- One round: each column and then each diagonal takes in two words of the message `m`. -/
def round (s m : Square) : Square :=
  s.round Quad.rotateRight (m.a.evens m.b) (m.a.odds m.b) (m.c.evens m.d) (m.c.odds m.d)

/-- The order in which the next round takes the message words. -/
def permute (m : Square) : Square where
  a := ⟨m.a.w₂, m.b.w₂, m.a.w₃, m.c.w₂⟩
  b := ⟨m.b.w₃, m.a.w₀, m.b.w₀, m.d.w₁⟩
  c := ⟨m.a.w₁, m.c.w₃, m.d.w₀, m.b.w₁⟩
  d := ⟨m.c.w₁, m.d.w₂, m.d.w₃, m.c.w₀⟩

/-- Applies `n` rounds, permuting the message between them. -/
def rounds : Nat → Square → Square → Square
  | 0, s, _ => s
  | n + 1, s, m => rounds n (round s m) (permute m)

/-- The chaining value after a block of `length` bytes, the `counter`-th chunk's or a parent's. -/
def compress (cv : Chaining) (block : Square) (counter length : Nat) (flags : UInt32) : Chaining :=
  let s : Square :=
    { a := cv.front
      b := cv.back
      c := start.front
      d := ⟨UInt32.ofNat counter, UInt32.ofNat (counter / UInt32.size), UInt32.ofNat length, flags⟩ }
  let s := rounds 7 s block
  { front := s.a.xor s.c, back := s.b.xor s.d }

/-! ## The tree -/

/-- A compression put off until it is known whether it is the root. -/
structure Node where
  /-- The chaining value so far. -/
  cv : Chaining
  /-- The last block. -/
  block : Square
  /-- The number of the chunk, zero for a parent. -/
  counter : Nat
  /-- The number of bytes in the block. -/
  length : Nat
  /-- The flags, the root mark aside. -/
  flags : UInt32

/-- The chaining value of a node inside the tree. -/
def Node.chaining (n : Node) : Chaining := compress n.cv n.block n.counter n.length n.flags

/-- The hash of a node at the root. -/
def Node.digest (n : Node) : Chaining := compress n.cv n.block n.counter n.length (n.flags ||| root)

/-- The pieces with `b` put in front of the first of them. -/
def startWith (b : UInt8) : List (List UInt8) → List (List UInt8)
  | [] => [[b]]
  | piece :: rest => (b :: piece) :: rest

/-- The byte string in pieces of `n + 1` bytes, the last one shorter if need be; the first piece has
`room` bytes at most.  No bytes are one empty piece. -/
def cut (n : Nat) (room : Nat) : List UInt8 → List (List UInt8)
  | [] => [[]]
  | b :: rest =>
    match room with
    | 0 => [] :: startWith b (cut n n rest)
    | room + 1 => startWith b (cut n room rest)

/-- The byte string in pieces of `n + 1` bytes, the last one shorter if need be. -/
def pieces (n : Nat) (bytes : List UInt8) : List (List UInt8) := cut n (n + 1) bytes

/-- The block of up to 64 bytes, filled with zeros: words are little-endian. -/
def blockOf (bytes : List UInt8) : Square :=
  let a := bytes.toArray
  let byte (i : Nat) : UInt32 := (a.getD i 0).toUInt32
  let word (i : Nat) : UInt32 :=
    byte (4 * i) ||| byte (4 * i + 1) <<< 8 ||| byte (4 * i + 2) <<< 16 ||| byte (4 * i + 3) <<< 24
  let row (i : Nat) : Quad := ⟨word (4 * i), word (4 * i + 1), word (4 * i + 2), word (4 * i + 3)⟩
  { a := row 0, b := row 1, c := row 2, d := row 3 }

/-- Chains the blocks of a chunk, given with the mark of the first of them. -/
def Node.chain (counter : Nat) (cv : Chaining) (mark : UInt32) : List (List UInt8) → Node
  | [] => { cv, block := blockOf [], counter, length := 0, flags := mark ||| chunkEnd }
  | [last] =>
    { cv, block := blockOf last, counter, length := last.length, flags := mark ||| chunkEnd }
  | first :: rest =>
    chain counter (compress cv (blockOf first) counter first.length mark) 0 rest

/-- The node of chunk number `counter`. -/
def Node.ofChunk (counter : Nat) (bytes : List UInt8) : Node :=
  Node.chain counter start chunkStart (pieces 63 bytes)

/-- The node over two subtrees. -/
def Node.ofParent (left right : Node) : Node :=
  let l := left.chaining
  let r := right.chaining
  { cv := start, block := ⟨l.front, l.back, r.front, r.back⟩, counter := 0, length := 64,
    flags := parent }

/-- A full tree with the number of levels below its root, so over `2 ^ level` chunks. -/
structure FullTree where
  /-- The number of levels below the root. -/
  level : Nat
  /-- The root. -/
  root : Node

/-- Adds a full tree on the right of a row of full trees, which comes with the rightmost tree first.
Neighbours of one size become one tree, so sizes fall from left to right, as the left subtree of
every node has to be the largest full tree that leaves something for the right one. -/
def plant (level : Nat) (root : Node) : List FullTree → List FullTree
  | [] => [{ level, root }]
  | left :: rest =>
    if left.level = level then plant (level + 1) (Node.ofParent left.root root) rest
    else { level, root } :: left :: rest

/-- Joins the tree on the right with the trees of a row, the nearest first. -/
def joinAll (right : Node) (row : List FullTree) : Node :=
  row.foldl (fun right left => Node.ofParent left.root right) right

/-- The row of full trees over chunks. -/
def rowOf (chunks : List Node) : List FullTree := chunks.foldl (fun row chunk => plant 0 chunk row) []

/-- The BLAKE3 hash of a byte string as eight little-endian words. -/
def hash (bytes : List UInt8) : Chaining :=
  match rowOf ((pieces 1023 bytes).zipIdx.map fun (chunk, i) => Node.ofChunk i chunk) with
  | [] => start
  | last :: row => (joinAll last.root row).digest

end RegionLedger.Blake3
