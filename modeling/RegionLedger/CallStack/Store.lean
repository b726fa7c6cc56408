import RegionLedger.CallStack.Basic

/-!
# The store of call stacks

Call stacks are large beside the regions that refer to them, so each distinct stack is kept once and
regions hold a reference of two 16-bit numbers: a chunk and a slot in it.  The fingerprint of a stack
fixes its slot.  The chunks are tried in order, and the first one whose slot is vacant or holds the
same stack takes it; where every chunk holds another stack there, a new chunk is added.

What the store does is stated for any fingerprint; the one in use is that of the frames' hash.

* `StackRef` — the place of a stored stack.
* `StackStore` — the chunks, with the number of stacks in them.
* `StackStore.push`, `StackStore.get` — store a stack, read a reference.
-/

namespace RegionLedger

/-- The place of a stored call stack. -/
structure StackRef where
  /-- The number of the chunk. -/
  chunk : UInt16 := 0
  /-- The slot within the chunk. -/
  slot : UInt16 := 0
deriving DecidableEq, Repr

/-- Why a stack could not be stored. -/
inductive StackStoreError where
  /-- Every chunk number is in use. -/
  | exhausted (chunks : Nat)
deriving DecidableEq, Repr

/-- The wording of a store error. -/
def StackStoreError.message : StackStoreError → String
  | exhausted chunks => s!"call-stack storage exhausted after {chunks} chunks"

/-- A number of slots that a chunk cannot have. -/
structure StackWidthError where
  /-- The number of slots. -/
  width : Nat
deriving DecidableEq, Repr

/-- The wording of a width error. -/
def StackWidthError.message (e : StackWidthError) : String :=
  let width := e.width
  s!"chunk size {width} out of range"

/-- A chunk: for each slot the stack it holds, if any. -/
abbrev StackChunk := Array (Option CallStack)

/-- A store that keeps each distinct call stack once. -/
structure StackStore where
  /-- Whether stacks are kept at all; if not, every stack has the reference `{}`. -/
  detailed : Bool
  /-- The number of slots in a chunk. -/
  width : Nat
  /-- The chunks in order. -/
  chunks : List StackChunk := []
  /-- The number of distinct stacks stored. -/
  size : Nat := 0

namespace StackStore

/-- The most chunks there can be, and the most slots a chunk can have: 16-bit numbers name them. -/
def limit : Nat := UInt16.size

/-- The number of slots in a chunk where none is asked for. -/
def defaultWidth : Nat := 256

/-- The store without stacks, for chunks of `width` slots. -/
def empty (detailed : Bool) (width : Nat) : StackStore := { detailed, width }

/-- Whether a chunk may have `width` slots. -/
def allowsWidth (width : Nat) : Bool := 0 < width && width ≤ limit

/-- The store without stacks, unless a chunk cannot have `width` slots. -/
def create (detailed : Bool) (width : Nat) : Except StackWidthError StackStore :=
  if allowsWidth width then .ok (empty detailed width) else .error { width }

/-- Whether no stack is stored. -/
def isEmpty (s : StackStore) : Bool := s.size == 0

/-- The slot a stack belongs in, by its fingerprint. -/
def slotOf (fingerprint : CallStack → UInt64) (s : StackStore) (stack : CallStack) : Nat :=
  (fingerprint stack).toNat % s.width

/-- The stack in a slot of a chunk. -/
def held? (chunk : StackChunk) (slot : Nat) : Option CallStack := (chunk[slot]?).join

/-- Whether a chunk can take `stack` in `slot`: the slot is vacant or holds that very stack. -/
def accepts (slot : Nat) (stack : CallStack) (chunk : StackChunk) : Bool :=
  match held? chunk slot with
  | none => true
  | some kept => kept == stack

/-- The reference to a slot of a chunk. -/
def ref (chunk slot : Nat) : StackRef := ⟨UInt16.ofNat chunk, UInt16.ofNat slot⟩

/-- Writes `stack` into a slot of a chunk. -/
def put (slot : Nat) (stack : CallStack) (chunk : StackChunk) : StackChunk :=
  chunk.setIfInBounds slot (some stack)

/-- Stores a stack, in the slot that `fingerprint` gives it, unless it is stored already, and returns
where it is. -/
def pushBy (fingerprint : CallStack → UInt64) (s : StackStore) (stack : CallStack) :
    Except StackStoreError (StackRef × StackStore) :=
  if s.detailed then
    let slot := s.slotOf fingerprint stack
    match s.chunks.findIdx? (accepts slot stack) with
    | some i =>
      if (s.chunks[i]?.bind (held? · slot)).isSome then .ok (ref i slot, s)
      else
        .ok (ref i slot, { s with chunks := s.chunks.modify i (put slot stack), size := s.size + 1 })
    | none =>
      if s.chunks.length < limit then
        let chunk := put slot stack (Array.replicate s.width none)
        .ok (ref s.chunks.length slot, { s with chunks := s.chunks ++ [chunk], size := s.size + 1 })
      else .error (.exhausted s.chunks.length)
  else .ok ({}, s)

/-- Stores a stack unless it is stored already, and returns where it is. -/
def push (s : StackStore) (stack : CallStack) : Except StackStoreError (StackRef × StackStore) :=
  s.pushBy CallStack.fingerprint stack

/-- The stack at a reference; the empty stack where nothing is stored. -/
def get (s : StackStore) (r : StackRef) : CallStack :=
  (s.chunks[r.chunk.toNat]?.bind (held? · r.slot.toNat)).getD .empty

end StackStore

end RegionLedger
