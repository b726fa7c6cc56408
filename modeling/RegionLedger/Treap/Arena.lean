import RegionLedger.Treap.Basic

/-!
# Treaps in memory

In memory the nodes of a treap stand in the slots of an arena and refer to one another by slot
number.  A vacant slot holds the number of the next vacant one, so nothing is allocated when a node is
given back, and its slot is the next one handed out.

A slot that holds no node must never be read: every operation here ends with `none` if it comes to
one.  Operations that follow links take the number of nodes that they may pass, which is never more
than there are slots.

* `Node`, `Cell`, `Arena` — nodes, slots and the arena.
* `Arena.read`, `Arena.update`, `Arena.alloc`, `Arena.release` — access to one slot.
* `Arena.reserve` — makes sure that a number of nodes will find slots.
* `Arena.split`, `Arena.merge`, `Arena.find`, `Arena.floor`, `Arena.higher` — along the links.
* `Arena.descend`, `Arena.next` — the traversal in order, with a stack of its own.
* `Arena.deepest` — the traversal that measures the height.
* `LinkedTreap` — a treap in an arena, with the calls and queries of `Treap`.
-/

namespace RegionLedger

/-- A node with the slots of its two subtrees. -/
structure Node (κ ν : Type) where
  /-- The key. -/
  key : κ
  /-- The value under the key. -/
  value : ν
  /-- The priority drawn when the key was inserted. -/
  priority : UInt64
  /-- The slot of the root of the left subtree. -/
  left : Option Nat := none
  /-- The slot of the root of the right subtree. -/
  right : Option Nat := none

/-- A slot of an arena. -/
inductive Cell (κ ν : Type) where
  /-- The slot holds a node. -/
  | occupied (node : Node κ ν)
  /-- The slot is vacant, and `next` is the one that was given back before it. -/
  | vacant (next : Option Nat)

/-- The nodes of a treap in their slots. -/
structure Arena (κ ν : Type) where
  /-- The slots. -/
  cells : Array (Cell κ ν) := #[]
  /-- The vacant slot that was given back last. -/
  free : Option Nat := none
  /-- The number of nodes. -/
  live : Nat := 0

variable {κ ν : Type}

namespace Arena

/-! ## One slot -/

/-- The node in a slot. -/
def read (a : Arena κ ν) (i : Nat) : Option (Node κ ν) :=
  match a.cells[i]? with
  | some (.occupied node) => some node
  | _ => none

/-- Changes the node in a slot. -/
def update (a : Arena κ ν) (i : Nat) (f : Node κ ν → Node κ ν) : Option (Arena κ ν) :=
  (a.read i).map fun node => { a with cells := a.cells.setIfInBounds i (.occupied (f node)) }

/-- Stores a node in the slot given back last, else in a fresh one, unless all numbers are in use. -/
def alloc (a : Arena κ ν) (node : Node κ ν) : Option (Except TreapError (Nat × Arena κ ν)) :=
  match a.free with
  | some i =>
    match a.cells[i]? with
    | some (.vacant next) =>
      some (.ok (i,
        { cells := a.cells.setIfInBounds i (.occupied node), free := next, live := a.live + 1 }))
    | _ => none
  | none =>
    if a.cells.size < Slots.limit then
      some (.ok (a.cells.size,
        { a with cells := a.cells.push (.occupied node), live := a.live + 1 }))
    else some (.error .outOfSlots)

/-- Takes a node out of its slot, which is vacant from then on. -/
def release (a : Arena κ ν) (i : Nat) : Option (Node κ ν × Arena κ ν) :=
  (a.read i).map fun node =>
    (node,
      { cells := a.cells.setIfInBounds i (.vacant a.free), free := some i, live := a.live - 1 })

/-- Succeeds if `n` further nodes will find slots.  Those beyond the vacant slots need fresh ones, whose
number stops at the largest machine number. -/
def reserve (a : Arena κ ν) (n : UInt64) : Except TreapError Unit :=
  let fresh := n.toNat - (a.cells.size - a.live)
  if fresh = 0 then .ok ()
  else if Slots.limit < min (a.cells.size + fresh) (UInt64.size - 1) then .error .outOfSlots
  else .ok ()

/-- The key and the value in a slot. -/
def entry (a : Arena κ ν) (i : Nat) : Option (κ × ν) :=
  (a.read i).map fun node => (node.key, node.value)

/-! ## Along the links -/

/-- Joins two subtrees, where every key of the left one comes before every key of the right one. -/
def merge : Nat → Arena κ ν → Option Nat → Option Nat → Option (Arena κ ν × Option Nat)
  | _, a, none, right => some (a, right)
  | _, a, left, none => some (a, left)
  | 0, _, some _, some _ => none
  | fuel + 1, a, some i, some j => do
    let l ← a.read i
    let r ← a.read j
    if r.priority < l.priority then
      let (a, merged) ← merge fuel a l.right (some j)
      let a ← a.update i fun node => { node with right := merged }
      return (a, some i)
    else
      let (a, merged) ← merge fuel a (some i) r.left
      let a ← a.update j fun node => { node with left := merged }
      return (a, some j)

/-- The slot of the leftmost node under `i`. -/
def leftmost (a : Arena κ ν) : Nat → Nat → Option Nat
  | 0, _ => none
  | fuel + 1, i => do
    let node ← a.read i
    match node.left with
    | none => return i
    | some j => a.leftmost fuel j

/-- The slot of the rightmost node under `i`. -/
def rightmost (a : Arena κ ν) : Nat → Nat → Option Nat
  | 0, _ => none
  | fuel + 1, i => do
    let node ← a.read i
    match node.right with
    | none => return i
    | some j => a.rightmost fuel j

/-- The greatest depth of a node, where the nodes still to be visited stand on a stack with their
depths, and `best` is the greatest depth so far. -/
def deepest (a : Arena κ ν) : Nat → Nat → List (Nat × Nat) → Option Nat
  | _, best, [] => some best
  | 0, _, _ :: _ => none
  | fuel + 1, best, (i, depth) :: stack => do
    let node ← a.read i
    let stack := (node.left.map (·, depth + 1)).toList ++ stack
    let stack := (node.right.map (·, depth + 1)).toList ++ stack
    a.deepest fuel (max best depth) stack

variable [LT κ] [DecidableLT κ] [LE κ] [DecidableLE κ]

/-- Cuts the subtree under `link` in two at the key `k`. -/
def split (mode : Cut) (k : κ) :
    Nat → Arena κ ν → Option Nat → Option (Arena κ ν × Option Nat × Option Nat)
  | _, a, none => some (a, none, none)
  | 0, _, some _ => none
  | fuel + 1, a, some i => do
    let node ← a.read i
    if mode.takesLeft k node.key then
      let (a, lower, upper) ← split mode k fuel a node.right
      let a ← a.update i fun node => { node with right := lower }
      return (a, some i, upper)
    else
      let (a, lower, upper) ← split mode k fuel a node.left
      let a ← a.update i fun node => { node with left := upper }
      return (a, lower, some i)

/-- The slot of the greatest key up to `k` under `link`, or `best` if there is none. -/
def floor (a : Arena κ ν) (k : κ) : Nat → Option Nat → Option Nat → Option (Option Nat)
  | _, best, none => some best
  | 0, _, some _ => none
  | fuel + 1, best, some i => do
    let node ← a.read i
    if node.key ≤ k then a.floor k fuel (some i) node.right else a.floor k fuel best node.left

/-- The slot of the least key above `k` under `link`, or `best` if there is none. -/
def higher (a : Arena κ ν) (k : κ) : Nat → Option Nat → Option Nat → Option (Option Nat)
  | _, best, none => some best
  | 0, _, some _ => none
  | fuel + 1, best, some i => do
    let node ← a.read i
    if k < node.key then a.higher k fuel (some i) node.left else a.higher k fuel best node.right

/-- Walks down from `link` and puts every slot at or after the start on the stack.  Without a start
these are the slots of the left spine. -/
def descend (a : Arena κ ν) (first : Bound κ) : Nat → Option Nat → List Nat → Option (List Nat)
  | _, none, stack => some stack
  | 0, some _, _ => none
  | fuel + 1, some i, stack => do
    let node ← a.read i
    if first.startsBy node.key then a.descend first fuel node.left (i :: stack)
    else a.descend first fuel node.right stack

/-- The next pair of a traversal, with the stack that it leaves, or none beyond the end. -/
def next (a : Arena κ ν) (last : Bound κ) : List Nat → Option (Option ((κ × ν) × List Nat))
  | [] => some none
  | i :: stack => do
    let node ← a.read i
    if last.endsAfter node.key then
      let stack ← a.descend .unbounded a.cells.size node.right stack
      return some ((node.key, node.value), stack)
    else return none

/-- The pairs of a traversal, up to the end. -/
def collect (a : Arena κ ν) (last : Bound κ) : Nat → List Nat → Option (List (κ × ν))
  | 0, _ => none
  | fuel + 1, stack => do
    match ← a.next last stack with
    | none => return []
    | some (pair, stack) => return pair :: (← a.collect last fuel stack)

variable [DecidableEq κ]

/-- The slot of the node with key `k` under `link`. -/
def find (a : Arena κ ν) (k : κ) : Nat → Option Nat → Option (Option Nat)
  | _, none => some none
  | 0, some _ => none
  | fuel + 1, some i => do
    let node ← a.read i
    if node.key = k then return some i
    else a.find k fuel (if k < node.key then node.left else node.right)

end Arena

/-- A treap in an arena. -/
structure LinkedTreap (κ ν : Type) where
  /-- The stream that priorities are drawn from. -/
  draws : Draws
  /-- The number of draws made so far. -/
  drawn : Nat := 0
  /-- The nodes. -/
  arena : Arena κ ν := {}
  /-- The slot of the root. -/
  root : Option Nat := none

namespace LinkedTreap

/-- The empty treap that draws from `draws`. -/
def empty (draws : Draws) : LinkedTreap κ ν := { draws }

/-- The number of keys. -/
def size (t : LinkedTreap κ ν) : Nat := t.arena.live

/-- Whether there is no key. -/
def isEmpty (t : LinkedTreap κ ν) : Bool := t.root.isNone

/-- The entry with the smallest key. -/
def min? (t : LinkedTreap κ ν) : Option (Option (κ × ν)) :=
  match t.root with
  | none => some none
  | some i => do
    let first ← t.arena.leftmost t.arena.cells.size i
    return some (← t.arena.entry first)

/-- The entry with the largest key. -/
def max? (t : LinkedTreap κ ν) : Option (Option (κ × ν)) :=
  match t.root with
  | none => some none
  | some i => do
    let last ← t.arena.rightmost t.arena.cells.size i
    return some (← t.arena.entry last)

/-- The number of keys on the longest path from the root. -/
def height (t : LinkedTreap κ ν) : Option Nat :=
  t.arena.deepest t.arena.cells.size 0 (t.root.map (·, 1)).toList

/-- Succeeds if `n` new keys will find room. -/
def reserve (t : LinkedTreap κ ν) (n : UInt64) : Except TreapError Unit := t.arena.reserve n

/-- Removes every key and frees every slot.  Draws already made stay made. -/
def clear (t : LinkedTreap κ ν) : LinkedTreap κ ν := { t with arena := {}, root := none }

/-- The entry in a slot, if there is a slot. -/
def entry? (t : LinkedTreap κ ν) : Option Nat → Option (Option (κ × ν))
  | none => some none
  | some i => (t.arena.entry i).map some

variable [LT κ] [DecidableLT κ] [LE κ] [DecidableLE κ]

/-- The entry with the greatest key that is at most `k`. -/
def floor? (t : LinkedTreap κ ν) (k : κ) : Option (Option (κ × ν)) := do
  t.entry? (← t.arena.floor k t.arena.cells.size none t.root)

/-- The entry with the least key above `k`. -/
def higher? (t : LinkedTreap κ ν) (k : κ) : Option (Option (κ × ν)) := do
  t.entry? (← t.arena.higher k t.arena.cells.size none t.root)

/-- The entries between two bounds, in ascending order of keys. -/
def range (t : LinkedTreap κ ν) (first last : Bound κ) : Option (List (κ × ν)) := do
  let stack ← t.arena.descend first t.arena.cells.size t.root []
  t.arena.collect last (t.arena.cells.size + 1) stack

/-- All keys with their values, in ascending order. -/
def toList (t : LinkedTreap κ ν) : Option (List (κ × ν)) := t.range .unbounded .unbounded

variable [DecidableEq κ]

/-- The value under `k`. -/
def get? (t : LinkedTreap κ ν) (k : κ) : Option (Option ν) := do
  return (← t.entry? (← t.arena.find k t.arena.cells.size t.root)).map (·.2)

/-- Whether `k` is a key. -/
def contains (t : LinkedTreap κ ν) (k : κ) : Option Bool := do
  return (← t.arena.find k t.arena.cells.size t.root).isSome

/-- Replaces the value under `k` by its image, if `k` is a key, and answers with it. -/
def modify (t : LinkedTreap κ ν) (k : κ) (f : ν → ν) : Option (Option ν × LinkedTreap κ ν) := do
  match ← t.arena.find k t.arena.cells.size t.root with
  | none => return (none, t)
  | some i =>
    let arena ← t.arena.update i fun node => { node with value := f node.value }
    let (_, value) ← arena.entry i
    return (some value, { t with arena })

/-- Stores `v` under `k`.  A key that is present keeps its node and with it its priority; a new key
takes the next draw and the next slot. -/
def insert (t : LinkedTreap κ ν) (k : κ) (v : ν) :
    Option (Except TreapError Unit × LinkedTreap κ ν) := do
  let (arena, low, high) ← Arena.split .through k t.arena.cells.size t.arena t.root
  match ← arena.find k arena.cells.size low with
  | some i =>
    let arena ← arena.update i fun node => { node with value := v }
    let (arena, root) ← Arena.merge arena.cells.size arena low high
    return (.ok (), { t with arena, root })
  | none =>
    let drawn := t.drawn + 1
    match ← arena.alloc { key := k, value := v, priority := t.draws t.drawn } with
    | .error e =>
      let (arena, root) ← Arena.merge arena.cells.size arena low high
      return (.error e, { t with arena, drawn, root })
    | .ok (i, arena) =>
      let (arena, low) ← Arena.merge arena.cells.size arena low (some i)
      let (arena, root) ← Arena.merge arena.cells.size arena low high
      return (.ok (), { t with arena, drawn, root })

/-- Removes `k` and returns what was stored under it; an absent key changes nothing. -/
def erase (t : LinkedTreap κ ν) (k : κ) : Option (Option ν × LinkedTreap κ ν) := do
  let (arena, upTo, high) ← Arena.split .through k t.arena.cells.size t.arena t.root
  let (arena, low, same) ← Arena.split .below k arena.cells.size arena upTo
  let (arena, root) ← Arena.merge arena.cells.size arena low high
  match same with
  | none => return (none, { t with arena, root })
  | some i =>
    let (node, arena) ← arena.release i
    return (some node.value, { t with arena, root })

end LinkedTreap

end RegionLedger
