/-!
# Search trees with priorities

The tree under a treap: a binary search tree by key that is a heap by priority.  All changes go
through two operations that undo each other, cutting a tree at a key and joining two trees.

* `Entry` — a key with its value, its priority and the slot its node occupies.
* `Tree.split`, `Tree.join` — cut at a key, and join where every key on the left comes first.
* `Tree.find?`, `Tree.floor?`, `Tree.higher?`, `Tree.min?`, `Tree.max?` — searches along one path.
* `Tree.toList` — the entries from left to right, which is how the tree is seen from outside.
* `Tree.toList_join`, `Tree.toList_split` — joining puts the lists of two trees together, and cutting
  takes the list of a tree apart.
* `Tree.range` — the entries between two bounds, visiting no subtree that lies before the first.
-/

namespace RegionLedger

universe u v

/-- A key with its value, its priority and the slot its node occupies. -/
structure Entry (κ : Type u) (ν : Type v) where
  /-- The key, by which entries are ordered. -/
  key : κ
  /-- The value stored under the key. -/
  value : ν
  /-- The priority drawn when the key was inserted. -/
  priority : UInt64
  /-- The slot of the node. -/
  slot : Nat
deriving DecidableEq, Repr

/-- One end of a range of keys. -/
inductive Bound (κ : Type u) where
  /-- The range has no end on this side. -/
  | unbounded
  /-- The range ends at this key, which belongs to it. -/
  | included (key : κ)
  /-- The range ends at this key, which does not belong to it. -/
  | excluded (key : κ)
deriving DecidableEq, Repr

/-- Which side of a cut takes an entry whose key is the key of the cut. -/
inductive Cut where
  /-- The left part holds the keys below the key of the cut. -/
  | below
  /-- The left part holds the keys up to and including the key of the cut. -/
  | through
deriving DecidableEq, Repr

/-- A binary tree of entries. -/
inductive Tree (κ : Type u) (ν : Type v) where
  /-- The empty tree. -/
  | leaf
  /-- An entry between a left and a right subtree. -/
  | node (left : Tree κ ν) (entry : Entry κ ν) (right : Tree κ ν)
deriving DecidableEq, Repr

variable {κ : Type u} {ν : Type v}

namespace Bound

variable [LT κ] [DecidableLT κ] [LE κ] [DecidableLE κ]

/-- Whether `key` lies at or after this bound, taken as the start of a range. -/
def startsBy (b : Bound κ) (key : κ) : Bool :=
  match b with
  | unbounded => true
  | included k => k ≤ key
  | excluded k => k < key

/-- Whether `key` lies at or before this bound, taken as the end of a range. -/
def endsAfter (b : Bound κ) (key : κ) : Bool :=
  match b with
  | unbounded => true
  | included k => key ≤ k
  | excluded k => key < k

end Bound

/-- Whether a cut at the key `c` puts an entry with key `k` into its left part. -/
def Cut.takesLeft [LT κ] [DecidableLT κ] [LE κ] [DecidableLE κ] (mode : Cut) (c k : κ) : Bool :=
  match mode with
  | through => k ≤ c
  | below => k < c

namespace Tree

/-! ## The view -/

/-- The entries from left to right. -/
def toList : Tree κ ν → List (Entry κ ν)
  | leaf => []
  | node l e r => l.toList ++ e :: r.toList

/-- The number of entries on the longest path from the root. -/
def height : Tree κ ν → Nat
  | leaf => 0
  | node l _ r => max l.height r.height + 1

/-- The tree of one entry. -/
def singleton (e : Entry κ ν) : Tree κ ν := node leaf e leaf

/-- Whether the tree has no entry. -/
def isEmpty : Tree κ ν → Bool
  | leaf => true
  | node .. => false

/-- The leftmost entry. -/
def min? : Tree κ ν → Option (Entry κ ν)
  | leaf => none
  | node l e _ => l.min?.or (some e)

/-- The rightmost entry. -/
def max? : Tree κ ν → Option (Entry κ ν)
  | leaf => none
  | node _ e r => r.max?.or (some e)

/-! ## Joining -/

/-- Joins the tree `l`, whose root has priority `p`, with a tree to its right.  The left spine of the
right tree is walked down to the first entry that `p` beats; there `graft` takes over. -/
def joinAt (l : Tree κ ν) (p : UInt64) (graft : Tree κ ν → Tree κ ν) : Tree κ ν → Tree κ ν
  | leaf => l
  | node rl e rr =>
    if e.priority < p then graft (node rl e rr) else node (joinAt l p graft rl) e rr

/-- Joins two trees, where every key of the left one comes before every key of the right one.  The
root of the higher priority stays on top; of equal priorities the right root does. -/
def join : Tree κ ν → Tree κ ν → Tree κ ν
  | leaf, r => r
  | node ll e lr, r => joinAt (node ll e lr) e.priority (fun r => node ll e (join lr r)) r

@[simp] theorem join_leaf_right (l : Tree κ ν) : join l leaf = l := by
  cases l <;> rfl

theorem join_node_node (ll lr rl rr : Tree κ ν) (e f : Entry κ ν) :
    join (node ll e lr) (node rl f rr) =
      if f.priority < e.priority then node ll e (join lr (node rl f rr))
      else node (join (node ll e lr) rl) f rr := rfl

theorem toList_join (l r : Tree κ ν) : (join l r).toList = l.toList ++ r.toList := by
  induction l generalizing r with
  | leaf => rfl
  | node ll e lr _ ihr =>
    induction r with
    | leaf => rw [join_leaf_right, toList, toList, List.append_nil]
    | node rl f rr ihl _ =>
      rw [join_node_node]
      split
      · simp [toList, ihr]
      · simp [toList, ihl]

section Ordered

variable [LT κ] [DecidableLT κ] [LE κ] [DecidableLE κ]

/-! ## Cutting -/

/-- Cuts a tree in two at the key `k`. -/
def split (mode : Cut) (k : κ) : Tree κ ν → Tree κ ν × Tree κ ν
  | leaf => (leaf, leaf)
  | node l e r =>
    if mode.takesLeft k e.key then
      let (low, high) := r.split mode k
      (node l e low, high)
    else
      let (low, high) := l.split mode k
      (low, node high e r)

theorem toList_split (mode : Cut) (k : κ) (t : Tree κ ν) :
    (t.split mode k).1.toList ++ (t.split mode k).2.toList = t.toList := by
  induction t with
  | leaf => rfl
  | node l e r ihl ihr =>
    unfold split
    split
    · simp [toList, ← ihr]
    · simp [toList, ← ihl]

/-! ## Searching -/

/-- The entry with the greatest key that is at most `k`. -/
def floor? (k : κ) : Tree κ ν → Option (Entry κ ν)
  | leaf => none
  | node l e r => if e.key ≤ k then (r.floor? k).or (some e) else l.floor? k

/-- The entry with the least key above `k`. -/
def higher? (k : κ) : Tree κ ν → Option (Entry κ ν)
  | leaf => none
  | node l e r => if k < e.key then (l.higher? k).or (some e) else r.higher? k

variable [DecidableEq κ]

/-- The entry with key `k`. -/
def find? (k : κ) : Tree κ ν → Option (Entry κ ν)
  | leaf => none
  | node l e r =>
    if e.key = k then some e
    else if k < e.key then l.find? k
    else r.find? k

/-- Replaces the value under `k` by its image; without such a key nothing changes. -/
def modify (k : κ) (f : ν → ν) : Tree κ ν → Tree κ ν
  | leaf => leaf
  | node l e r =>
    if e.key = k then node l { e with value := f e.value } r
    else if k < e.key then node (l.modify k f) e r
    else node l e (r.modify k f)

/-! ## Ranges -/

/-- The entries at or after the start `b`, skipping the left subtree of every entry before it. -/
def listFrom (b : Bound κ) : Tree κ ν → List (Entry κ ν)
  | leaf => []
  | node l e r => if b.startsBy e.key then l.listFrom b ++ e :: r.toList else r.listFrom b

/-- The entries from the start `first`, up to the first one beyond the end `last`. -/
def range (t : Tree κ ν) (first last : Bound κ) : List (Entry κ ν) :=
  (t.listFrom first).takeWhile (fun e => last.endsAfter e.key)

end Ordered

end Tree

end RegionLedger
