import RegionLedger.Random.Draws
import RegionLedger.Treap.Slots
import RegionLedger.Treap.Tree

/-!
# Treaps

An ordered map held in a search tree whose shape is fixed by priorities drawn at random, one per
new key.  The draws come from a stream that the treap carries along with its position in it, so the
same stream and the same calls give the same shape.

* `Treap` — the tree, its slots, the stream of draws and the number of draws made.
* `Treap.insert`, `Treap.erase`, `Treap.modify`, `Treap.clear` — changes.
* `Treap.reserve` — makes sure that a number of new keys will find room.
* `Treap.get?`, `Treap.floor?`, `Treap.higher?`, `Treap.min?`, `Treap.max?`, `Treap.toList`,
  `Treap.range` — queries.
-/

namespace RegionLedger

universe u v

/-- Why a treap could not take a new key. -/
inductive TreapError where
  /-- Every slot number is in use. -/
  | outOfSlots
deriving DecidableEq, Repr

/-- The wording of a treap error. -/
def TreapError.message : TreapError → String
  | outOfSlots => "failed to allocate a treap node"

/-- An ordered map from `κ` to `ν` whose shape follows random priorities. -/
structure Treap (κ : Type u) (ν : Type v) where
  /-- The stream that priorities are drawn from. -/
  draws : Draws
  /-- The number of draws made so far. -/
  drawn : Nat := 0
  /-- The slots of the nodes. -/
  slots : Slots := {}
  /-- The entries. -/
  root : Tree κ ν := .leaf

namespace Treap

variable {κ : Type u} {ν : Type v}

/-- The empty treap that draws from `draws`. -/
def empty (draws : Draws) : Treap κ ν := { draws }

/-- The number of keys. -/
def size (t : Treap κ ν) : Nat := t.slots.live

/-- Whether there is no key. -/
def isEmpty (t : Treap κ ν) : Bool := t.root.isEmpty

/-- The number of keys on the longest path from the root. -/
def height (t : Treap κ ν) : Nat := t.root.height

/-- The entry with the smallest key. -/
def min? (t : Treap κ ν) : Option (κ × ν) := t.root.min?.map fun e => (e.key, e.value)

/-- The entry with the largest key. -/
def max? (t : Treap κ ν) : Option (κ × ν) := t.root.max?.map fun e => (e.key, e.value)

/-- All keys with their values, in ascending order. -/
def toList (t : Treap κ ν) : List (κ × ν) := t.root.toList.map fun e => (e.key, e.value)

/-- Removes every key and frees every slot.  Draws already made stay made. -/
def clear (t : Treap κ ν) : Treap κ ν := { t with slots := {}, root := .leaf }

/-- Succeeds if `n` new keys will find room. -/
def reserve (t : Treap κ ν) (n : Nat) : Except TreapError Unit :=
  if t.slots.canTake n then .ok () else .error .outOfSlots

variable [LT κ] [DecidableLT κ] [LE κ] [DecidableLE κ] [DecidableEq κ]

/-- The value under `k`. -/
def get? (t : Treap κ ν) (k : κ) : Option ν := (t.root.find? k).map (·.value)

/-- Whether `k` is a key. -/
def contains (t : Treap κ ν) (k : κ) : Bool := (t.root.find? k).isSome

/-- Replaces the value under `k` by its image, if `k` is a key. -/
def modify (t : Treap κ ν) (k : κ) (f : ν → ν) : Treap κ ν := { t with root := t.root.modify k f }

/-- The entry with the greatest key that is at most `k`. -/
def floor? (t : Treap κ ν) (k : κ) : Option (κ × ν) :=
  (t.root.floor? k).map fun e => (e.key, e.value)

/-- The entry with the least key above `k`. -/
def higher? (t : Treap κ ν) (k : κ) : Option (κ × ν) :=
  (t.root.higher? k).map fun e => (e.key, e.value)

/-- The entries between two bounds, in ascending order of keys. -/
def range (t : Treap κ ν) (first last : Bound κ) : List (κ × ν) :=
  (t.root.range first last).map fun e => (e.key, e.value)

/-- Stores `v` under `k`.  A key that is present keeps its node and with it its priority; a new key
takes the next draw and the next slot. -/
def insert (t : Treap κ ν) (k : κ) (v : ν) : Except TreapError (Treap κ ν) :=
  let (low, high) := t.root.split .through k
  match low.find? k with
  | some _ => .ok { t with root := (low.modify k fun _ => v).join high }
  | none =>
    match t.slots.take? with
    | none => .error .outOfSlots
    | some (slot, slots) =>
      let node := .singleton { key := k, value := v, priority := t.draws t.drawn, slot }
      .ok { t with drawn := t.drawn + 1, slots, root := (low.join node).join high }

/-- Removes `k` and returns what was stored under it; an absent key changes nothing. -/
def erase (t : Treap κ ν) (k : κ) : Option ν × Treap κ ν :=
  let (upTo, high) := t.root.split .through k
  let (low, same) := upTo.split .below k
  match same with
  | .leaf => (none, { t with root := low.join high })
  | .node _ e _ => (some e.value, { t with slots := t.slots.give e.slot, root := low.join high })

end Treap

end RegionLedger
