/-!
# Node slots

Every node of a treap occupies a slot, named by a 32-bit number.  A slot given back is the next one
handed out; only when none is vacant is a fresh number used.

* `Slots` — the numbers used so far, and the vacant ones among them.
* `Slots.take?`, `Slots.give` — hand out a slot, take one back.
* `Slots.canTake` — whether a given number of slots can still be handed out.
-/

namespace RegionLedger

/-- The slots of one treap: the numbers below `used`, of which those in `vacant` hold no node. -/
structure Slots where
  /-- One more than the largest number handed out so far. -/
  used : Nat := 0
  /-- The numbers given back and not handed out again, the latest first. -/
  vacant : List Nat := []
deriving DecidableEq, Repr

namespace Slots

/-- The count of 32-bit numbers, so the largest number of slots. -/
def limit : Nat := UInt32.size

/-- The number of slots that hold a node. -/
def live (s : Slots) : Nat := s.used - s.vacant.length

/-- Hands out a slot: the one given back last, else a fresh one, else none. -/
def take? (s : Slots) : Option (Nat × Slots) :=
  match s.vacant with
  | slot :: vacant => some (slot, { s with vacant })
  | [] => if s.used < limit then some (s.used, { s with used := s.used + 1 }) else none

/-- Takes back a slot. -/
def give (s : Slots) (slot : Nat) : Slots := { s with vacant := slot :: s.vacant }

/-- Whether `n` further slots fit: those beyond the vacant ones need fresh numbers. -/
def canTake (s : Slots) (n : Nat) : Bool :=
  let fresh := n - s.vacant.length
  fresh == 0 || s.used + fresh ≤ limit

end Slots

end RegionLedger
