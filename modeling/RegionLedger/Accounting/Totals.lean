import RegionLedger.Accounting.Deltas

/-!
# Totals

Running byte counts per tag.  Totals only ever move by deltas.

* `Counters` — the bytes of one tag, with the highest committed count seen.
* `Totals` — the counters of every tag that ever moved.
* `Totals.apply` — moves the counters by deltas, stopping at zero.
* `Totals.reserved`, `Totals.committed` — the sums over all tags.
* `Totals.since` — the deltas that lead from one state of the totals to another.
-/

namespace RegionLedger

/-- The bytes booked under one tag. -/
structure Counters where
  /-- The reserved bytes, committed bytes included. -/
  reserved : UInt64 := 0
  /-- The committed bytes. -/
  committed : UInt64 := 0
  /-- The highest count of committed bytes so far. -/
  peak : UInt64 := 0
deriving DecidableEq, Repr

namespace Counters

/-- Moves the counters by `d` and remembers a new peak. -/
def shift (c : Counters) (d : Delta) : Counters :=
  let committed := shiftSaturating c.committed d.commit
  { reserved := shiftSaturating c.reserved d.reserve
    committed
    peak := max c.peak committed }

/-- Whether every count is zero. -/
def isZero (c : Counters) : Bool := c.reserved == 0 && c.committed == 0 && c.peak == 0

end Counters

/-- Byte counts per tag. -/
structure Totals where
  /-- The tags that ever moved with their counters, in ascending order of tags. -/
  entries : List (Tag × Counters) := []
deriving DecidableEq, Repr

namespace Totals

/-- The totals of empty memory. -/
def empty : Totals := {}

/-- The counters of `tag` in a list of entries. -/
def lookup (tag : Tag) : List (Tag × Counters) → Counters
  | [] => {}
  | (t, c) :: rest => if t = tag then c else lookup tag rest

/-- The ascending list of entries with the counters of `tag` replaced by their image; a tag that is
not there yet is put in its place, starting from zero. -/
def update (tag : Tag) (f : Counters → Counters) : List (Tag × Counters) → List (Tag × Counters)
  | [] => [(tag, f {})]
  | (t, c) :: rest =>
    if t = tag then (t, f c) :: rest
    else if tag.raw < t.raw then (tag, f {}) :: (t, c) :: rest
    else (t, c) :: update tag f rest

/-- The counters of a tag. -/
def get (m : Totals) (tag : Tag) : Counters := lookup tag m.entries

/-- Moves the counters by `d`. -/
def apply (m : Totals) (d : Deltas) : Totals :=
  d.toList.foldl (fun m (tag, delta) => ⟨update tag (·.shift delta) m.entries⟩) m

/-- The totals reached from empty memory by `d`. -/
def ofDeltas (d : Deltas) : Totals := empty.apply d

/-- The tags with a count that is not zero, in ascending order. -/
def toList (m : Totals) : List (Tag × Counters) := m.entries.filter fun (_, c) => !c.isZero

/-- The sum of a counter over all tags. -/
def sumOf (counter : Counters → UInt64) (m : Totals) : Except Overflow UInt64 :=
  m.entries.foldlM (fun sum (_, c) => addUnsigned sum (counter c)) 0

/-- The reserved bytes over all tags. -/
def reserved (m : Totals) : Except Overflow UInt64 := m.sumOf (·.reserved)

/-- The committed bytes over all tags. -/
def committed (m : Totals) : Except Overflow UInt64 := m.sumOf (·.committed)

/-- The change from `was` to `now` for one tag: counters are read as signed words. -/
def step (now was : Counters) : Except Overflow Delta :=
  Delta.ofAmounts (subtractSigned now.reserved.toInt64 was.reserved.toInt64)
    (subtractSigned now.committed.toInt64 was.committed.toInt64)

/-- The change from the totals `was` to the totals `now`.  A tag that changed already is not looked
at again. -/
def since (now was : Totals) : Except Overflow Deltas :=
  (now.entries.map Prod.fst ++ was.entries.map Prod.fst).foldlM
    (fun d tag =>
      if d.get tag = {} then do
        let delta ← step (now.get tag) (was.get tag)
        d.add tag delta
      else .ok d)
    ∅

end Totals

end RegionLedger
