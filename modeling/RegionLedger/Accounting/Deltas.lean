import RegionLedger.Word
import RegionLedger.Tag.Basic
import RegionLedger.Region.State

/-!
# Deltas

Every operation answers with the bytes it moved, per tag: how many more are reserved and how many
more are committed.  Deltas of several operations add up.

* `Delta` — the change of one tag.
* `Deltas` — the changes of several tags, seen through `Deltas.get` and `Deltas.toList`.
* `Deltas.charge` — books a length of memory in some state; this is how operations write deltas.
* `Deltas.add`, `Deltas.plus`, `Deltas.total` — raw changes and sums, which stop at an overflow.
* `Deltas.commitOnly` — the same changes without the reserved bytes.
-/

namespace RegionLedger

/-- The change in bytes of one tag. -/
structure Delta where
  /-- The change in reserved bytes, committed bytes included. -/
  reserve : Int64 := 0
  /-- The change in committed bytes. -/
  commit : Int64 := 0
deriving DecidableEq, Repr

namespace Delta

/-- Whether nothing changes. -/
def isZero (d : Delta) : Bool := d.reserve == 0 && d.commit == 0

/-- The change with the given amounts, if there are both. -/
def ofAmounts (reserve commit : Except Overflow Int64) : Except Overflow Delta := do
  return { reserve := ← reserve, commit := ← commit }

/-- The sum of two changes. -/
def plus (a b : Delta) : Except Overflow Delta :=
  ofAmounts (addSigned a.reserve b.reserve) (addSigned a.commit b.commit)

end Delta

/-- Changes in bytes per tag.  Tags stand in the order in which they were first booked. -/
structure Deltas where
  /-- The booked tags with their changes. -/
  entries : List (Tag × Delta) := []
deriving Repr

namespace Deltas

/-- No change at all. -/
def empty : Deltas := {}

instance : EmptyCollection Deltas := ⟨empty⟩

/-- The change of `tag` in a list of entries. -/
def lookup (tag : Tag) : List (Tag × Delta) → Delta
  | [] => {}
  | (t, d) :: rest => if t = tag then d else lookup tag rest

/-- The list of entries with the change of `tag` replaced by its image; a tag that is not booked yet
goes to the end, starting from no change. -/
def update (tag : Tag) (f : Delta → Delta) : List (Tag × Delta) → List (Tag × Delta)
  | [] => [(tag, f {})]
  | (t, d) :: rest => if t = tag then (t, f d) :: rest else (t, d) :: update tag f rest

theorem lookup_update (tag t : Tag) (f : Delta → Delta) (l : List (Tag × Delta)) :
    lookup t (update tag f l) = if t = tag then f (lookup t l) else lookup t l := by
  induction l with
  | nil => by_cases h : tag = t <;> simp [update, lookup, h, eq_comm]
  | cons p rest ih =>
    obtain ⟨s, d⟩ := p
    by_cases h : s = tag
    · subst h
      by_cases h' : s = t
      · simp [update, lookup, h']
      · simp [update, lookup, h', Ne.symm h']
    · by_cases h' : s = t
      · subst h'; simp [update, lookup, h]
      · simp [update, lookup, h, h', ih]

/-- The change of a tag. -/
def get (d : Deltas) (tag : Tag) : Delta := lookup tag d.entries

/-- Books `bytes` of memory in `state` under `tag`, stopping at the ends of the signed words.
Released memory counts toward nothing, committed memory toward both counts. -/
def charge (d : Deltas) (tag : Tag) (state : State) (bytes : Int64) : Deltas :=
  if bytes = 0 then d
  else
    match state with
    | .released => d
    | .reserved =>
      ⟨update tag (fun e => { e with reserve := addSaturating e.reserve bytes }) d.entries⟩
    | .committed =>
      ⟨update tag (fun e =>
        { reserve := addSaturating e.reserve bytes, commit := addSaturating e.commit bytes })
        d.entries⟩

/-- Adds a change to `tag`. -/
def add (d : Deltas) (tag : Tag) (delta : Delta) : Except Overflow Deltas :=
  if delta.isZero then .ok d
  else do
    let sum ← (d.get tag).plus delta
    return ⟨update tag (fun _ => sum) d.entries⟩

/-- The sum of two lists of changes. -/
def plus (d e : Deltas) : Except Overflow Deltas :=
  e.entries.foldlM (fun d (tag, delta) => d.add tag delta) d

/-- Whether no count changes. -/
def isZero (d : Deltas) : Bool := d.entries.all fun (_, delta) => delta.isZero

/-- The sum over all tags. -/
def total (d : Deltas) : Except Overflow Delta :=
  d.entries.foldlM (fun sum (_, delta) => sum.plus delta) {}

/-- Puts an entry into an ascending list of entries, before the first whose tag is not smaller. -/
def insertEntry (e : Tag × Delta) : List (Tag × Delta) → List (Tag × Delta)
  | [] => [e]
  | f :: rest => if e.1.raw ≤ f.1.raw then e :: f :: rest else f :: insertEntry e rest

/-- The tags that change, in ascending order. -/
def toList (d : Deltas) : List (Tag × Delta) :=
  (d.entries.filter fun (_, delta) => !delta.isZero).foldr insertEntry []

/-- Two lists of changes are equal if the same tags change by the same amounts. -/
instance : BEq Deltas where
  beq d e := d.toList == e.toList

/-- The same changes without the reserved bytes: memory that is backed on its own account reserves
nothing.  A tag has one entry, so there is nothing to add up. -/
def commitOnly (d : Deltas) : Deltas where
  entries := (d.entries.map fun (tag, delta) => (tag, { commit := delta.commit })).filter
    fun (_, delta) => !delta.isZero

end Deltas

end RegionLedger
