import RegionLedger.Treap.Basic
import RegionLedger.Accounting.Deltas
import RegionLedger.Region.Metadata

/-!
# Region maps

A region map splits the address line into maximal runs of one side.  It stores not the runs but the
boundaries between them; before the first boundary and after the last one all memory is released.

Every change goes through `RegionMap.assign`, which gives a range one side:

```
  before:   --R--|a' ---C--- x ---R--- y ---C--|b'  ...
  assign [a, b) as C:
  after:    --R--|a ------------- C --------|b ...
```

Boundaries strictly inside the range go; boundaries at its ends are stored only if they change
something.  What the runs inside the range contributed is booked off as they are passed, so the
deltas are exact.

* `RegionMap` — the boundaries, by address.
* `RegionMap.sideAt` — the side of a byte, which is how a map is seen from outside.
* `RegionMap.segments` — a range cut at the boundaries inside it.
* `RegionMap.assign` and the operations built on it: `RegionMap.reserve`, `RegionMap.commit`,
  `RegionMap.uncommit`, `RegionMap.release`, `RegionMap.retag`.
* `RegionMap.runs`, `RegionMap.runsIn`, `RegionMap.enclosing?`, `RegionMap.tally` — queries.
-/

namespace RegionLedger

/-- Why a range could not be changed. -/
inductive RegionError where
  /-- The range is empty, too long, or runs past the last address. -/
  | invalidRange (start : Address) (size : UInt64)
  /-- There is no room for another boundary. -/
  | outOfMemory (cause : TreapError)
  /-- What the range moved cannot be added up: the call does not come back. -/
  | overflow (cause : Overflow)
deriving DecidableEq, Repr

/-- The wording of a region error. -/
def RegionError.message : RegionError → String
  | invalidRange start size => s!"invalid range: {size} bytes at " ++ Text.hex start
  | outOfMemory cause => cause.message
  | overflow cause => cause.message

/-- Whether new metadata keeps attributes of the memory found at the start of the range. -/
inductive Overwrite where
  /-- The new metadata stands as given. -/
  | replace
  /-- The new metadata adopts what it finds at the start of the range, unless that is released. -/
  | adopt
deriving DecidableEq, Repr

/-- A run of one side, from `start` up to `stop`. -/
structure Run (μ : Type) where
  /-- The first byte. -/
  start : Address
  /-- The byte after the last one. -/
  stop : Address
  /-- The side that holds throughout. -/
  side : Side μ
deriving DecidableEq, Repr

namespace Run

variable {μ : Type}

/-- The length in bytes. -/
def size (r : Run μ) : UInt64 := r.stop - r.start

/-- Whether the byte at `x` lies in the run. -/
def contains (r : Run μ) (x : Address) : Bool := r.start ≤ x && x < r.stop

/-- Whether the memory of the run is in use. -/
def isTracked (r : Run μ) : Bool := r.side.state.isReserved

end Run

/-- A change to the stored boundaries. -/
inductive Edit (μ : Type) where
  /-- Drop the boundary at this address, if there is one. -/
  | drop (key : Address)
  /-- Store this boundary at this address. -/
  | put (key : Address) (boundary : Boundary μ)
deriving DecidableEq, Repr

/-- Carries out an edit. -/
def Edit.apply {μ : Type} (t : Treap Address (Boundary μ)) :
    Edit μ → Except TreapError (Treap Address (Boundary μ))
  | .drop key => .ok (t.erase key).2
  | .put key b => t.insert key b

/-- The boundaries of one address line. -/
structure RegionMap (μ : Type) where
  /-- The boundaries by address. -/
  boundaries : Treap Address (Boundary μ)

namespace RegionMap

variable {μ : Type}

/-- The map of released memory, whose boundaries take their priorities from `draws`. -/
def empty (draws : Draws) : RegionMap μ := ⟨.empty draws⟩

/-- The number of boundaries. -/
def size (m : RegionMap μ) : Nat := m.boundaries.size

/-- Whether all memory is released. -/
def isEmpty (m : RegionMap μ) : Bool := m.boundaries.isEmpty

/-- The boundaries in ascending order. -/
def points (m : RegionMap μ) : List (Address × Boundary μ) := m.boundaries.toList

/-- The boundaries between two bounds, in ascending order. -/
def pointsIn (m : RegionMap μ) (first last : Bound Address) : List (Address × Boundary μ) :=
  m.boundaries.range first last

/-! ## Checked ranges -/

/-- The end of the range of `size` bytes from `start`: it must be neither empty nor longer than
`maxSpan`, nor run past the last address. -/
def rangeEnd (start : Address) (size : UInt64) : Except RegionError Address :=
  if size = 0 ∨ maxSpan < size then .error (.invalidRange start size)
  else
    match endOf? start size with
    | some stop => .ok stop
    | none => .error (.invalidRange start size)

/-! ## Queries -/

section Queries

variable [Metadata μ]

/-- The side of the byte at `x`. -/
def sideAt (m : RegionMap μ) (x : Address) : Side μ :=
  match m.boundaries.floor? x with
  | some (_, b) => b.outgoing
  | none => .released

/-- The runs from `cursor` to `stop`, where `side` holds at `cursor` and the boundaries in between
are given in ascending order. -/
def cut (cursor stop : Address) (side : Side μ) : List (Address × Boundary μ) → List (Run μ)
  | [] => [⟨cursor, stop, side⟩]
  | (key, b) :: rest => ⟨cursor, key, side⟩ :: cut key stop b.outgoing rest

/-- The range from `first` to `last`, cut at every boundary inside it. -/
def segments (m : RegionMap μ) (first last : Address) : List (Run μ) :=
  if first < last then
    cut first last (m.sideAt first) (m.pointsIn (.excluded first) (.excluded last))
  else []

/-- The tracked runs that overlap the range from `first` to `last`, clipped to it. -/
def runsIn (m : RegionMap μ) (first last : Address) : List (Run μ) :=
  (m.segments first last).filter Run.isTracked

/-- All tracked runs, in ascending order. -/
def runs (m : RegionMap μ) : List (Run μ) :=
  match m.boundaries.min?, m.boundaries.max? with
  | some (first, _), some (last, _) => m.runsIn first last
  | _, _ => []

/-- The tracked run around the byte at `x`, in its full length. -/
def enclosing? (m : RegionMap μ) (x : Address) : Option (Run μ) :=
  match m.boundaries.floor? x, m.boundaries.higher? x with
  | some (start, b), some (stop, _) =>
    if b.outgoing.state = .released then none else some ⟨start, stop, b.outgoing⟩
  | _, _ => none

/-- The bytes of every tag, counted from the runs between neighbouring boundaries. -/
def tally (m : RegionMap μ) : Deltas :=
  match m.points with
  | [] => ∅
  | (first, b) :: rest => go ∅ first b.outgoing rest
where
  /-- Books the run that `side` starts at `cursor`, and those after it. -/
  go (d : Deltas) (cursor : Address) (side : Side μ) : List (Address × Boundary μ) → Deltas
    | [] => d
    | (key, b) :: rest => go (d.charge side.tag side.state (span (key - cursor))) key b.outgoing rest

end Queries

/-! ## Assigning a side to a range -/

section Assign

variable [DecidableEq μ] [Metadata μ]

/-- Books the runs off. -/
def retire (d : Deltas) (runs : List (Run μ)) : Deltas :=
  runs.foldl (fun d r => d.charge r.side.tag r.side.state (-span r.size)) d

/-- Books a run. -/
def enter (d : Deltas) (r : Run μ) : Deltas := d.charge r.side.tag r.side.state (span r.size)

/-- The side that ends at `x`: that of the byte before `x`. -/
def sideBefore (m : RegionMap μ) (x : Address) : Side μ :=
  match m.boundaries.floor? x with
  | some (key, b) => if key = x then b.incoming else b.outgoing
  | none => .released

/-- The side that a range gets, given the side found at its start. -/
def newSide (found : Side μ) (state : State) (data : μ) (mode : Overwrite) : Side μ :=
  match state, mode with
  | .released, _ => .released
  | state, .replace => { state, data }
  | state, .adopt =>
    if found.state = .released then { state, data }
    else { state, data := Metadata.adopt data found.data }

/-- Stores a boundary, or drops the one that is there if the new one would change nothing. -/
def place (key : Address) (b : Boundary μ) : Edit μ := if b.isVoid then .drop key else .put key b

/-- The edits that give the range from `a` to `b` the side `new`: the boundaries strictly inside go,
then the two ends are placed. -/
def edits (m : RegionMap μ) (a b : Address) (new : Side μ) : List (Edit μ) :=
  let inner := m.pointsIn (.excluded a) (.excluded b)
  (inner.map fun (key, _) => .drop key) ++
    [place a { incoming := m.sideBefore a, outgoing := new },
     place b { incoming := new, outgoing := m.sideAt b }]

/-- The addresses in the list at which no boundary is stored. -/
def missing (m : RegionMap μ) (keys : List Address) : Nat :=
  (keys.filter fun key => !m.boundaries.contains key).length

/-- Makes sure there is room for `n` more boundaries. -/
def room (m : RegionMap μ) (n : Nat) : Except RegionError Unit :=
  (m.boundaries.reserve n).mapError .outOfMemory

/-- Gives the range from `a` to `b` the state and the metadata, and returns the bytes moved.
Released memory carries the metadata of released memory, whatever is given. -/
def assign (m : RegionMap μ) (a b : Address) (state : State) (data : μ) (mode : Overwrite) :
    Except RegionError (Deltas × RegionMap μ) := do
  if b ≤ a ∨ maxSpan < b - a then
    throw (.invalidRange a (b - a))
  -- Room for both ends is made sure of first, so that a failure leaves the map as it is.
  m.room (m.missing [a, b])
  let new := newSide (m.sideAt a) state data mode
  let deltas := enter (retire ∅ (m.segments a b)) ⟨a, b, new⟩
  let boundaries ← ((m.edits a b new).foldlM Edit.apply m.boundaries).mapError .outOfMemory
  return (deltas, ⟨boundaries⟩)

/-! ## Operations -/

/-- Marks the range reserved. -/
def reserve (m : RegionMap μ) (start : Address) (size : UInt64) (data : μ) :
    Except RegionError (Deltas × RegionMap μ) := do
  let stop ← rangeEnd start size
  m.assign start stop .reserved data .replace

/-- Marks the range committed. -/
def commit (m : RegionMap μ) (start : Address) (size : UInt64) (data : μ) (mode : Overwrite) :
    Except RegionError (Deltas × RegionMap μ) := do
  let stop ← rangeEnd start size
  m.assign start stop .committed data mode

/-- Marks the range released. -/
def release (m : RegionMap μ) (start : Address) (size : UInt64) :
    Except RegionError (Deltas × RegionMap μ) := do
  let stop ← rangeEnd start size
  m.assign start stop .released Metadata.empty .replace

/-- Assigns a side to each of the runs in turn and adds up what moved. -/
def assignEach (m : RegionMap μ) (runs : List (Run μ)) (f : Side μ → State × μ × Overwrite) :
    Except RegionError (Deltas × RegionMap μ) := do
  m.room (m.missing (runs.flatMap fun r => [r.start, r.stop]))
  runs.foldlM
    (fun (sum, m) r => do
      let (state, data, mode) := f r.side
      let (d, m) ← m.assign r.start r.stop state data mode
      let sum ← (sum.plus d).mapError .overflow
      return (sum, m))
    (∅, m)

/-- Turns the committed parts of the range back into reserved memory.  They keep the tag and what
else their metadata adopts; released and reserved parts are left alone. -/
def uncommit (m : RegionMap μ) (start : Address) (size : UInt64) (data : μ) :
    Except RegionError (Deltas × RegionMap μ) := do
  let stop ← rangeEnd start size
  let committed := (m.segments start stop).filter fun r => r.side.state.isCommitted
  m.assignEach committed fun _ => (.reserved, data, .adopt)

/-- Books the tracked parts of the range under `tag`.  Their state and the rest of their metadata
stay; released parts stay released and untagged. -/
def retag (m : RegionMap μ) (start : Address) (size : UInt64) (tag : Tag) :
    Except RegionError (Deltas × RegionMap μ) := do
  let stop ← rangeEnd start size
  let others := (m.segments start stop).filter fun r => r.isTracked && r.side.tag != tag
  m.assignEach others fun s => (s.state, Metadata.withTag s.data tag, .replace)

end Assign

end RegionMap

end RegionLedger
