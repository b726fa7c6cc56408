import RegionLedger.Space.Basic

/-!
# Listings

The regions of one space as a reader wants them: reservations with the commits inside them, and the
commits outside every reservation.

A reservation is a maximal stretch of tracked memory under one tag and one mapping; it may span
several runs, since commits inside it carry call sites of their own.  A commitment is a maximal
stretch of committed memory under one tag and one call site.  Both come out of the maps in ascending
order, so one pass nests the commitments.

* `Reservation`, `Commitment`, `Listing` — what is listed.
* `Reservation.ofRuns`, `Commitment.ofRuns` — gather runs.
* `Listing.nest` — puts every commitment where it belongs, cutting it at the ends of reservations.
* `Space.listing` — the listing of a space.
-/

namespace RegionLedger

/-- A stretch of committed memory. -/
structure Commitment where
  /-- The first byte. -/
  start : Address
  /-- The byte after the last one. -/
  stop : Address
  /-- The tag that the memory is booked under. -/
  tag : Tag
  /-- The call site of the commit. -/
  stack : StackRef
deriving DecidableEq, Repr

/-- A stretch of reserved memory and the commitments inside it. -/
structure Reservation where
  /-- The first byte. -/
  start : Address
  /-- The byte after the last one. -/
  stop : Address
  /-- The tag that the memory is booked under. -/
  tag : Tag
  /-- The call site of the reservation. -/
  stack : StackRef
  /-- The space behind the range, if it is mapped. -/
  mapping : Option Mapping
  /-- The committed parts in ascending order. -/
  committed : List Commitment := []
deriving DecidableEq, Repr

/-- The regions of one space. -/
structure Listing where
  /-- The reservations with the commitments inside them. -/
  reserved : List Reservation := []
  /-- The commitments outside every reservation. -/
  orphans : List Commitment := []
deriving DecidableEq, Repr

namespace Commitment

/-- The length in bytes. -/
def size (c : Commitment) : UInt64 := c.stop - c.start

/-- The commitment of one run. -/
def ofRun (r : Run Attribution) : Commitment :=
  { start := r.start, stop := r.stop, tag := r.side.data.tag, stack := r.side.data.stack }

/-- Lengthens `current` by each run that continues it, and starts anew with each run that does
not. -/
def gather (current : Commitment) : List (Run Attribution) → List Commitment
  | [] => [current]
  | r :: rest =>
    if current.stop = r.start ∧ current.tag = r.side.data.tag
        ∧ current.stack = r.side.data.stack then
      gather { current with stop := r.stop } rest
    else current :: gather (ofRun r) rest

/-- The commitments in ascending runs. -/
def ofRuns (runs : List (Run Attribution)) : List Commitment :=
  match runs.filter fun r => r.side.state.isCommitted with
  | [] => []
  | first :: rest => gather (ofRun first) rest

end Commitment

namespace Reservation

/-- The length in bytes. -/
def size (r : Reservation) : UInt64 := r.stop - r.start

/-- The committed bytes inside. -/
def committedSize (r : Reservation) : UInt64 := r.committed.foldl (fun sum c => sum + c.size) 0

/-- The reservation of one run. -/
def ofRun (r : Run Placement) : Reservation :=
  { start := r.start, stop := r.stop, tag := r.side.data.tag, stack := r.side.data.stack,
    mapping := r.side.data.mapping }

/-- Lengthens `current` by each run that continues it, and starts anew with each run that does not.
The call site is that of the first run that is reserved and not committed; `settled` says whether
`current` has met one. -/
def gather (current : Reservation) (settled : Bool) : List (Run Placement) → List Reservation
  | [] => [current]
  | r :: rest =>
    let plain := r.side.state == .reserved
    if current.stop = r.start ∧ current.tag = r.side.data.tag
        ∧ current.mapping = r.side.data.mapping then
      let stack := if !settled && plain then r.side.data.stack else current.stack
      gather { current with stop := r.stop, stack } (settled || plain) rest
    else current :: gather (ofRun r) plain rest

/-- The reservations in ascending runs. -/
def ofRuns : List (Run Placement) → List Reservation
  | [] => []
  | first :: rest => gather (ofRun first) (first.side.state == .reserved) rest

end Reservation

/-- What one reservation takes from the commitments that were not placed before it. -/
structure Carving where
  /-- The parts inside the reservation. -/
  inside : List Commitment := []
  /-- The parts before it. -/
  before : List Commitment := []
  /-- What is left for the reservations after it. -/
  left : List Commitment := []
deriving DecidableEq, Repr

/-- Divides ascending commitments at the ends of a reservation.  A commitment that reaches beyond the
end is cut there, and its remainder comes first among those left. -/
def Reservation.carve (r : Reservation) : List Commitment → Carving
  | [] => {}
  | c :: rest =>
    if c.stop ≤ r.start then
      let after := r.carve rest
      { after with before := c :: after.before }
    else if r.stop ≤ c.start then { left := c :: rest }
    else
      let head := if c.start < r.start then [{ c with stop := r.start }] else []
      let piece := { c with start := max c.start r.start, stop := min c.stop r.stop }
      if r.stop < c.stop then
        { inside := [piece], before := head, left := { c with start := r.stop } :: rest }
      else
        let after := r.carve rest
        { inside := piece :: after.inside, before := head ++ after.before, left := after.left }

/-- Puts every commitment inside the reservations that it overlaps, cut at their ends; what lies
outside all of them are the orphans.  Both lists are ascending and free of overlaps. -/
def Listing.nest : List Reservation → List Commitment → Listing
  | [], committed => { orphans := committed }
  | r :: rest, committed =>
    let carved := r.carve committed
    let after := nest rest carved.left
    { reserved := { r with committed := r.committed ++ carved.inside } :: after.reserved
      orphans := carved.before ++ after.orphans }

/-- The run with its mapping left out. -/
def Run.unmapped (r : Run Placement) : Run Attribution :=
  let d := r.side.data
  { start := r.start, stop := r.stop
    side := { state := r.side.state, data := { stack := d.stack, tag := d.tag } } }

/-- The listing of a space. -/
def Space.listing (s : Space) : Listing :=
  let committed :=
    match s.committed with
    | some committed => committed.runs
    | none => s.reserved.runs.map Run.unmapped
  .nest (Reservation.ofRuns s.reserved.runs) (Commitment.ofRuns committed)

end RegionLedger
