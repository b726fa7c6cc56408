import RegionLedger.Accounting.Totals
import RegionLedger.Region.Map
import RegionLedger.Space.Placement

/-!
# Spaces

A space holds its reservations in one region map.  The process records commits in that same map;
another space keeps its commits in a second map, since its memory is backed whether or not anything
is reserved.

Every operation on a space returns its answer beside the space it leaves.  When an operation is
refused the space is as it was, with one exception: `Space.unmap` releases run after run, and books
what it released only once all went well.

* `Space` — the maps of one space, with its running totals.
* `Space.reserve`, `Space.commit`, `Space.uncommit`, `Space.release`, `Space.unmap`, `Space.retag` —
  operations.
* `Space.tally` — the totals counted afresh from the maps.
-/

namespace RegionLedger

/-- The recorded state of one space. -/
structure Space where
  /-- The name given at registration. -/
  name : String
  /-- The reservations; for the process also the commits. -/
  reserved : RegionMap Placement
  /-- The commits of a space other than the process. -/
  committed : Option (RegionMap Attribution)
  /-- The running totals. -/
  totals : Totals := {}

namespace Space

/-- The seed for the space `id`: spaces of one ledger draw from streams of their own. -/
def seedFor (seed : UInt64) (id : SpaceId) : UInt64 :=
  seed ^^^ (id.raw.toUInt64 * 0x9e3779b97f4a7c15)

/-- The seed for the commits of a space whose reservations have the seed `seed`. -/
def commitSeed (seed : UInt64) : UInt64 := (seed <<< 17) ||| (seed >>> 47)

/-- An empty space. -/
def create (id : SpaceId) (name : String) (seed : UInt64) : Space :=
  let seed := seedFor seed id
  { name
    reserved := .empty (Draws.ofSeed seed)
    committed :=
      if id.isProcess then none else some (.empty (Draws.ofSeed (commitSeed seed))) }

/-- Books deltas into the running totals. -/
def account (s : Space) (d : Deltas) : Space := { s with totals := s.totals.apply d }

/-- The totals counted afresh: reservations from the one map, commits of their own from the other. -/
def tally (s : Space) : Except Overflow Deltas :=
  match s.committed with
  | none => .ok s.reserved.tally
  | some committed => s.reserved.tally.plus committed.tally.commitOnly

/-- Takes over what an operation on the reservations left and books it. -/
def takeReserved (s : Space) (step : Except RegionError (Deltas × RegionMap Placement)) :
    Except RegionError Deltas × Space :=
  match step with
  | .error e => (.error e, s)
  | .ok (d, reserved) => (.ok d, { s with reserved }.account d)

/-- Takes over what an operation on the commits left and books it, without the reserved bytes. -/
def takeCommitted (s : Space) (step : Except RegionError (Deltas × RegionMap Attribution)) :
    Except RegionError Deltas × Space :=
  match step with
  | .error e => (.error e, s)
  | .ok (d, committed) =>
    (.ok d.commitOnly, { s with committed := some committed }.account d.commitOnly)

/-- Runs one operation on the reservations and then one on the commits, if they are apart, and books
the sum. -/
def takeBoth (s : Space) (onReserved : Except RegionError (Deltas × RegionMap Placement))
    (onCommitted : RegionMap Attribution → Except RegionError (Deltas × RegionMap Attribution)) :
    Except RegionError Deltas × Space :=
  match onReserved with
  | .error e => (.error e, s)
  | .ok (d, reserved) =>
    let s := { s with reserved }
    match s.committed with
    | none => (.ok d, s.account d)
    | some committed =>
      match onCommitted committed with
      | .error e => (.error e, s)
      | .ok (c, committed) =>
        let s := { s with committed := some committed }
        match d.plus c.commitOnly with
        | .error cause => (.error (.overflow cause), s)
        | .ok sum => (.ok sum, s.account sum)

/-- Reserves a range. -/
def reserve (s : Space) (start : Address) (size : UInt64) (data : Placement) :
    Except RegionError Deltas × Space :=
  s.takeReserved (s.reserved.reserve start size data)

/-- Commits a range.  In the process the commit lands in the reservation and keeps its tag and its
mapping; the given tag is for memory that was not reserved. -/
def commit (s : Space) (start : Address) (size : UInt64) (stack : StackRef) (tag : Tag) :
    Except RegionError Deltas × Space :=
  match s.committed with
  | some committed => s.takeCommitted (committed.commit start size { stack, tag } .replace)
  | none => s.takeReserved (s.reserved.commit start size { stack, tag } .adopt)

/-- Takes the backing from the committed parts of a range. -/
def uncommit (s : Space) (start : Address) (size : UInt64) (stack : StackRef) :
    Except RegionError Deltas × Space :=
  match s.committed with
  | some committed => s.takeCommitted (committed.release start size)
  | none => s.takeReserved (s.reserved.uncommit start size { stack })

/-- Releases a range, reservations and commits alike. -/
def release (s : Space) (start : Address) (size : UInt64) : Except RegionError Deltas × Space :=
  s.takeBoth (s.reserved.release start size) (·.release start size)

/-- Books the tracked parts of a range under another tag. -/
def retag (s : Space) (start : Address) (size : UInt64) (tag : Tag) :
    Except RegionError Deltas × Space :=
  s.takeBoth (s.reserved.retag start size tag) (·.retag start size tag)

/-- Releases runs one after the other and adds up what moved.  The first refusal ends it, and so does
a sum that is no signed word; what was released before stays released. -/
def releaseEach (m : RegionMap Placement) (sum : Deltas) :
    List (Run Placement) → Except RegionError Deltas × RegionMap Placement
  | [] => (.ok sum, m)
  | r :: rest =>
    match m.release r.start r.size with
    | .error e => (.error e, m)
    | .ok (d, m) =>
      match sum.plus d with
      | .error cause => (.error (.overflow cause), m)
      | .ok sum => releaseEach m sum rest

/-- Releases the parts of the range from `first` to `last` that are mapped onto `target`.  Deltas are
booked at the end only, so an end midway leaves released runs unbooked. -/
def unmap (s : Space) (target : SpaceId) (first last : Address) :
    Except RegionError Deltas × Space :=
  let mapped := (s.reserved.runsIn first last).filter fun r =>
    r.side.data.mapping.map (·.space) = some target
  let (answer, reserved) := releaseEach s.reserved ∅ mapped
  let s := { s with reserved }
  match answer with
  | .error e => (.error e, s)
  | .ok d => (.ok d, s.account d)

end Space

end RegionLedger
