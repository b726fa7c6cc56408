import RegionLedger.Report.Render

/-!
# Snapshots

The totals of every space at one moment, and the change from one snapshot to another.  A space that
only one of two snapshots knows is compared with empty totals.

* `Snapshot` — the totals, with the number of updates lost.
* `Snapshot.since` — the deltas of every space.
* `Snapshot.renderSince` — the same as text.
-/

namespace RegionLedger

/-- The totals of one space at one moment. -/
structure SpaceSnapshot where
  /-- The number of the space. -/
  id : SpaceId
  /-- Its name. -/
  name : String
  /-- Its totals. -/
  totals : Totals
deriving DecidableEq, Repr

/-- The totals of all spaces at one moment. -/
structure Snapshot where
  /-- The spaces in order of their numbers. -/
  spaces : List SpaceSnapshot := []
  /-- The number of updates lost so far. -/
  dropped : UInt64 := 0
deriving DecidableEq, Repr

/-- The totals of all spaces of a ledger. -/
def Ledger.snapshot (v : Ledger) : List SpaceSnapshot :=
  v.toList.map fun (id, space) => { id, name := space.name, totals := space.totals }

namespace Snapshot

/-- Whether updates were lost, so that the totals are approximate. -/
def isApproximate (s : Snapshot) : Bool := 0 < s.dropped

/-- The totals of a space. -/
def totals? (s : Snapshot) (id : SpaceId) : Option Totals :=
  (s.spaces.find? fun space => space.id == id).map (·.totals)

/-- Puts a number into an ascending list of numbers, unless it is there already. -/
def insertId (id : SpaceId) : List SpaceId → List SpaceId
  | [] => [id]
  | first :: rest =>
    if id = first then first :: rest
    else if id.raw < first.raw then id :: first :: rest
    else first :: insertId id rest

/-- The spaces that either snapshot knows, each once, in ascending order. -/
def ids (now was : Snapshot) : List SpaceId :=
  ((now.spaces ++ was.spaces).map (·.id)).foldr insertId []

/-- The change of one space. -/
def change (now was : Snapshot) (id : SpaceId) : Except Overflow Deltas :=
  ((now.totals? id).getD .empty).since ((was.totals? id).getD .empty)

/-- The change of every space that either snapshot knows. -/
def since (now was : Snapshot) : Except Overflow (List (SpaceId × Deltas)) :=
  (ids now was).mapM fun id => do
    let deltas ← change now was id
    return (id, deltas)

/-- The name of a space, as the later snapshot has it if it knows the space. -/
def nameOf (now was : Snapshot) (id : SpaceId) : String :=
  (((now.spaces ++ was.spaces).find? fun space => space.id == id).map (·.name)).getD ""

/-- The line of a space: its bytes over all tags, with their change. -/
def spaceLine (scale : Scale) (id : SpaceId) (name : String) (reserved committed : UInt64)
    (total : Delta) : String :=
  " ".intercalate
    [id.text, name ++ ":", "reserved=" ++ scale.format reserved, scale.formatSigned total.reserve,
     "committed=" ++ scale.format committed, scale.formatSigned total.commit]

/-- The line of a tag that changed. -/
def changeLine (totals : Totals) (names : TagNames) (scale : Scale) (tag : Tag) (d : Delta) :
    String :=
  let c := totals.get tag
  "  " ++ " ".intercalate
    [Report.tagColumn names tag,
     "reserved=" ++ scale.format c.reserved, scale.formatSigned d.reserve,
     "committed=" ++ scale.format c.committed, scale.formatSigned d.commit]

/-- The lines on the change of one space: a blank line, the line of the space, and a line for each
tag that changed. -/
def changeLines (now was : Snapshot) (names : TagNames) (scale : Scale) (id : SpaceId) :
    Except Overflow (List String) := do
  let totals := (now.totals? id).getD .empty
  let deltas ← change now was id
  let total ← deltas.total
  let reserved ← totals.reserved
  let committed ← totals.committed
  let line := spaceLine scale id (nameOf now was id) reserved committed total
  return "" :: line :: deltas.toList.map fun (tag, d) => changeLine totals names scale tag d

/-- The lines at the top. -/
def changeHeading (now was : Snapshot) (scale : Scale) : List String :=
  let title := "Virtual memory diff (scale: " ++ scale.unit ++ ")"
  if now.isApproximate || was.isApproximate then
    let a := now.dropped
    let b := was.dropped
    [title, s!"Dropped updates: {a} now, {b} in baseline (totals are approximate)"]
  else [title]

/-- The change from the snapshot `was` to the snapshot `now` as text. -/
def renderSince (now was : Snapshot) (names : TagNames) (scale : Scale) :
    Except Overflow String := do
  let blocks ← (ids now was).mapM (changeLines now was names scale)
  return Report.unlines (changeHeading now was scale ++ blocks.flatten)

end Snapshot

end RegionLedger
