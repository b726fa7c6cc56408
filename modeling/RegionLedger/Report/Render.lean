import RegionLedger.Report.Listing
import RegionLedger.Report.Scale
import RegionLedger.Space.Ledger
import RegionLedger.Tag.Names

/-!
# Reports

The totals of a ledger as text, and on request every region with its call site.  The line of a space
has the sums over its tags, so there is no text if one of them is no word.

* `Report` — what a report needs beside the ledger.
* `Report.summary` — the totals of every space and tag.
* `Report.detail` — the same with every region.
-/

namespace RegionLedger

/-- What a report needs beside the ledger. -/
structure Report where
  /-- The names of the tags. -/
  names : TagNames
  /-- The unit of the amounts. -/
  scale : Scale := .kilo
  /-- The number of updates lost, which makes the totals approximate. -/
  dropped : UInt64 := 0

namespace Report

/-- Lines of text as one text: every line is ended. -/
def unlines (lines : List String) : String := String.join (lines.map (· ++ "\n"))

/-- The name of a tag, filled up to the width of the first column. -/
def tagColumn (names : TagNames) (tag : Tag) : String := Text.padRight 16 (names.display tag)

/-- The lines at the top. -/
def heading (r : Report) : List String :=
  let title := "Virtual memory (scale: " ++ r.scale.unit ++ ")"
  if 0 < r.dropped then
    let dropped := r.dropped
    [title, s!"Dropped updates: {dropped} (totals are approximate)"]
  else [title]

/-- The line of one tag. -/
def tagLine (r : Report) (tag : Tag) (c : Counters) : String :=
  "  " ++ " ".intercalate
    [tagColumn r.names tag, "reserved=" ++ r.scale.format c.reserved,
     "committed=" ++ r.scale.format c.committed, "peak=" ++ r.scale.format c.peak]

/-- The totals of one space: a blank line, the line of the space, and a line for each tag. -/
def totalsLines (r : Report) (id : SpaceId) (space : Space) : Except Overflow (List String) := do
  let reserved ← space.totals.reserved
  let committed ← space.totals.committed
  let line := " ".intercalate
    [id.text, space.name ++ ":", "reserved=" ++ r.scale.format reserved,
     "committed=" ++ r.scale.format committed]
  return "" :: line :: space.totals.toList.map fun (tag, c) => r.tagLine tag c

/-- The totals of every space and tag. -/
def summary (r : Report) (v : Ledger) : Except Overflow String := do
  let blocks ← v.toList.mapM fun (id, space) => r.totalsLines id space
  return unlines (r.heading ++ blocks.flatten)

/-- The range from `start` to `stop` as printed. -/
def rangeText (start stop : Address) : String :=
  "[" ++ Text.hexWord start ++ " - " ++ Text.hexWord stop ++ "]"

/-- The lines of a call site, indented; none where call stacks are not kept. -/
def stackLines (v : Ledger) (depth : Nat) (ref : StackRef) : List String :=
  if v.callStacks.detailed then (v.callStacks.get ref).lines.map (Text.indent depth) else []

/-- The lines of a commitment. -/
def commitmentLines (r : Report) (v : Ledger) (c : Commitment) : List String :=
  ("    " ++ rangeText c.start c.stop ++ " committed " ++ r.scale.format c.size)
    :: stackLines v 10 c.stack

/-- The words on the mapping of a region that starts at `start`. -/
def mappingText (v : Ledger) (start : Address) (m : Mapping) : String :=
  let name := ((v.space? m.space).map (·.name)).getD ""
  ", mapped to " ++ m.space.text ++ " " ++ name ++ " at " ++ Text.hex (m.offsetOf start)

/-- The lines of a reservation: a blank line, the reservation, and the commitments inside it. -/
def reservationLines (r : Report) (v : Ledger) (region : Reservation) : List String :=
  let mapped := (region.mapping.map (mappingText v region.start)).getD ""
  let line := "  " ++ rangeText region.start region.stop ++ " reserved "
    ++ r.scale.format region.size ++ " for " ++ r.names.display region.tag ++ mapped
  "" :: line :: stackLines v 6 region.stack
    ++ region.committed.flatMap (r.commitmentLines v)

/-- The regions of one space. -/
def regionLines (r : Report) (v : Ledger) (space : Space) : List String :=
  let listing := space.listing
  let orphans :=
    if listing.orphans.isEmpty then []
    else "" :: "  committed outside any reservation:"
      :: listing.orphans.flatMap (r.commitmentLines v)
  listing.reserved.flatMap (r.reservationLines v) ++ orphans

/-- The totals of every space and tag, with every region. -/
def detail (r : Report) (v : Ledger) : Except Overflow String := do
  let blocks ← v.toList.mapM fun (id, space) => do
    let totals ← r.totalsLines id space
    return totals ++ r.regionLines v space
  return unlines (r.heading ++ blocks.flatten)

end Report

end RegionLedger
