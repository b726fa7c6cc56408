import RegionLedger.Trace.Replay

/-!
# Comparing traces

Two traces are replayed one after the other, and the totals at the end of the second are compared
with those at the end of the first.  The second replay starts with the tag names of the first, so a
tag has one number in both.
-/

namespace RegionLedger

/-- Which of two traces was refused, and why. -/
inductive ComparisonError where
  /-- The trace compared with. -/
  | baseline (cause : RunError)
  /-- The trace that is compared. -/
  | current (cause : RunError)
deriving DecidableEq, Repr

/-- The wordings of a comparison error, the outermost first. -/
def ComparisonError.chain : ComparisonError → List String
  | baseline cause => cause.chain
  | current cause => cause.chain

/-- The totals at the end of two traces. -/
structure Comparison where
  /-- The totals at the end of the trace that is compared. -/
  now : Snapshot
  /-- The totals at the end of the trace compared with. -/
  was : Snapshot
  /-- The names of the tags in both. -/
  names : TagNames

namespace Comparison

/-- Replays both traces. -/
def ofRecords (config : Config) (baseline current : List Record) :
    Except ComparisonError Comparison :=
  match (Replay.create config .initial).run baseline with
  | (.error e, _) => .error (.baseline e)
  | (.ok (), first) =>
    match (Replay.create config first.names).run current with
    | (.error e, _) => .error (.current e)
    | (.ok (), second) =>
      .ok { now := second.snapshot, was := first.snapshot, names := second.names }

/-- The change of every space. -/
def changes (c : Comparison) : Except Overflow (List (SpaceId × Deltas)) := c.now.since c.was

/-- The change of every space as text. -/
def render (c : Comparison) (scale : Scale) : Except Overflow String :=
  c.now.renderSince c.was c.names scale

end Comparison

end RegionLedger
