import RegionLedger.Trace.Record
import RegionLedger.Tracker.Basic

/-!
# Replays

A replay feeds the records of a trace to a tracker.  Names of spaces and tags are resolved as they
come: a space must have been registered, a tag is numbered when it is first named.

* `Replay` — the tracker, the names, and the counts so far.
* `Replay.apply` — one record; a refused record leaves what it did before the refusal.
* `Replay.run` — a whole trace, up to the first refusal.
-/

namespace RegionLedger

/-- Why a record was refused. -/
inductive ReplayError where
  /-- No space has this name. -/
  | unknownSpace (name : String)
  /-- A space of this name exists already. -/
  | registeredTwice (name : String)
  /-- The tag could not be numbered. -/
  | tag (cause : TagError)
  /-- The space could not be registered. -/
  | registration (cause : LedgerError)
  /-- The operation was refused. -/
  | rejected (op : Operation) (cause : LedgerError)
deriving DecidableEq, Repr

/-- The overflow that ended the operation of a record, if that is what happened. -/
def ReplayError.overflow? : ReplayError → Option Overflow
  | rejected _ (.region (.overflow cause)) => some cause
  | _ => none

/-- The wordings of a replay error, the outermost first. -/
def ReplayError.chain : ReplayError → List String
  | unknownSpace name => [s!"unknown space '{name}'"]
  | registeredTwice name => [s!"space '{name}' registered twice"]
  | tag cause => [cause.message]
  | registration cause => [cause.message]
  | rejected op cause => ["cannot apply " ++ op.text, cause.message]

/-- The first record of a run that was refused, with the reason. -/
structure RunError where
  /-- The number of the record, counted from one. -/
  record : Nat
  /-- The reason. -/
  cause : ReplayError
deriving DecidableEq, Repr

/-- The wordings of a run error, the outermost first. -/
def RunError.chain (e : RunError) : List String :=
  let record := e.record
  s!"trace record {record}" :: e.cause.chain

/-- Counts over the records of a replay, of which there are less than `2 ^ 64`. -/
structure ReplayStats where
  /-- The records taken up, refused ones included. -/
  records : UInt64 := 0
  /-- The operations that the tracker accepted. -/
  operations : UInt64 := 0
  /-- The spaces registered. -/
  spaces : UInt64 := 0
  /-- The operations lost while the tracker was busy. -/
  dropped : UInt64 := 0
deriving DecidableEq, Repr

/-- A tracker fed from a trace. -/
structure Replay where
  /-- The tracker. -/
  tracker : Tracker
  /-- The names of the tags. -/
  names : TagNames
  /-- The spaces by name. -/
  spaces : List (String × SpaceId)
  /-- The counts so far. -/
  stats : ReplayStats := {}

namespace Replay

/-- A replay that has seen no record.  Replays that share a table of tag names number their tags
alike. -/
def create (config : Config) (names : TagNames) : Replay where
  tracker := .create config
  names
  spaces := [(Ledger.processName, .process)]

/-- The space of a name. -/
def space? (r : Replay) (name : String) : Option SpaceId := r.spaces.lookup name

/-- Goes on with the space of a name. -/
def withSpace (r : Replay) (name : String) (f : SpaceId → Except ReplayError Operation × Replay) :
    Except ReplayError Operation × Replay :=
  match r.space? name with
  | none => (.error (.unknownSpace name), r)
  | some id => f id

/-- Goes on with the space and the tag of the given names.  The tag is numbered only if the space is
known. -/
def withTag (r : Replay) (space tag : String) (f : SpaceId → Tag → Operation) :
    Except ReplayError Operation × Replay :=
  r.withSpace space fun id =>
    match r.names.intern tag with
    | (.error e, names) => (.error (.tag e), { r with names })
    | (.ok tag, names) => (.ok (f id tag), { r with names })

/-- Counts a record as taken up. -/
def takeUp (r : Replay) : Replay :=
  { r with stats := { r.stats with records := r.stats.records + 1 } }

/-- Registers a space under a new name. -/
def register (r : Replay) (name : String) : Except ReplayError Unit × Replay :=
  match r.space? name with
  | some _ => (.error (.registeredTwice name), r)
  | none =>
    match r.tracker.register name with
    | .error e => (.error (.registration e), r)
    | .ok (id, tracker) =>
      (.ok (), { r with
        tracker
        spaces := r.spaces ++ [(name, id)]
        stats := { r.stats with spaces := r.stats.spaces + 1 } })

/-- Records an operation and counts what became of it.  A lost update is no failure. -/
def record (r : Replay) (op : Operation) : Except ReplayError Unit × Replay :=
  let (answer, tracker) := r.tracker.record false op
  let r := { r with tracker }
  match answer with
  | .ok _ => (.ok (), { r with stats := { r.stats with operations := r.stats.operations + 1 } })
  | .error .contended => (.ok (), { r with stats := { r.stats with dropped := r.stats.dropped + 1 } })
  | .error (.rejected cause) => (.error (.rejected op cause), r)

/-- Records the operation that a record of the trace was resolved to. -/
def perform (step : Except ReplayError Operation × Replay) : Except ReplayError Unit × Replay :=
  match step with
  | (.error e, r) => (.error e, r)
  | (.ok op, r) => r.record op

/-- Applies one record. -/
def apply (r : Replay) (record : Record) : Except ReplayError Unit × Replay :=
  let r := r.takeUp
  match record with
  | .space name => r.register name
  | .reserve space start size tag frames =>
    perform (r.withTag space tag fun id tag => .reserve id start size tag ⟨frames⟩)
  | .commit space start size tag frames =>
    perform (r.withTag space tag fun id tag => .commit id start size tag ⟨frames⟩)
  | .uncommit space start size frames =>
    perform (r.withSpace space fun id => (.ok (.uncommit id start size ⟨frames⟩), r))
  | .release space start size =>
    perform (r.withSpace space fun id => (.ok (.release id start size), r))
  | .map space base size offset tag frames =>
    perform (r.withTag space tag fun id tag => .map id base size offset tag ⟨frames⟩)
  | .unmap space base size =>
    perform (r.withSpace space fun id => (.ok (.unmap id base size), r))
  | .retag space start size tag =>
    perform (r.withTag space tag fun id tag => .retag id start size tag)

/-- Applies records in order, the first of which has the number `n`, up to the first refusal. -/
def runFrom (n : Nat) (r : Replay) : List Record → Except RunError Unit × Replay
  | [] => (.ok (), r)
  | record :: rest =>
    match r.apply record with
    | (.error cause, r) => (.error { record := n, cause }, r)
    | (.ok (), r) => runFrom (n + 1) r rest

/-- Applies records in order up to the first refusal. -/
def run (r : Replay) (records : List Record) : Except RunError Unit × Replay := runFrom 1 r records

/-- The totals of all spaces now. -/
def snapshot (r : Replay) : Snapshot := r.tracker.snapshot

end Replay

end RegionLedger
