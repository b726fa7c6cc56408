import RegionLedger.Tracker.Snapshot

/-!
# The tracker

The front of a ledger for many callers.  The ledger is behind a lock; a caller that finds the lock
held waits for it, or, in best-effort mode, gives its update up.  Updates given up are counted, so
that reports can say that the totals are approximate.

* `Tracker` — the ledger, the settings, and the number of updates lost.
* `Tracker.record` — one attempt to record an operation, with the lock free or held.
* `Tracker.snapshot`, `Tracker.report` — what was recorded.
-/

namespace RegionLedger

/-- Why an operation was not recorded. -/
inductive RecordError where
  /-- The ledger refused it. -/
  | rejected (cause : LedgerError)
  /-- The lock was held. -/
  | contended
deriving DecidableEq, Repr

/-- The wording of a recording error. -/
def RecordError.message : RecordError → String
  | rejected cause => cause.message
  | contended => "update dropped: tracker lock is contended"

/-- A ledger with its settings and the number of updates lost. -/
structure Tracker where
  /-- What was recorded. -/
  ledger : Ledger
  /-- How much is recorded. -/
  level : Level
  /-- Whether an update is given up while the lock is held. -/
  bestEffort : Bool
  /-- The number of updates given up; it wraps. -/
  dropped : UInt64 := 0

namespace Tracker

/-- A tracker that has recorded nothing. -/
def create (config : Config) : Tracker :=
  { ledger := .create config, level := config.level, bestEffort := config.bestEffort }

/-- Adds a space; this always waits for the lock. -/
def register (t : Tracker) (name : String) : Except LedgerError (SpaceId × Tracker) :=
  match t.ledger.register name with
  | .error e => .error e
  | .ok (id, ledger) => .ok (id, { t with ledger })

/-- Attempts to record an operation; `held` says that another caller holds the lock.  With tracking
off nothing happens.  In best-effort mode a held lock loses the update; in any other case the caller
waits, so the operation is carried out. -/
def record (t : Tracker) (held : Bool) (op : Operation) : Except RecordError Deltas × Tracker :=
  if t.level = .off then (.ok ∅, t)
  else if t.bestEffort && held then (.error .contended, { t with dropped := t.dropped + 1 })
  else
    let (answer, ledger) := t.ledger.apply op
    (answer.mapError .rejected, { t with ledger })

/-- The totals of all spaces now. -/
def snapshot (t : Tracker) : Snapshot := { spaces := t.ledger.snapshot, dropped := t.dropped }

/-- The report on what was recorded, with every region if `detail` is set. -/
def report (t : Tracker) (names : TagNames) (scale : Scale) (detail : Bool) :
    Except Overflow String :=
  let report : Report := { names, scale, dropped := t.dropped }
  if detail then report.detail t.ledger else report.summary t.ledger

end Tracker

end RegionLedger
