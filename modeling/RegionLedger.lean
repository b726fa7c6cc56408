import RegionLedger.Main
import RegionLedger.Proofs.Region.Accounting
import RegionLedger.Proofs.Region.Canonical
import RegionLedger.Proofs.Space.RunningTotals
import RegionLedger.Proofs.CallStack.Numbering
import RegionLedger.Proofs.Space.Writes
import RegionLedger.Proofs.Space.Atomicity
import RegionLedger.Proofs.Region.CallSites
import RegionLedger.Proofs.Space.Provenance
import RegionLedger.Proofs.Treap.FiniteMap
import RegionLedger.Proofs.Treap.Links
import RegionLedger.Proofs.Treap.Linked
import RegionLedger.Proofs.Report.Levels
import RegionLedger.Proofs.Report.Partition
import RegionLedger.Proofs.Report.Twins
import RegionLedger.Proofs.Trace.Grammar
import RegionLedger.Proofs.Tracker.Recording
import RegionLedger.Proofs.Space.Commuting
import RegionLedger.Proofs.Trace.Renumbering
import RegionLedger.Proofs.Trace.Printed
import RegionLedger.Proofs.Tracker.Contention
import RegionLedger.Proofs.Space.Committing
import RegionLedger.Proofs.Space.Unmapping
import RegionLedger.Proofs.Region.Queries
import RegionLedger.Proofs.Treap.Shape
import RegionLedger.Proofs.Report.Queue
import RegionLedger.Proofs.Space.Repeating
import RegionLedger.Proofs.Space.Piecewise
import RegionLedger.Proofs.Trace.Bookkeeping
import RegionLedger.Proofs.Tag.Interning
import RegionLedger.Proofs.Accounting.Building
import RegionLedger.Proofs.Report.Rounding
import RegionLedger.Proofs.Region.Edits
import RegionLedger.Proofs.Treap.Reservation
