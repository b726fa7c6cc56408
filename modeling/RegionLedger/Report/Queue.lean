import RegionLedger.Report.Listing

/-!
# Nesting with a queue

`Listing.nest` is carried out as a loop over a queue of commitments.  Each turn holds the first of the
queue against the reservation at hand.  A commitment that reaches beyond the end of the reservation is
cut, and its remainder goes back to the front of the queue, which is then as long as before.

* `NestingPass` — the state of the loop.
* `NestingPass.turn`, `NestingPass.run` — one turn, and so many turns as are allowed.
-/

namespace RegionLedger

/-- The state of the loop that nests commitments. -/
structure NestingPass where
  /-- The reservations that are not finished, the one at hand first. -/
  todo : List Reservation
  /-- The queue of commitments. -/
  pending : List Commitment
  /-- The finished reservations. -/
  done : List Reservation := []
  /-- The parts found to lie outside every reservation. -/
  orphans : List Commitment := []
deriving DecidableEq, Repr

namespace NestingPass

/-- One turn.  It ends with the listing once there is no reservation left; then what is in the queue
lies outside them all. -/
def turn (p : NestingPass) : NestingPass ⊕ Listing :=
  match p.todo with
  | [] => .inr { reserved := p.done, orphans := p.orphans ++ p.pending }
  | r :: todo =>
    match p.pending with
    | [] => .inl { p with todo, done := p.done ++ [r] }
    | c :: pending =>
      if c.stop ≤ r.start then .inl { p with pending, orphans := p.orphans ++ [c] }
      else if r.stop ≤ c.start then .inl { p with todo, done := p.done ++ [r] }
      else
        let orphans :=
          if c.start < r.start then p.orphans ++ [{ c with stop := r.start }] else p.orphans
        let pending := if r.stop < c.stop then { c with start := r.stop } :: pending else pending
        let piece := { c with start := max c.start r.start, stop := min c.stop r.stop }
        let taken := { r with committed := r.committed ++ [piece] }
        .inl { p with todo := taken :: todo, pending, orphans }

/-- Up to `n` turns, with the listing if the loop has come to its end. -/
def run : Nat → NestingPass → Option Listing
  | 0, _ => none
  | n + 1, p =>
    match p.turn with
    | .inl next => next.run n
    | .inr listing => some listing

end NestingPass

end RegionLedger
