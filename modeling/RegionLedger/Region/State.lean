/-!
# States of memory

Every byte of an address space is released, reserved or committed.  Committed memory counts as
reserved as well.
-/

namespace RegionLedger

/-- The life-cycle state of a byte. -/
inductive State where
  /-- Not in use. -/
  | released
  /-- Address space claimed, without memory behind it. -/
  | reserved
  /-- Claimed and backed by memory. -/
  | committed
deriving DecidableEq, Repr

namespace State

/-- Whether the byte counts as reserved: it is reserved or committed. -/
def isReserved : State → Bool
  | released => false
  | reserved => true
  | committed => true

/-- Whether the byte counts as committed. -/
def isCommitted : State → Bool
  | committed => true
  | _ => false

/-- The name of the state. -/
def name : State → String
  | released => "released"
  | reserved => "reserved"
  | committed => "committed"

end State

end RegionLedger
