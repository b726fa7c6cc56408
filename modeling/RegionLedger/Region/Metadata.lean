import RegionLedger.Tag.Basic
import RegionLedger.CallStack.Store
import RegionLedger.Region.State

/-!
# What a region carries

Beside its state, a run of memory carries metadata: who used it last and under which tag.  Runs in
the same state with equal metadata are one run.

* `Metadata` — the operations on metadata, with the laws that regions rely on.
* `Attribution` — a call site and a tag.
* `Side` — a state with its metadata; `Side.released` is the side of all memory never touched.
* `Boundary` — a change of side at an address.
-/

namespace RegionLedger

/-- Metadata of a run of memory. -/
class Metadata (μ : Type) where
  /-- The metadata of released memory. -/
  empty : μ
  /-- The tag that the memory is booked under. -/
  tag : μ → Tag
  /-- The same metadata under another tag. -/
  withTag : μ → Tag → μ
  /-- What `adopt new old` leaves where an operation with metadata `new` keeps attributes of the
  memory it finds, which carries `old`. -/
  adopt : μ → μ → μ
  /-- A new tag is the tag. -/
  tag_withTag (d : μ) (t : Tag) : tag (withTag d t) = t
  /-- Writing the tag that is there changes nothing. -/
  withTag_tag (d : μ) : withTag d (tag d) = d
  /-- The tag of the memory found is kept. -/
  tag_adopt (d e : μ) : tag (adopt d e) = tag e
  /-- Finding one's own metadata leaves it as it is. -/
  adopt_self (d : μ) : adopt d d = d
  /-- Adopting twice is adopting once. -/
  adopt_adopt (d e : μ) : adopt d (adopt d e) = adopt d e

/-- A call site and a tag. -/
structure Attribution where
  /-- The call site of the operation. -/
  stack : StackRef := {}
  /-- The tag that the memory is booked under. -/
  tag : Tag := .untagged
deriving DecidableEq, Repr

/-- The tag is kept, the call site is the new one. -/
instance : Metadata Attribution where
  empty := {}
  tag := Attribution.tag
  withTag d t := { d with tag := t }
  adopt new old := { new with tag := old.tag }
  tag_withTag _ _ := rfl
  withTag_tag _ := rfl
  tag_adopt _ _ := rfl
  adopt_self _ := rfl
  adopt_adopt _ _ := rfl

/-- A state with its metadata, as it holds on one side of an address. -/
structure Side (μ : Type) where
  /-- The state. -/
  state : State
  /-- The metadata. -/
  data : μ
deriving DecidableEq, Repr

/-- The side of memory that was never touched. -/
def Side.released {μ : Type} [Metadata μ] : Side μ := { state := .released, data := Metadata.empty }

/-- The tag of a side. -/
def Side.tag {μ : Type} [Metadata μ] (s : Side μ) : Tag := Metadata.tag s.data

/-- A change of side at an address. -/
structure Boundary (μ : Type) where
  /-- The side that ends here. -/
  incoming : Side μ
  /-- The side that starts here. -/
  outgoing : Side μ
deriving DecidableEq, Repr

/-- Whether the boundary changes nothing, so that it must not be stored. -/
def Boundary.isVoid {μ : Type} [DecidableEq μ] (b : Boundary μ) : Bool := b.incoming = b.outgoing

end RegionLedger
