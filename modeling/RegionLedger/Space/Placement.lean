import RegionLedger.Region.Metadata

/-!
# Spaces and mappings

Memory lives in spaces: space zero is the process's own address space, the others stand for memory
elsewhere, such as a device or a file.  A range of the process can be mapped onto a range of another
space.

* `SpaceId` — a space, by number.
* `Mapping` — the space behind a process range, with the distance from address to offset.
* `Placement` — a call site, a tag and perhaps a mapping.
-/

namespace RegionLedger

/-- A memory space, by its 32-bit number. -/
structure SpaceId where
  /-- The number of the space. -/
  raw : UInt32
deriving DecidableEq, Repr

namespace SpaceId

/-- The process's own address space. -/
def process : SpaceId := ⟨0⟩

/-- Whether the space is the process's own. -/
def isProcess (id : SpaceId) : Bool := id.raw == 0

/-- The text for a space. -/
def text (id : SpaceId) : String := s!"space#{id.raw}"

end SpaceId

/-- The space behind a process range.  What is kept is the wrapping distance from address to offset,
so that neighbouring ranges mapped onto neighbouring offsets carry the same mapping. -/
structure Mapping where
  /-- The space behind the range. -/
  space : SpaceId
  /-- The offset in that space less the address, wrapping. -/
  delta : UInt64
deriving DecidableEq, Repr

namespace Mapping

/-- The mapping of the range that starts at `base` onto `offset` in `space`. -/
def ofBase (space : SpaceId) (base offset : Address) : Mapping := { space, delta := offset - base }

/-- The offset that the address `x` maps to. -/
def offsetOf (m : Mapping) (x : Address) : Address := x + m.delta

end Mapping

/-- A call site, a tag and perhaps a mapping. -/
structure Placement where
  /-- The call site of the last operation on the range. -/
  stack : StackRef := {}
  /-- The tag that the memory is booked under. -/
  tag : Tag := .untagged
  /-- The space behind the range, if it is mapped. -/
  mapping : Option Mapping := none
deriving DecidableEq, Repr

/-- The tag and the mapping are kept, the call site is the new one. -/
instance : Metadata Placement where
  empty := {}
  tag := Placement.tag
  withTag d t := { d with tag := t }
  adopt new old := { stack := new.stack, tag := old.tag, mapping := old.mapping }
  tag_withTag _ _ := rfl
  withTag_tag _ := rfl
  tag_adopt _ _ := rfl
  adopt_self _ := rfl
  adopt_adopt _ _ := rfl

end RegionLedger
