import RegionLedger.CallStack.Basic
import RegionLedger.Space.Placement

/-!
# Operations

One memory operation, as reported by the program that carried it out.
-/

namespace RegionLedger

/-- A memory operation on a range of `size` bytes. -/
inductive Operation where
  /-- The range is claimed. -/
  | reserve (space : SpaceId) (start : Address) (size : UInt64) (tag : Tag) (stack : CallStack)
  /-- The range is backed by memory; the tag is for memory not reserved yet. -/
  | commit (space : SpaceId) (start : Address) (size : UInt64) (tag : Tag) (stack : CallStack)
  /-- The backing is dropped and the reservation kept. -/
  | uncommit (space : SpaceId) (start : Address) (size : UInt64) (stack : CallStack)
  /-- The range is returned. -/
  | release (space : SpaceId) (start : Address) (size : UInt64)
  /-- The process range from `base` is backed by the range of `space` from `offset`. -/
  | map (space : SpaceId) (base : Address) (size : UInt64) (offset : Address) (tag : Tag)
      (stack : CallStack)
  /-- The mapping of the process range from `base` onto `space` is removed. -/
  | unmap (space : SpaceId) (base : Address) (size : UInt64)
  /-- The range is booked under another tag. -/
  | retag (space : SpaceId) (start : Address) (size : UInt64) (tag : Tag)
deriving DecidableEq, Repr

namespace Operation

/-- The space that the operation names. -/
def space : Operation → SpaceId
  | reserve space .. => space
  | commit space .. => space
  | uncommit space .. => space
  | release space .. => space
  | map space .. => space
  | unmap space .. => space
  | retag space .. => space

/-- The name of the kind of operation. -/
def kind : Operation → String
  | reserve .. => "reserve"
  | commit .. => "commit"
  | uncommit .. => "uncommit"
  | release .. => "release"
  | map .. => "map"
  | unmap .. => "unmap"
  | retag .. => "tag"

/-- The range that starts at `start` as printed: with its start and its length. -/
def rangeText (start : Address) (size : UInt64) : String :=
  "[" ++ Text.hex start ++ ", +" ++ Text.hex size ++ ")"

/-- The operation as printed in one line. -/
def text (op : Operation) : String :=
  match op with
  | reserve space start size tag _ | commit space start size tag _ | retag space start size tag =>
    " ".intercalate [op.kind, space.text, rangeText start size, tag.text]
  | uncommit space start size _ | release space start size =>
    " ".intercalate [op.kind, space.text, rangeText start size]
  | map space base size offset tag _ =>
    " ".intercalate
      [op.kind, rangeText base size, "onto", space.text, "at", Text.hex offset, tag.text]
  | unmap space base size =>
    " ".intercalate [op.kind, rangeText base size, "from", space.text]

end Operation

end RegionLedger
