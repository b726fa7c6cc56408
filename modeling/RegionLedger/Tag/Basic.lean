/-!
# Tags

A tag is the accounting bucket a memory region is booked under.  Only its number is stored with the
region; its name lives in a table of names.
-/

namespace RegionLedger

/-- An accounting bucket, by its 16-bit number. -/
structure Tag where
  /-- The number of the bucket. -/
  raw : UInt16
deriving DecidableEq, Repr

namespace Tag

/-- The bucket of memory without a tag; released memory always carries it. -/
def untagged : Tag := ⟨0⟩

instance : Inhabited Tag := ⟨untagged⟩

/-- The text for a tag without a name. -/
def text (t : Tag) : String := s!"tag#{t.raw}"

end Tag

end RegionLedger
