import RegionLedger.Tag.Basic
import Std.Data.TreeMap

/-!
# Tag names

A table that numbers names in the order in which they are first asked for.  Every table starts with
the name of untagged memory, so that name always has number zero.

* `TagNames` — the names by number, and the tags by name.
* `TagNames.intern` — the tag of a name, which is given one if it has none.
* `TagNames.tag?`, `TagNames.name?`, `TagNames.display` — look-ups.
-/

namespace RegionLedger

/-- Why a name could not be given a tag. -/
inductive TagError where
  /-- Every tag number has a name already. -/
  | exhausted (name : String)
deriving DecidableEq, Repr

/-- The wording of a tag error. -/
def TagError.message : TagError → String
  | exhausted name => s!"cannot register tag '{name}': all 65536 tag values are in use"

/-- A numbering of tag names. -/
structure TagNames where
  /-- The names, each at the place of its tag number. -/
  names : Array String
  /-- The tag of each name. -/
  tags : Std.TreeMap String Tag

namespace TagNames

/-- The name of untagged memory. -/
def untaggedName : String := "none"

/-- The table that holds the name of untagged memory only. -/
def initial : TagNames where
  names := #[untaggedName]
  tags := (∅ : Std.TreeMap String Tag).insert untaggedName Tag.untagged

/-- The number of named tags. -/
def size (t : TagNames) : Nat := t.names.size

/-- Whether no tag is named, which holds of no table that started from `initial`. -/
def isEmpty (t : TagNames) : Bool := t.names.isEmpty

/-- The tag of a name. -/
def tag? (t : TagNames) (name : String) : Option Tag := t.tags[name]?

/-- The name of a tag. -/
def name? (t : TagNames) (tag : Tag) : Option String := t.names[tag.raw.toNat]?

/-- The name of a tag, or its number where it has none. -/
def display (t : TagNames) (tag : Tag) : String := (t.name? tag).getD tag.text

/-- The tag of a name; a new name takes the next number, as long as there is one.  A refused name
leaves the table as it was. -/
def intern (t : TagNames) (name : String) : Except TagError Tag × TagNames :=
  match t.tags[name]? with
  | some tag => (.ok tag, t)
  | none =>
    if t.names.size < UInt16.size then
      let tag : Tag := ⟨UInt16.ofNat t.names.size⟩
      (.ok tag, { names := t.names.push name, tags := t.tags.insert name tag })
    else (.error (.exhausted name), t)

end TagNames

end RegionLedger
