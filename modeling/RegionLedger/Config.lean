import RegionLedger.CallStack.Store
import RegionLedger.Random.Draws

/-!
# Configuration

How much is recorded, and the parameters that results do not depend on.

* `Level` — nothing, ranges and tags, or call stacks as well.
* `Config` — a level with a seed, the best-effort switch and the size of a stack chunk.
-/

namespace RegionLedger

/-- How much is recorded. -/
inductive Level where
  /-- Nothing. -/
  | off
  /-- Ranges and tags. -/
  | summary
  /-- Ranges, tags and call stacks. -/
  | detail
deriving DecidableEq, Repr

/-- Why a setting was refused. -/
inductive ConfigError where
  /-- There is no level of this name. -/
  | unknownLevel (name : String)
  /-- There is no scale of this name. -/
  | unknownScale (name : String)
  /-- A stack chunk cannot have this many slots. -/
  | invalidChunkSlots (slots : Nat)
deriving DecidableEq, Repr

/-- The wording of a configuration error. -/
def ConfigError.message : ConfigError → String
  | unknownLevel name => s!"unknown tracking level '{name}' (expected off, summary or detail)"
  | unknownScale name => s!"unknown scale '{name}' (expected b, k, m or g)"
  | invalidChunkSlots slots => s!"invalid stack chunk size {slots}: must be between 1 and 65536"

namespace Level

/-- The name of a level. -/
def name : Level → String
  | off => "off"
  | summary => "summary"
  | detail => "detail"

/-- The level of a name, in which ASCII letters may be of either case. -/
def ofName (name : String) : Except ConfigError Level :=
  match name.map Char.toLower with
  | "off" => .ok off
  | "summary" => .ok summary
  | "detail" => .ok detail
  | _ => .error (.unknownLevel name)

end Level

/-- The settings of a tracker. -/
structure Config where
  /-- How much is recorded. -/
  level : Level := .detail
  /-- The seed of the tree priorities. -/
  seed : UInt64 := defaultSeed
  /-- Whether an update is dropped, rather than waiting, while the tracker is busy. -/
  bestEffort : Bool := false
  /-- The number of slots in a chunk of the stack store. -/
  chunkSlots : Nat := StackStore.defaultWidth
deriving DecidableEq, Repr

namespace Config

/-- The same settings with chunks of `slots` slots. -/
def withChunkSlots (c : Config) (slots : Nat) : Except ConfigError Config :=
  if StackStore.allowsWidth slots then .ok { c with chunkSlots := slots }
  else .error (.invalidChunkSlots slots)

/-- Whether anything is recorded. -/
def isEnabled (c : Config) : Bool := c.level != .off

/-- Whether call stacks are kept. -/
def isDetailed (c : Config) : Bool := c.level == .detail

/-- The number of slots in a chunk, brought into the range of sizes a chunk can have. -/
def clampedSlots (c : Config) : Nat := max 1 (min c.chunkSlots StackStore.limit)

end Config

end RegionLedger
