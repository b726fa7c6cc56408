import RegionLedger.Config
import RegionLedger.Space.Basic
import RegionLedger.Space.Operation

/-!
# The ledger

All spaces of a process with the store of their call stacks.  An operation first stores its call
stack, then changes the maps of the space it acts on, and books the deltas into the totals of that
space.  Mappings are kept in the maps of the process.

Every operation returns its answer beside the ledger it leaves, since even a refused operation may
have stored its call stack.

* `Ledger` — the spaces, by number, and the call stacks.
* `Ledger.register` — adds a space.
* `Ledger.apply` — carries out an operation.
* `Ledger.findRegion?`, `Ledger.stateAt`, `Ledger.totals?`, `Ledger.tally?` — queries.
-/

namespace RegionLedger

/-- Why the ledger refused a call. -/
inductive LedgerError where
  /-- The range was refused. -/
  | region (cause : RegionError)
  /-- The call stack could not be stored. -/
  | stack (cause : StackStoreError)
  /-- There is no such space. -/
  | unknownSpace (space : SpaceId)
  /-- The process was named as the space behind a mapping. -/
  | selfMapping
  /-- Every space number is in use. -/
  | tooManySpaces (name : String)
deriving DecidableEq, Repr

/-- The wording of a ledger error. -/
def LedgerError.message : LedgerError → String
  | region cause => cause.message
  | stack cause => cause.message
  | unknownSpace space => "unknown memory space " ++ space.text
  | selfMapping => "the process space cannot be mapped into itself"
  | tooManySpaces name => s!"cannot register space '{name}': too many memory spaces"

/-- The spaces of a process and their call stacks. -/
structure Ledger where
  /-- The spaces, each at the place of its number; the process comes first. -/
  spaces : Array Space
  /-- The call stacks. -/
  callStacks : StackStore
  /-- The seed that the spaces derive theirs from. -/
  seed : UInt64

/-- A process region around an address, with its call site. -/
structure RegionLookup where
  /-- The run around the address. -/
  run : Run Placement
  /-- The call site recorded for the run. -/
  stack : CallStack

namespace Ledger

/-- The name of the process's space. -/
def processName : String := "process"

/-- The ledger that knows only the process. -/
def create (config : Config) : Ledger where
  spaces := #[.create .process processName config.seed]
  callStacks := .empty config.isDetailed config.clampedSlots
  seed := config.seed

/-- The number of spaces, the process included. -/
def size (v : Ledger) : Nat := v.spaces.size

/-- The space of a number. -/
def space? (v : Ledger) (id : SpaceId) : Option Space := v.spaces[id.raw.toNat]?

/-- The spaces with their numbers, in order. -/
def toList (v : Ledger) : List (SpaceId × Space) :=
  v.spaces.toList.zipIdx.map fun (space, i) => (⟨UInt32.ofNat i⟩, space)

/-- Adds a space under the next number.  Names need not differ. -/
def register (v : Ledger) (name : String) : Except LedgerError (SpaceId × Ledger) :=
  if v.spaces.size < UInt32.size then
    let id : SpaceId := ⟨UInt32.ofNat v.spaces.size⟩
    .ok (id, { v with spaces := v.spaces.push (.create id name v.seed) })
  else .error (.tooManySpaces name)

/-! ## Operations -/

/-- Carries out an operation on one space. -/
def onSpace (v : Ledger) (id : SpaceId) (f : Space → Except RegionError Deltas × Space) :
    Except LedgerError Deltas × Ledger :=
  match v.space? id with
  | none => (.error (.unknownSpace id), v)
  | some space =>
    let (answer, space) := f space
    (answer.mapError .region, { v with spaces := v.spaces.setIfInBounds id.raw.toNat space })

/-- Stores a call stack and goes on with its reference. -/
def withStack (v : Ledger) (stack : CallStack)
    (f : StackRef → Ledger → Except LedgerError Deltas × Ledger) :
    Except LedgerError Deltas × Ledger :=
  match v.callStacks.push stack with
  | .error e => (.error (.stack e), v)
  | .ok (ref, callStacks) => f ref { v with callStacks }

/-- Goes on only if the space is known. -/
def ifKnown (v : Ledger) (id : SpaceId) (f : Except LedgerError Deltas × Ledger) :
    Except LedgerError Deltas × Ledger :=
  match v.space? id with
  | none => (.error (.unknownSpace id), v)
  | some _ => f

/-- Reserves a range of a space. -/
def reserve (v : Ledger) (id : SpaceId) (start : Address) (size : UInt64) (tag : Tag)
    (stack : CallStack) : Except LedgerError Deltas × Ledger :=
  v.ifKnown id <| v.withStack stack fun ref v =>
    v.onSpace id (·.reserve start size { stack := ref, tag })

/-- Commits a range of a space. -/
def commit (v : Ledger) (id : SpaceId) (start : Address) (size : UInt64) (tag : Tag)
    (stack : CallStack) : Except LedgerError Deltas × Ledger :=
  v.ifKnown id <| v.withStack stack fun ref v => v.onSpace id (·.commit start size ref tag)

/-- Takes the backing from a range of a space.  Only the process keeps the call site, since the
commits of another space leave nothing behind that could carry it. -/
def uncommit (v : Ledger) (id : SpaceId) (start : Address) (size : UInt64) (stack : CallStack) :
    Except LedgerError Deltas × Ledger :=
  if id.isProcess then
    v.ifKnown id <| v.withStack stack fun ref v => v.onSpace id (·.uncommit start size ref)
  else v.onSpace id (·.uncommit start size {})

/-- Releases a range of a space. -/
def release (v : Ledger) (id : SpaceId) (start : Address) (size : UInt64) :
    Except LedgerError Deltas × Ledger :=
  v.onSpace id (·.release start size)

/-- Reserves the process range from `base`, backed by the range of a space from `offset`. -/
def map (v : Ledger) (id : SpaceId) (base : Address) (size : UInt64) (offset : Address) (tag : Tag)
    (stack : CallStack) : Except LedgerError Deltas × Ledger :=
  if id.isProcess then (.error .selfMapping, v)
  else
    v.ifKnown id <|
      if (endOf? offset size).isNone then (.error (.region (.invalidRange offset size)), v)
      else
        v.withStack stack fun ref v =>
          v.onSpace .process
            (·.reserve base size { stack := ref, tag, mapping := some (.ofBase id base offset) })

/-- Releases the parts of the process range from `base` that are mapped onto a space. -/
def unmap (v : Ledger) (id : SpaceId) (base : Address) (size : UInt64) :
    Except LedgerError Deltas × Ledger :=
  if id.isProcess then (.error .selfMapping, v)
  else
    v.ifKnown id <|
      match endOf? base size with
      | none => (.error (.region (.invalidRange base size)), v)
      | some stop =>
        if size = 0 then (.error (.region (.invalidRange base size)), v)
        else v.onSpace .process (·.unmap id base stop)

/-- Books the tracked parts of a range of a space under another tag. -/
def retag (v : Ledger) (id : SpaceId) (start : Address) (size : UInt64) (tag : Tag) :
    Except LedgerError Deltas × Ledger :=
  v.onSpace id (·.retag start size tag)

/-- Carries out an operation. -/
def apply (v : Ledger) : Operation → Except LedgerError Deltas × Ledger
  | .reserve space start size tag stack => v.reserve space start size tag stack
  | .commit space start size tag stack => v.commit space start size tag stack
  | .uncommit space start size stack => v.uncommit space start size stack
  | .release space start size => v.release space start size
  | .map space base size offset tag stack => v.map space base size offset tag stack
  | .unmap space base size => v.unmap space base size
  | .retag space start size tag => v.retag space start size tag

/-! ## Queries -/

/-- The running totals of a space. -/
def totals? (v : Ledger) (id : SpaceId) : Except LedgerError Totals :=
  match v.space? id with
  | none => .error (.unknownSpace id)
  | some space => .ok space.totals

/-- The totals of a space counted afresh. -/
def tally? (v : Ledger) (id : SpaceId) : Except LedgerError Deltas :=
  match v.space? id with
  | none => .error (.unknownSpace id)
  | some space => space.tally.mapError (.region ∘ .overflow)

/-- The process region around an address. -/
def findRegion? (v : Ledger) (x : Address) : Option RegionLookup :=
  ((v.space? .process).bind (·.reserved.enclosing? x)).map fun run =>
    { run, stack := v.callStacks.get run.side.data.stack }

/-- The state of a byte of the process. -/
def stateAt (v : Ledger) (x : Address) : State :=
  match v.space? .process with
  | none => .released
  | some process => (process.reserved.sideAt x).state

end Ledger

end RegionLedger
