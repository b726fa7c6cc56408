import RegionLedger.Word
import RegionLedger.Hash.Blake3
import RegionLedger.Text.Numeral

/-!
# Call stacks

A call stack is the list of return addresses captured at a call site, innermost first.

* `CallStack` — the frames of a call site.
* `CallStack.fingerprint` — a 64-bit digest of the frames, used to spread stacks over slots.
* `CallStack.lines` — the stack as printed, one frame a line.
-/

namespace RegionLedger

/-- A captured call stack: return addresses, innermost first. -/
structure CallStack where
  /-- The frames, innermost first. -/
  frames : List Address := []
deriving DecidableEq, Repr

namespace CallStack

/-- The stack without frames. -/
def empty : CallStack := {}

/-- Whether no frame was captured. -/
def isEmpty (s : CallStack) : Bool := s.frames.isEmpty

/-- The eight bytes of a word, lowest first. -/
def littleEndian (w : UInt64) : List UInt8 :=
  (List.range 8).map fun i => (w >>> UInt64.ofNat (8 * i)).toUInt8

/-- The digest of the frames: the first eight bytes of the hash of their bytes, lowest first. -/
def fingerprint (s : CallStack) : UInt64 :=
  (Blake3.hash (s.frames.flatMap littleEndian)).front.firstPair

/-- The stack as printed: one line a frame, and a line of its own for the empty stack. -/
def lines (s : CallStack) : List String :=
  match s.frames with
  | [] => ["[no stack]"]
  | frames => frames.map fun frame => "[" ++ Text.hexWord frame ++ "]"

/-- The lines of the stack as one text. -/
def text (s : CallStack) : String := String.join (s.lines.map (· ++ "\n"))

end CallStack

end RegionLedger
