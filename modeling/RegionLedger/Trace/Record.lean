import RegionLedger.Text.Blank
import RegionLedger.Text.Integer
import RegionLedger.Word

/-!
# Traces

A trace is a text with one operation a line.  Spaces and tags go by name, numbers are decimal or
hexadecimal, and the numbers at the end of a line are the frames of a call stack:

```
# comment
space    gpu
reserve  process 0x10000 0x4000 heap 0x4010 0x4200
commit   process 0x10000 0x1000 heap
uncommit process 0x10000 0x1000
map      gpu 0x80000 0x2000 0x0 textures
unmap    gpu 0x80000 0x2000
tag      process 0x10000 0x1000 code
release  process 0x10000 0x4000
```

* `Record` — what one line says, names not yet resolved.
* `Trace.readLine` — reads a line; blank lines and comments hold no record.
* `Trace.read` — reads a trace.
-/

namespace RegionLedger

/-- What one line of a trace says. -/
inductive Record where
  /-- A space is registered. -/
  | space (name : String)
  /-- A range is reserved. -/
  | reserve (space : String) (start : Address) (size : UInt64) (tag : String)
      (frames : List Address)
  /-- A range is committed. -/
  | commit (space : String) (start : Address) (size : UInt64) (tag : String)
      (frames : List Address)
  /-- A range is uncommitted. -/
  | uncommit (space : String) (start : Address) (size : UInt64) (frames : List Address)
  /-- A range is released. -/
  | release (space : String) (start : Address) (size : UInt64)
  /-- A process range is mapped onto a space. -/
  | map (space : String) (base : Address) (size : UInt64) (offset : Address) (tag : String)
      (frames : List Address)
  /-- A mapping is removed. -/
  | unmap (space : String) (base : Address) (size : UInt64)
  /-- A range gets another tag. -/
  | retag (space : String) (start : Address) (size : UInt64) (tag : String)
deriving DecidableEq, Repr

/-- A word that is no number, with the reason. -/
structure NumberError where
  /-- The word as it stands in the line. -/
  word : String
  /-- The reason. -/
  cause : Text.IntegerError
deriving DecidableEq, Repr

/-- Why a line is no record. -/
inductive LineError where
  /-- The line ends before this field. -/
  | missing (field : String)
  /-- This field is no number. -/
  | badNumber (field : String) (cause : NumberError)
  /-- A frame is no number. -/
  | badFrame (cause : NumberError)
  /-- There is a word after the last field. -/
  | trailing (word : String)
  /-- There is no such operation. -/
  | unknownOperation (word : String)
deriving DecidableEq, Repr

/-- The wordings of a number error, the outermost first. -/
def NumberError.chain (e : NumberError) : List String :=
  let word := e.word
  [s!"invalid number '{word}'", e.cause.message]

/-- The wordings of a line error, the outermost first. -/
def LineError.chain : LineError → List String
  | missing field => [s!"missing {field}"]
  | badNumber field cause => s!"bad {field}" :: cause.chain
  | badFrame cause => cause.chain
  | trailing word => [s!"unexpected trailing field '{word}'"]
  | unknownOperation word => [s!"unknown operation '{word}'"]

/-- The first line of a trace that is no record, with the reason. -/
structure TraceError where
  /-- The number of the line, counted from one. -/
  line : Nat
  /-- The reason. -/
  cause : LineError
deriving DecidableEq, Repr

/-- The wordings of a trace error, the outermost first. -/
def TraceError.chain (e : TraceError) : List String :=
  let line := e.line
  s!"trace line {line}" :: e.cause.chain

namespace Trace

/-! ## Fields -/

/-- Reads a number.  Underscores are left out, then `0x` or `0X` marks the hexadecimal ones. -/
def number (word : List Char) : Except NumberError UInt64 :=
  let value :=
    match word.filter (· != '_') with
    | '0' :: 'x' :: digits => Text.readWord .hexadecimal digits
    | '0' :: 'X' :: digits => Text.readWord .hexadecimal digits
    | digits => Text.readWord .decimal digits
  value.mapError fun cause => { word := String.ofList word, cause }

/-- Takes a word off the front. -/
def takeWord (field : String) : List (List Char) → Except LineError (String × List (List Char))
  | [] => .error (.missing field)
  | word :: rest => .ok (String.ofList word, rest)

/-- Takes a number off the front. -/
def takeNumber (field : String) : List (List Char) → Except LineError (UInt64 × List (List Char))
  | [] => .error (.missing field)
  | word :: rest =>
    match number word with
    | .ok n => .ok (n, rest)
    | .error e => .error (.badNumber field e)

/-- Reads all words as frames. -/
def frames : List (List Char) → Except LineError (List Address)
  | [] => .ok []
  | word :: rest =>
    match number word with
    | .error e => .error (.badFrame e)
    | .ok n => (frames rest).map (n :: ·)

/-- Refuses any further word. -/
def finish : List (List Char) → Except LineError Unit
  | [] => .ok ()
  | word :: _ => .error (.trailing (String.ofList word))

/-- Takes the fields that name a range: the space, the address and the size. -/
def takeRange (words : List (List Char)) :
    Except LineError ((String × UInt64 × UInt64) × List (List Char)) := do
  let (space, words) ← takeWord "space" words
  let (start, words) ← takeNumber "address" words
  let (size, words) ← takeNumber "size" words
  return ((space, start, size), words)

/-! ## Lines -/

/-- The part of a line before the first `#`. -/
def stripComment (line : List Char) : List Char := line.takeWhile (· != '#')

/-- Reads the fields after the name of the operation. -/
def readFields (operation : String) (words : List (List Char)) : Except LineError Record := do
  match operation with
  | "space" =>
    let (name, words) ← takeWord "space name" words
    finish words
    return .space name
  | "reserve" =>
    let ((space, start, size), words) ← takeRange words
    let (tag, words) ← takeWord "tag" words
    return .reserve space start size tag (← frames words)
  | "commit" =>
    let ((space, start, size), words) ← takeRange words
    let (tag, words) ← takeWord "tag" words
    return .commit space start size tag (← frames words)
  | "uncommit" =>
    let ((space, start, size), words) ← takeRange words
    return .uncommit space start size (← frames words)
  | "release" =>
    let ((space, start, size), words) ← takeRange words
    finish words
    return .release space start size
  | "unmap" =>
    let ((space, base, size), words) ← takeRange words
    finish words
    return .unmap space base size
  | "map" =>
    let ((space, base, size), words) ← takeRange words
    let (offset, words) ← takeNumber "offset" words
    let (tag, words) ← takeWord "tag" words
    return .map space base size offset tag (← frames words)
  | "tag" =>
    let ((space, start, size), words) ← takeRange words
    let (tag, words) ← takeWord "tag" words
    finish words
    return .retag space start size tag
  | other => throw (.unknownOperation other)

/-- Reads a line.  A line without words before its comment holds no record. -/
def readLine (line : List Char) : Except LineError (Option Record) :=
  match Text.words (stripComment line) with
  | [] => .ok none
  | operation :: words => (readFields (String.ofList operation) words).map some

/-- Reads lines, the first of which has the number `n`.  The first line that is no record ends it. -/
def readLines (n : Nat) : List (List Char) → Except TraceError (List Record)
  | [] => .ok []
  | line :: rest =>
    match readLine line with
    | .error cause => .error { line := n, cause }
    | .ok record => (readLines (n + 1) rest).map (record.toList ++ ·)

/-- Reads a trace. -/
def read (text : String) : Except TraceError (List Record) := readLines 1 (Text.lines text.toList)

end Trace

end RegionLedger
