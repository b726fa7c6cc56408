import RegionLedger.Config
import RegionLedger.Word
import RegionLedger.Text.Numeral

/-!
# Scales

The unit that amounts are printed in.  An amount is rounded to the nearest number of units, halves
up; a signed amount is rounded by its magnitude.
-/

namespace RegionLedger

/-- A unit of memory. -/
inductive Scale where
  /-- One byte. -/
  | bytes
  /-- 1024 bytes. -/
  | kilo
  /-- 1024 kilobytes. -/
  | mega
  /-- 1024 megabytes. -/
  | giga
deriving DecidableEq, Repr

namespace Scale

/-- The number of bytes in a unit. -/
def divisor : Scale → UInt64
  | bytes => 1
  | kilo => 1024
  | mega => 1048576
  | giga => 1073741824

/-- The name of the unit. -/
def unit : Scale → String
  | bytes => "B"
  | kilo => "KB"
  | mega => "MB"
  | giga => "GB"

/-- The scale of a name, in which ASCII letters may be of either case. -/
def ofName (name : String) : Except ConfigError Scale :=
  match name.map Char.toLower with
  | "b" | "bytes" => .ok bytes
  | "k" | "kb" | "kib" => .ok kilo
  | "m" | "mb" | "mib" => .ok mega
  | "g" | "gb" | "gib" => .ok giga
  | _ => .error (.unknownScale name)

/-- The number of units nearest to `n` bytes, halves up.  Adding half a unit stops at the largest
word. -/
def amount (s : Scale) (n : UInt64) : UInt64 :=
  nearestUnsigned (n.toNat + (s.divisor / 2).toNat) / s.divisor

/-- The number of units nearest to `d` bytes, rounded by magnitude. -/
def signedAmount (s : Scale) (d : Int64) : Int64 :=
  let magnitude := span (s.amount (UInt64.ofNat d.toInt.natAbs))
  if d < 0 then -magnitude else magnitude

/-- An amount as printed. -/
def format (s : Scale) (n : UInt64) : String := s!"{s.amount n}" ++ s.unit

/-- A signed amount as printed, always with its sign. -/
def formatSigned (s : Scale) (d : Int64) : String := Text.signed (s.signedAmount d).toInt ++ s.unit

end Scale

end RegionLedger
