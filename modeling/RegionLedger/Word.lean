/-!
# Words, saturation and overflow

Addresses and byte counts are unsigned 64-bit words, byte deltas are signed 64-bit words.  Sums of
byte counts do not wrap: they go through the integers, and where the integer is no word they either
come back with the nearest word or stop the program.

* `Address` — an address, and also a length in bytes.
* `nearestSigned`, `nearestUnsigned` — the word nearest to an integer.
* `Overflow`, `addSigned`, `subtractSigned`, `addUnsigned` — sums and differences that stop.
* `maxSpan` — the longest range whose length is still a signed word.
-/

namespace RegionLedger

/-- A byte address in some memory space. -/
abbrev Address := UInt64

/-- The longest range one operation may cover, since deltas are signed words: `2 ^ 63 - 1`. -/
def maxSpan : UInt64 := 0x7fffffffffffffff

/-- The signed word nearest to `z`: numbers beyond either end go to that end. -/
def nearestSigned (z : Int) : Int64 :=
  if z < Int64.minValue.toInt then Int64.minValue
  else if Int64.maxValue.toInt < z then Int64.maxValue
  else Int64.ofInt z

/-- The unsigned word nearest to `z`: numbers beyond either end go to that end. -/
def nearestUnsigned (z : Int) : UInt64 :=
  if z < 0 then 0
  else if z < UInt64.size then UInt64.ofNat z.toNat
  else 0xffffffffffffffff

theorem toInt_nearestSigned (z : Int) :
    (nearestSigned z).toInt = max Int64.minValue.toInt (min z Int64.maxValue.toInt) := by
  have low : Int64.minValue.toInt = -9223372036854775808 := by decide
  have high : Int64.maxValue.toInt = 9223372036854775807 := by decide
  unfold nearestSigned
  split
  · omega
  · split
    · omega
    · rw [Int64.toInt_ofInt_of_le (by omega) (by omega)]; omega

theorem toNat_nearestUnsigned (z : Int) :
    ((nearestUnsigned z).toNat : Int) = max 0 (min z (UInt64.size - 1)) := by
  unfold nearestUnsigned
  split
  · rw [show (0 : UInt64).toNat = 0 by decide]; omega
  · split
    · rw [UInt64.toNat_ofNat_of_lt' (by omega)]; omega
    · rw [show (0xffffffffffffffff : UInt64).toNat = UInt64.size - 1 by decide]; omega

/-- The length `n` as a signed word; lengths above `maxSpan` become `maxSpan`. -/
def span (n : UInt64) : Int64 := nearestSigned n.toNat

/-- Signed sum that stops at the ends of the range of signed words. -/
def addSaturating (x y : Int64) : Int64 := nearestSigned (x.toInt + y.toInt)

/-- Moves the unsigned count `n` by `d`, stopping at zero and at the largest word. -/
def shiftSaturating (n : UInt64) (d : Int64) : UInt64 := nearestUnsigned (n.toNat + d.toInt)

/-- A sum or a difference that is no word.  There is no answer then: the program stops. -/
inductive Overflow where
  /-- It was a sum. -/
  | add
  /-- It was a difference. -/
  | subtract
deriving DecidableEq, Repr

/-- The words that the program stops with. -/
def Overflow.message : Overflow → String
  | add => "attempt to add with overflow"
  | subtract => "attempt to subtract with overflow"

/-- The integer `z` as a signed word, if it is one. -/
def signedOr (overflow : Overflow) (z : Int) : Except Overflow Int64 :=
  if Int64.minValue.toInt ≤ z ∧ z ≤ Int64.maxValue.toInt then .ok (Int64.ofInt z)
  else .error overflow

/-- The sum of two signed words. -/
def addSigned (x y : Int64) : Except Overflow Int64 := signedOr .add (x.toInt + y.toInt)

/-- The difference of two signed words. -/
def subtractSigned (x y : Int64) : Except Overflow Int64 := signedOr .subtract (x.toInt - y.toInt)

/-- The sum of two unsigned words. -/
def addUnsigned (x y : UInt64) : Except Overflow UInt64 :=
  if x.toNat + y.toNat < UInt64.size then .ok (x + y) else .error .add

/-- The end of the `size` bytes from `start`, unless it lies beyond the last address. -/
def endOf? (start size : UInt64) : Option Address :=
  if start.toNat + size.toNat < UInt64.size then some (start + size) else none

end RegionLedger
