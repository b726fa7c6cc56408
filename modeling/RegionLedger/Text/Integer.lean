/-!
# Reading unsigned words

A number is read digit by digit, so of two faults the one further left is reported.

* `Radix` — decimal or hexadecimal.
* `IntegerError` — why a text is no number.
* `readWord` — an optional `+` and at least one digit, with a value below `2 ^ 64`.
-/

namespace RegionLedger.Text

/-- The base of a numeral. -/
inductive Radix where
  /-- Digits `0` to `9`. -/
  | decimal
  /-- Digits `0` to `9` and `a` to `f` in either case. -/
  | hexadecimal
deriving DecidableEq, Repr

/-- The value of the base. -/
def Radix.base : Radix → Nat
  | decimal => 10
  | hexadecimal => 16

/-- Why a text is no number. -/
inductive IntegerError where
  /-- There is nothing to read. -/
  | empty
  /-- A character is not a digit of the base. -/
  | invalidDigit
  /-- The number does not fit into a word. -/
  | tooLarge
deriving DecidableEq, Repr

/-- The wording of a reading error. -/
def IntegerError.message : IntegerError → String
  | empty => "cannot parse integer from empty string"
  | invalidDigit => "invalid digit found in string"
  | tooLarge => "number too large to fit in target type"

/-- The value of a digit. -/
def Radix.digit? (radix : Radix) (c : Char) : Option Nat :=
  if '0' ≤ c ∧ c ≤ '9' then some (c.toNat - '0'.toNat)
  else
    match radix with
    | .decimal => none
    | .hexadecimal =>
      if 'a' ≤ c ∧ c ≤ 'f' then some (c.toNat - 'a'.toNat + 10)
      else if 'A' ≤ c ∧ c ≤ 'F' then some (c.toNat - 'A'.toNat + 10)
      else none

/-- Appends digits to the number `n`. -/
def readDigits (radix : Radix) (n : Nat) : List Char → Except IntegerError Nat
  | [] => .ok n
  | c :: rest =>
    match radix.digit? c with
    | none => .error .invalidDigit
    | some d =>
      let n := n * radix.base + d
      if n < UInt64.size then readDigits radix n rest else .error .tooLarge

/-- Reads a word: an optional `+`, then at least one digit.  A sign alone is an invalid digit. -/
def readWord (radix : Radix) (cs : List Char) : Except IntegerError UInt64 :=
  match cs with
  | [] => .error .empty
  | ['+'] => .error .invalidDigit
  | '+' :: digits => (readDigits radix 0 digits).map UInt64.ofNat
  | digits => (readDigits radix 0 digits).map UInt64.ofNat

end RegionLedger.Text
