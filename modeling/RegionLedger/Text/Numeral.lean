/-!
# Numerals and columns

How numbers and columns are written: hexadecimal with the mark `0x`, signed decimals with their sign
always shown, and text filled up with blanks.
-/

namespace RegionLedger.Text

/-- The hexadecimal numeral of `n` in lower case, marked `0x`. -/
def hex (n : UInt64) : String := "0x" ++ String.ofList (Nat.toDigits 16 n.toNat)

/-- The hexadecimal numeral of `n` with all sixteen digits, marked `0x`. -/
def hexWord (n : UInt64) : String :=
  let digits := Nat.toDigits 16 n.toNat
  "0x" ++ String.ofList (List.replicate (16 - digits.length) '0' ++ digits)

/-- The decimal numeral of `z`, with `+` before it unless it is negative. -/
def signed (z : Int) : String := if z < 0 then s!"{z}" else s!"+{z}"

/-- The text `s`, filled up with blanks on the right to `width` characters. -/
def padRight (width : Nat) (s : String) : String :=
  s ++ String.ofList (List.replicate (width - s.length) ' ')

/-- The text `s` after `n` blanks. -/
def indent (n : Nat) (s : String) : String := String.ofList (List.replicate n ' ') ++ s

end RegionLedger.Text
