/-!
# Blanks, words and lines

Blanks are the characters with the Unicode property White_Space.  A text splits at blanks into words
and at line feeds into lines.

* `isBlank` — the property.
* `words` — the words of a text.
* `lines` — the lines of a text.
-/

namespace RegionLedger.Text

/-- Whether a character has the Unicode property White_Space. -/
def isBlank (c : Char) : Bool :=
  let n := c.toNat
  (0x9 ≤ n && n ≤ 0xd) || n == 0x20 || n == 0x85 || n == 0xa0 || n == 0x1680
    || (0x2000 ≤ n && n ≤ 0x200a) || n == 0x2028 || n == 0x2029 || n == 0x202f || n == 0x205f
    || n == 0x3000

/-- The text split before each character with the property `p`, that character left out.  There is
one piece more than there are such characters. -/
def splitAt (p : Char → Bool) : List Char → List (List Char)
  | [] => [[]]
  | c :: rest =>
    if p c then [] :: splitAt p rest
    else
      match splitAt p rest with
      | [] => [[c]]
      | piece :: pieces => (c :: piece) :: pieces

/-- The words of a text: its longest stretches without a blank. -/
def words (cs : List Char) : List (List Char) := (splitAt isBlank cs).filter fun w => !w.isEmpty

/-- A line without the carriage return at its end, if it has one. -/
def trimReturn (line : List Char) : List Char :=
  if line.getLast? = some '\r' then line.dropLast else line

/-- The lines in pieces between line feeds.  Each piece but the last one is a line, which a carriage
return may end; the last piece is a line only if it is not empty, and keeps what it holds. -/
def linesOfPieces : List (List Char) → List (List Char)
  | [] => []
  | [last] => if last.isEmpty then [] else [last]
  | line :: rest => trimReturn line :: linesOfPieces rest

/-- The lines of a text.  The line feed at the very end starts no further line. -/
def lines (cs : List Char) : List (List Char) := linesOfPieces (splitAt (· == '\n') cs)

end RegionLedger.Text
