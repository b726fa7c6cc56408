import RegionLedger.Word.Square

/-!
# ChaCha key stream

The ChaCha block function with a configurable number of double rounds.  A block starts from a square
of sixteen words: four constants, eight key words, a 64-bit block counter and a 64-bit stream number,
which is zero here.

* `Key` — eight words of key.
* `block` — one block of the key stream.
* `word64` — the key stream read as 64-bit words, each made of two 32-bit words, low word first.
-/

namespace RegionLedger.ChaCha

/-- A 256-bit key as eight words. -/
structure Key where
  /-- The first four words. -/
  front : Quad
  /-- The last four words. -/
  back : Quad
deriving DecidableEq, Repr

/-- A double round: the four columns, then the four diagonals, with nothing fed in. -/
def doubleRound (s : Square) : Square :=
  s.round Quad.rotateLeft Quad.zero Quad.zero Quad.zero Quad.zero

/-- Applies `n` double rounds. -/
def rounds : Nat → Square → Square
  | 0, s => s
  | n + 1, s => rounds n (doubleRound s)

/-- The square of block number `counter` before mixing. -/
def initial (key : Key) (counter : Nat) : Square where
  a := ⟨0x61707865, 0x3320646e, 0x79622d32, 0x6b206574⟩
  b := key.front
  c := key.back
  d := ⟨UInt32.ofNat counter, UInt32.ofNat (counter / UInt32.size), 0, 0⟩

/-- Block number `counter` of the key stream, with `n` double rounds. -/
def block (n : Nat) (key : Key) (counter : Nat) : Square :=
  let s := initial key counter
  s.add (rounds n s)

/-- Word `i` of the key stream in 64-bit words, of which a block holds eight. -/
def word64 (n : Nat) (key : Key) (i : Nat) : UInt64 := (block n key (i / 8)).doubles.getD (i % 8) 0

end RegionLedger.ChaCha
