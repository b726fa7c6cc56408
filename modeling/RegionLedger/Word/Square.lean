/-!
# Squares of words

Sixteen 32-bit words in four rows of four, and the add-rotate-xor mixing that runs down the columns
of such a square and then down its diagonals.  Key stream and hash differ only in the direction in
which they rotate words and in the words they feed in.

* `Quad` — four words side by side, with word-by-word operations.
* `Square` — four rows.
* `Square.mixColumns`, `Square.slant`, `Square.round` — one round of mixing.
-/

namespace RegionLedger

/-- Four 32-bit words side by side. -/
structure Quad where
  /-- The first word. -/
  w₀ : UInt32
  /-- The second word. -/
  w₁ : UInt32
  /-- The third word. -/
  w₂ : UInt32
  /-- The fourth word. -/
  w₃ : UInt32
deriving DecidableEq, Repr

namespace Quad

/-- Four zeros. -/
def zero : Quad := ⟨0, 0, 0, 0⟩

/-- Applies `f` to each word. -/
def map (f : UInt32 → UInt32) (p : Quad) : Quad := ⟨f p.w₀, f p.w₁, f p.w₂, f p.w₃⟩

/-- Applies `f` to the words of two rows, place by place. -/
def zipWith (f : UInt32 → UInt32 → UInt32) (p q : Quad) : Quad :=
  ⟨f p.w₀ q.w₀, f p.w₁ q.w₁, f p.w₂ q.w₂, f p.w₃ q.w₃⟩

/-- Sums, place by place. -/
def add (p q : Quad) : Quad := p.zipWith (· + ·) q

/-- Exclusive disjunctions, place by place. -/
def xor (p q : Quad) : Quad := p.zipWith (· ^^^ ·) q

/-- Rotates each word left by `n` bits, for `0 < n < 32`. -/
def rotateLeft (p : Quad) (n : UInt32) : Quad := p.map fun x => (x <<< n) ||| (x >>> (32 - n))

/-- Rotates each word right by `n` bits, for `0 < n < 32`. -/
def rotateRight (p : Quad) (n : UInt32) : Quad := p.map fun x => (x >>> n) ||| (x <<< (32 - n))

/-- Moves each word one place to the front, the first one to the end. -/
def turn (p : Quad) : Quad := ⟨p.w₁, p.w₂, p.w₃, p.w₀⟩

/-- The words at the first and third places of two rows. -/
def evens (p q : Quad) : Quad := ⟨p.w₀, p.w₂, q.w₀, q.w₂⟩

/-- The words at the second and fourth places of two rows. -/
def odds (p q : Quad) : Quad := ⟨p.w₁, p.w₃, q.w₁, q.w₃⟩

/-- Two words as one of 64 bits, the first one low. -/
def join (low high : UInt32) : UInt64 := low.toUInt64 ||| (high.toUInt64 <<< 32)

/-- The first two words as one of 64 bits. -/
def firstPair (p : Quad) : UInt64 := join p.w₀ p.w₁

/-- The last two words as one of 64 bits. -/
def lastPair (p : Quad) : UInt64 := join p.w₂ p.w₃

end Quad

/-- Sixteen words in four rows. -/
structure Square where
  /-- The first row. -/
  a : Quad
  /-- The second row. -/
  b : Quad
  /-- The third row. -/
  c : Quad
  /-- The fourth row. -/
  d : Quad
deriving DecidableEq, Repr

namespace Square

/-- A way to rotate the words of a row by a number of bits. -/
abbrev Rotation := Quad → UInt32 → Quad

/-- Mixes each column, feeding in the words of `x` and then those of `y`. -/
def mixColumns (rotate : Rotation) (s : Square) (x y : Quad) : Square :=
  let a := (s.a.add s.b).add x
  let d := rotate (s.d.xor a) 16
  let c := s.c.add d
  let b := rotate (s.b.xor c) 12
  let a := (a.add b).add y
  let d := rotate (d.xor a) 8
  let c := c.add d
  let b := rotate (b.xor c) 7
  { a, b, c, d }

/-- Moves the diagonals into the columns. -/
def slant (s : Square) : Square :=
  { s with b := s.b.turn, c := s.c.turn.turn, d := s.d.turn.turn.turn }

/-- Moves the columns back into the diagonals. -/
def unslant (s : Square) : Square :=
  { s with b := s.b.turn.turn.turn, c := s.c.turn.turn, d := s.d.turn }

/-- One round: the columns, fed with `x` and `y`, then the diagonals, fed with `x'` and `y'`. -/
def round (rotate : Rotation) (s : Square) (x y x' y' : Quad) : Square :=
  ((s.mixColumns rotate x y).slant.mixColumns rotate x' y').unslant

/-- Sums, place by place. -/
def add (s t : Square) : Square :=
  { a := s.a.add t.a, b := s.b.add t.b, c := s.c.add t.c, d := s.d.add t.d }

/-- The sixteen words as eight of 64 bits. -/
def doubles (s : Square) : List UInt64 :=
  [s.a.firstPair, s.a.lastPair, s.b.firstPair, s.b.lastPair,
    s.c.firstPair, s.c.lastPair, s.d.firstPair, s.d.lastPair]

end Square

end RegionLedger
