import RegionLedger.Random.ChaCha

/-!
# Priority draws

Priorities of tree nodes come from a stream of 64-bit draws.  What the tree does is stated for
any stream; the stream in use is the ChaCha key stream with six double rounds, under a key that a
permuted congruential generator expands from a 64-bit seed.

* `Draws` — an infinite stream of 64-bit draws, by position.
* `Draws.ofSeed` — the stream of a seed.
* `defaultSeed` — the seed used where none is given.
-/

namespace RegionLedger

/-- An infinite stream of 64-bit draws: `draws n` is draw number `n`, counted from zero. -/
abbrev Draws := Nat → UInt64

/-- The seed used where none is given. -/
def defaultSeed : UInt64 := 1234

namespace Seed

/-- One step of the linear congruential generator behind the key expansion. -/
def step (state : UInt64) : UInt64 := state * 6364136223846793005 + 11634580027462260723

/-- The output for a state: a xorshift of the high bits, rotated right by the top five bits. -/
def output (state : UInt64) : UInt32 :=
  let folded := (((state >>> 18) ^^^ state) >>> 27).toUInt32
  let turn := (state >>> 59).toUInt32
  if turn = 0 then folded else (folded >>> turn) ||| (folded <<< (32 - turn))

/-- The key of a seed: the outputs of its first eight states, the seed itself not among them. -/
def key (seed : UInt64) : ChaCha.Key :=
  let s₁ := step seed
  let s₂ := step s₁
  let s₃ := step s₂
  let s₄ := step s₃
  let s₅ := step s₄
  let s₆ := step s₅
  let s₇ := step s₆
  let s₈ := step s₇
  { front := ⟨output s₁, output s₂, output s₃, output s₄⟩
    back := ⟨output s₅, output s₆, output s₇, output s₈⟩ }

end Seed

/-- The stream of a seed: the 64-bit words of its key stream. -/
def Draws.ofSeed (seed : UInt64) : Draws :=
  ChaCha.word64 6 (Seed.key seed)

end RegionLedger
