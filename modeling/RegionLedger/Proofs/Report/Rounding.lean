import Mathlib.Algebra.Order.Round
import Mathlib.Data.Rat.Floor
import Mathlib.Tactic.FieldSimp
import Mathlib.Tactic.Ring
import RegionLedger.Proofs.Accounting.Amounts
import RegionLedger.Report.Scale

/-!
# Amounts are rounded

An amount is the integer nearest to the quotient of its bytes by the unit, and of two nearest ones the
upper.  Half a unit is added to the bytes before the division, and this sum stops at the largest word.
So the amount falls short by one in the last half unit before `2 ^ 64`, and nowhere else.  A magnitude
of signed bytes never comes there.

* `round_div` — rounding a quotient is a division of integers.
* `Scale.toNat_amount` — the amount as a division that stops.
* `Scale.amount_of_lt`, `Scale.amount_of_le` — the two cases.
* `Scale.toInt_signedAmount` — a signed amount has the sign of its bytes.
* `Scale.amounts_rounded` — all of it, for every scale and every word.
-/

namespace RegionLedger

/-- **Rounding a quotient**, halves up, is dividing twice the numerator and the divisor by twice the
divisor. -/
lemma round_div (n d : ℕ) (hd : 0 < d) :
    round ((n : ℚ) / d) = ((2 * n + d) / (2 * d) : ℕ) := by
  have hd' : (d : ℚ) ≠ 0 := by exact_mod_cast hd.ne'
  have hhalf : (n : ℚ) / d + 1 / 2 = ((2 * n + d : ℕ) : ℚ) / ((2 * d : ℕ) : ℚ) := by
    push_cast
    field_simp
  rw [round_eq, hhalf, Rat.floor_natCast_div_natCast]
  norm_cast

namespace Scale

/-- A unit is a byte, or it is a power of two up to `2 ^ 30`. -/
lemma toNat_divisor (s : Scale) :
    s.divisor.toNat = 1 ∨ s.divisor.toNat = 2 ^ 10 ∨ s.divisor.toNat = 2 ^ 20 ∨
      s.divisor.toNat = 2 ^ 30 := by
  cases s <;> decide

lemma toNat_amount (s : Scale) (n : UInt64) :
    (s.amount n).toNat =
      min (n.toNat + s.divisor.toNat / 2) (2 ^ 64 - 1) / s.divisor.toNat := by
  have hsum : (nearestUnsigned (n.toNat + (s.divisor / 2).toNat)).toNat =
      min (n.toNat + s.divisor.toNat / 2) (2 ^ 64 - 1) := by
    have hclamp := toNat_nearestUnsigned (n.toNat + (s.divisor / 2).toNat)
    simp only [UInt64.toNat_div, UInt64.size, UInt64.reduceToNat] at hclamp ⊢
    omega
  rw [amount, UInt64.toNat_div, hsum]

/-- **In front of the last half unit** an amount is rounded. -/
lemma amount_of_lt (s : Scale) {n : UInt64} (h : n.toNat + s.divisor.toNat / 2 < 2 ^ 64) :
    (s.amount n).toNat = (2 * n.toNat + s.divisor.toNat) / (2 * s.divisor.toNat) := by
  rw [toNat_amount]
  rcases s.toNat_divisor with hd | hd | hd | hd <;> rw [hd] at h ⊢ <;> omega

/-- **In the last half unit** it falls short by one. -/
lemma amount_of_le (s : Scale) {n : UInt64} (h : 2 ^ 64 ≤ n.toNat + s.divisor.toNat / 2) :
    (s.amount n).toNat + 1 = (2 * n.toNat + s.divisor.toNat) / (2 * s.divisor.toNat) := by
  have hn := n.toNat_lt
  rw [toNat_amount]
  rcases s.toNat_divisor with hd | hd | hd | hd <;> rw [hd] at h ⊢ <;> omega

/-- An amount is the rounded quotient, or one less in the last half unit. -/
lemma amount_eq_round (s : Scale) (n : UInt64) :
    ((s.amount n).toNat : ℤ) + (if n.toNat + s.divisor.toNat / 2 < 2 ^ 64 then 0 else 1) =
      round ((n.toNat : ℚ) / s.divisor.toNat) := by
  have hpos : 0 < s.divisor.toNat := by
    rcases s.toNat_divisor with hd | hd | hd | hd <;> omega
  rw [round_div _ _ hpos]
  split_ifs with h
  · rw [s.amount_of_lt h, add_zero]
  · rw [← s.amount_of_le (Nat.le_of_not_lt h), Nat.cast_add, Nat.cast_one]

lemma abs_amount_sub_le (s : Scale) {n : UInt64} (h : n.toNat + s.divisor.toNat / 2 < 2 ^ 64) :
    |((s.amount n).toNat * s.divisor.toNat : ℤ) - n.toNat| ≤ (s.divisor.toNat / 2 : ℕ) := by
  rw [s.amount_of_lt h, abs_le]
  rcases s.toNat_divisor with hd | hd | hd | hd <;> rw [hd] at h ⊢ <;> omega

lemma amount_mono (s : Scale) {n k : UInt64} (h : n ≤ k) : s.amount n ≤ s.amount k := by
  rw [UInt64.le_iff_toNat_le] at h ⊢
  rw [toNat_amount, toNat_amount]
  refine Nat.div_le_div_right ?_
  omega

/-! ## Signed amounts -/

/-- The magnitude of signed bytes, as a word. -/
def magnitude (d : Int64) : UInt64 := .ofNat d.toInt.natAbs

lemma toNat_magnitude (d : Int64) : (magnitude d).toNat = d.toInt.natAbs := by
  have hlow := d.le_toInt
  have hhigh := d.toInt_lt
  exact UInt64.toNat_ofNat_of_lt' (by simp only [UInt64.size]; omega)

/-- A magnitude lies in front of the last half unit. -/
lemma magnitude_lt (s : Scale) (d : Int64) :
    (magnitude d).toNat + s.divisor.toNat / 2 < 2 ^ 64 := by
  have hlow := d.le_toInt
  have hhigh := d.toInt_lt
  rw [toNat_magnitude]
  rcases s.toNat_divisor with hd | hd | hd | hd <;> rw [hd] <;> omega

/-- Only the least signed word has no opposite. -/
lemma toInt_neg_of_ne {d : Int64} (hd : d ≠ Int64.minValue) : (-d).toInt = -d.toInt := by
  have hlow := d.le_toInt
  have hhigh := d.toInt_lt
  have hne : d.toInt ≠ -2 ^ 63 := fun h => hd (Int64.toInt_inj.mp (h.trans toInt_minValue.symm))
  rw [Int64.toInt_neg]
  exact Int.bmod_eq_of_le (by omega) (by omega)

/-- **A signed amount** has the sign of its bytes and the amount of their magnitude, as far as this is
a signed word. -/
lemma toInt_signedAmount (s : Scale) (d : Int64) :
    (s.signedAmount d).toInt =
      d.toInt.sign * min ((s.amount (magnitude d)).toNat : ℤ) (2 ^ 63 - 1) := by
  have hspan : (span (s.amount (magnitude d))).toInt =
      min ((s.amount (magnitude d)).toNat : ℤ) (2 ^ 63 - 1) := by
    rw [toInt_span]
    omega
  have hne : span (s.amount (magnitude d)) ≠ Int64.minValue := by
    intro h
    rw [h, toInt_minValue] at hspan
    omega
  rw [signedAmount, ← magnitude]
  split_ifs with hneg
  · rw [Int64.lt_iff_toInt_lt, Int64.toInt_zero] at hneg
    rw [toInt_neg_of_ne hne, hspan, Int.sign_eq_neg_one_of_neg hneg, neg_one_mul]
  · rw [Int64.lt_iff_toInt_lt, Int64.toInt_zero, not_lt] at hneg
    rw [hspan]
    rcases hneg.eq_or_lt with hzero | hpos
    · have hnone : (s.amount (magnitude d)).toNat = 0 := by
        rw [s.amount_of_lt (s.magnitude_lt d), toNat_magnitude, ← hzero]
        rcases s.toNat_divisor with hd | hd | hd | hd <;> rw [hd] <;> rfl
      rw [← hzero, hnone]
      rfl
    · rw [Int.sign_eq_one_of_pos hpos, one_mul]

/-- **Opposite bytes have opposite amounts**, wherever bytes have an opposite. -/
lemma signedAmount_neg (s : Scale) {d : Int64} (hd : d ≠ Int64.minValue) :
    s.signedAmount (-d) = -s.signedAmount d := by
  have hopposite := toInt_neg_of_ne hd
  have hmagnitude : magnitude (-d) = magnitude d := by
    rw [magnitude, hopposite, Int.natAbs_neg, magnitude]
  have hsigned := s.toInt_signedAmount d
  have hne : s.signedAmount d ≠ Int64.minValue := by
    intro h
    rw [h, toInt_minValue] at hsigned
    rcases Int.sign_trichotomy d.toInt with hs | hs | hs <;> rw [hs] at hsigned <;> omega
  rw [← Int64.toInt_inj, toInt_neg_of_ne hne, toInt_signedAmount, toInt_signedAmount, hmagnitude,
    hopposite, Int.sign_neg, neg_mul]

/-! ## All amounts -/

/-- **Amounts are rounded to the nearest unit, halves up**, as far as adding half a unit stays below
`2 ^ 64`, and so they are off by half a unit at most; from there on, in the last half unit of all
words, they fall short of the nearest unit by one.  They are monotone throughout.  A signed amount has
the sign of its bytes and the rounded amount of their magnitude, clamped to `2 ^ 63 - 1`, and is odd in
every word that has an opposite. -/
theorem amounts_rounded (s : Scale) :
    (∀ n : UInt64, n.toNat + s.divisor.toNat / 2 < 2 ^ 64 →
      ((s.amount n).toNat : ℤ) = round ((n.toNat : ℚ) / s.divisor.toNat) ∧
      |((s.amount n).toNat * s.divisor.toNat : ℤ) - n.toNat| ≤ (s.divisor.toNat / 2 : ℕ)) ∧
    (∀ n : UInt64, 2 ^ 64 ≤ n.toNat + s.divisor.toNat / 2 →
      ((s.amount n).toNat : ℤ) = round ((n.toNat : ℚ) / s.divisor.toNat) - 1) ∧
    (∀ n k : UInt64, n ≤ k → s.amount n ≤ s.amount k) ∧
    (∀ d : Int64, (magnitude d).toNat = d.toInt.natAbs ∧
      ((s.amount (magnitude d)).toNat : ℤ) =
        round ((d.toInt.natAbs : ℚ) / s.divisor.toNat) ∧
      (s.signedAmount d).toInt =
        d.toInt.sign * min ((s.amount (magnitude d)).toNat : ℤ) (2 ^ 63 - 1)) ∧
    ∀ d : Int64, d ≠ Int64.minValue → s.signedAmount (-d) = -s.signedAmount d := by
  refine ⟨?_, ?_, fun n k => s.amount_mono, ?_, fun d => s.signedAmount_neg⟩
  · intro n h
    have hround := s.amount_eq_round n
    rw [if_pos h, add_zero] at hround
    exact ⟨hround, s.abs_amount_sub_le h⟩
  · intro n h
    have hround := s.amount_eq_round n
    rw [if_neg (Nat.not_lt.mpr h)] at hround
    exact eq_sub_of_add_eq hround
  · intro d
    have hround := s.amount_eq_round (magnitude d)
    rw [if_pos (s.magnitude_lt d), add_zero, toNat_magnitude] at hround
    exact ⟨toNat_magnitude d, hround, s.toInt_signedAmount d⟩

/-- Halves go up, and the least signed word has the greatest amount of bytes. -/
theorem halves_rounded_up :
    ((kilo.amount 1536).toNat : ℤ) = round ((1536 : ℕ) / (1024 : ℕ) : ℚ) ∧
      kilo.amount 1536 = 2 ∧
      kilo.signedAmount (-1536) = -kilo.signedAmount 1536 ∧ kilo.signedAmount 1536 = 2 ∧
      ((giga.amount 0xffffffffffffffff).toNat : ℤ) =
        round ((2 ^ 64 - 1 : ℕ) / (2 ^ 30 : ℕ) : ℚ) - 1 ∧
      (bytes.signedAmount Int64.minValue).toInt = -(2 ^ 63 - 1) := by
  obtain ⟨hnear, -, -, -, hodd⟩ := amounts_rounded kilo
  obtain ⟨-, hlast, -⟩ := amounts_rounded giga
  obtain ⟨-, -, -, hsigned, -⟩ := amounts_rounded bytes
  refine ⟨(hnear 1536 (by decide)).1, by decide, hodd 1536 (by decide), by decide,
    hlast 0xffffffffffffffff (by decide), ?_⟩
  rw [(hsigned Int64.minValue).2.2]
  decide

/-- **The last half unit is rounded down**: the largest word is off by almost a unit. -/
theorem largest_amount_short :
    ((kilo.amount 0xffffffffffffffff).toNat : ℤ) = 2 ^ 54 - 1 ∧
      round (((0xffffffffffffffff : UInt64).toNat : ℚ) / kilo.divisor.toNat) = 2 ^ 54 ∧
      ((kilo.divisor.toNat / 2 : ℕ) : ℤ) <
        |((kilo.amount 0xffffffffffffffff).toNat * kilo.divisor.toNat : ℤ) -
          (0xffffffffffffffff : UInt64).toNat| := by
  refine ⟨by decide, ?_, by decide⟩
  rw [round_div _ _ (by decide)]
  decide

end Scale

end RegionLedger
