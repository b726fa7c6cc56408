import Mathlib.Tactic.Common
import RegionLedger.Region.Metadata

/-!
# Memory byte by byte

The plainest description of an address line gives every byte its side.  A region map is a compact
form of such a description: it keeps the addresses where the side changes.

* `Bytes` — the side of every byte; `Bytes.untouched` is all released.
* `Bytes.before` — the side that ends at an address; in front of the first byte all is released.
* `Bytes.Jumps` — the side changes at an address; between two jumps it stays
  (`Bytes.eq_of_forall_not_jumps`).
* `Bytes.overwrite` — one side for a whole range; `Bytes.jumps_overwrite_iff` says where the result
  jumps.
-/

namespace RegionLedger

/-- The side of every byte of an address line. -/
abbrev Bytes (μ : Type) := Address → Side μ

namespace Bytes

variable {μ : Type} [Metadata μ]

/-- All memory is released. -/
def untouched : Bytes μ := fun _ => .released

/-- The side that ends at `x`: that of the byte before, and released memory at the first byte. -/
def before (f : Bytes μ) (x : Address) : Side μ := if x = 0 then .released else f (x - 1)

/-- The side changes at `x`. -/
def Jumps (f : Bytes μ) (x : Address) : Prop := f.before x ≠ f x

/-- The change of side at `x`. -/
def boundary (f : Bytes μ) (x : Address) : Boundary μ := { incoming := f.before x, outgoing := f x }

/-- The range from `a` to `b` gets the side `s`. -/
def overwrite (f : Bytes μ) (a b : Address) (s : Side μ) : Bytes μ := fun x =>
  if a ≤ x ∧ x < b then s else f x

/-! ## Between jumps -/

lemma before_zero (f : Bytes μ) : f.before 0 = .released := if_pos rfl

lemma before_of_ne {x : Address} (f : Bytes μ) (h : x ≠ 0) : f.before x = f (x - 1) := if_neg h

/-- Where the side does not change, the byte before has the same side. -/
lemma before_eq_of_not_jumps {f : Bytes μ} {x : Address} (h : ¬ f.Jumps x) : f.before x = f x :=
  not_not.mp h

/-- **Without a jump the side stays.**  The induction is on the distance of the two bytes. -/
lemma eq_of_forall_not_jumps {f : Bytes μ} {x y : Address} (hxy : x ≤ y)
    (h : ∀ z, x < z → z ≤ y → ¬ f.Jumps z) : f y = f x := by
  obtain ⟨n, hn⟩ : ∃ n, n = y.toNat - x.toNat := ⟨_, rfl⟩
  induction n generalizing y with
  | zero =>
      have hyx : y = x := by
        rw [UInt64.le_iff_toNat_le] at hxy
        exact UInt64.toNat_inj.mp (by omega)
      rw [hyx]
  | succ n ih =>
      have hlt : x < y := by
        rw [UInt64.lt_iff_toNat_lt]
        omega
      have hprev : (y - 1).toNat = y.toNat - 1 := by
        rw [UInt64.toNat_sub_of_le _ _ (by rw [UInt64.le_iff_toNat_le]; simp; omega)]
        rfl
      have hstep := before_eq_of_not_jumps (h y hlt (by grind))
      rw [before_of_ne f (by grind)] at hstep
      rw [← hstep]
      refine ih (by grind) ?_ (by omega)
      intro z hz hzy
      exact h z hz (by grind)

/-- Up to the first jump all memory is released. -/
lemma eq_released_of_forall_not_jumps {f : Bytes μ} {y : Address}
    (h : ∀ z, z ≤ y → ¬ f.Jumps z) : f y = .released := by
  rw [eq_of_forall_not_jumps (x := 0) (by grind) fun z _ hz => h z hz,
    ← before_eq_of_not_jumps (h 0 (by grind)), before_zero]

/-! ## Overwriting -/

variable {f : Bytes μ} {a b x : Address} {s : Side μ}

omit [Metadata μ] in
lemma overwrite_of_mem (ha : a ≤ x) (hb : x < b) : f.overwrite a b s x = s := if_pos ⟨ha, hb⟩

omit [Metadata μ] in
lemma overwrite_of_not_mem (h : ¬ (a ≤ x ∧ x < b)) : f.overwrite a b s x = f x := if_neg h

/-- What ends at `x` after a range was overwritten. -/
lemma before_overwrite : (f.overwrite a b s).before x =
    if a < x ∧ x ≤ b then s else f.before x := by
  unfold before overwrite
  split_ifs <;> grind

/-- **Where the side changes after a range was overwritten**: at the ends if the new side differs
from its neighbour, nowhere inside, and outside as before. -/
lemma jumps_overwrite_iff (hab : a < b) : (f.overwrite a b s).Jumps x ↔
    if x = a then f.before a ≠ s
    else if x = b then s ≠ f b
    else if a < x ∧ x < b then False
    else f.Jumps x := by
  unfold Jumps
  rw [before_overwrite, overwrite]
  split_ifs <;> grind

/-- The changes of side after a range was overwritten. -/
lemma boundary_overwrite (hab : a < b) : (f.overwrite a b s).boundary x =
    if x = a then { incoming := f.before a, outgoing := s }
    else if x = b then { incoming := s, outgoing := f b }
    else if a < x ∧ x < b then { incoming := s, outgoing := s }
    else f.boundary x := by
  unfold boundary
  rw [before_overwrite, overwrite]
  split_ifs <;> grind

end Bytes

end RegionLedger
