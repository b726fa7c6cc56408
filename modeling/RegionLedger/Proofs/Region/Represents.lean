import Mathlib.Data.List.Sort
import RegionLedger.Region.Map
import RegionLedger.Proofs.Region.Bytes
import RegionLedger.Proofs.Treap.Contents

/-!
# What a region map stands for

A region map stands for the bytes whose jumps it stores, each with the change of side it makes.
This one relation carries everything: it determines the side of every byte, it leaves no choice of
boundaries, and every operation is described by the bytes before and after it.

* `RegionMap.Represents` — the relation.
* `RegionMap.Represents.sideAt_eq`, `RegionMap.Represents.sideBefore_eq` — the two look-ups.
* `RegionMap.Represents.points_unique` — maps of the same bytes store the same boundaries.
-/

namespace RegionLedger

/-- The last address.  No range reaches it, so it is never in use. -/
def lastAddress : Address := 0xffffffffffffffff

lemma le_lastAddress (x : Address) : x ≤ lastAddress := by
  have h := x.toNat_lt
  rw [UInt64.le_iff_toNat_le]
  simp only [lastAddress, UInt64.reduceToNat]
  omega

namespace RegionMap

variable {μ : Type} [Metadata μ]

/-- The map stands for the bytes `f`: it stores exactly the jumps of `f`.  Released bytes carry no
metadata, and the last byte is released. -/
structure Represents (m : RegionMap μ) (f : Bytes μ) : Prop where
  wellFormed : m.boundaries.WellFormed
  mem_points_iff : ∀ p, p ∈ m.points ↔ f.Jumps p.1 ∧ p.2 = f.boundary p.1
  clean : ∀ x, (f x).state = .released → f x = .released
  last_released : f lastAddress = .released

lemma represents_empty (draws : Draws) : (empty draws : RegionMap μ).Represents .untouched where
  wellFormed := Treap.wellFormed_empty draws
  mem_points_iff p := by
    have hjump : ¬ (Bytes.untouched : Bytes μ).Jumps p.1 := by
      simp [Bytes.Jumps, Bytes.before, Bytes.untouched]
    simp [points, empty, Treap.empty, Treap.toList, Tree.toList, hjump]
  clean _ _ := rfl
  last_released := rfl

namespace Represents

variable {m : RegionMap μ} {f : Bytes μ}

lemma mem_points_of_jumps (h : m.Represents f) {x : Address} (hx : f.Jumps x) :
    (x, f.boundary x) ∈ m.points := (h.mem_points_iff _).mpr ⟨hx, rfl⟩

lemma pairwise_points (h : m.Represents f) : m.points.Pairwise fun p q => p.1 < q.1 :=
  h.wellFormed.pairwise_toList

/-- What a floor finds is a jump, after which the side stays. -/
lemma floor?_eq_some (h : m.Represents f) {x : Address} {p : Address × Boundary μ}
    (hp : m.boundaries.floor? x = some p) :
    p.1 ≤ x ∧ p.2 = f.boundary p.1 ∧ ∀ z, p.1 < z → z ≤ x → ¬ f.Jumps z := by
  obtain ⟨hmem, hle, hgreatest⟩ := h.wellFormed.floor?_eq_some hp
  refine ⟨hle, ((h.mem_points_iff p).mp hmem).2, ?_⟩
  intro z hz hzx hjump
  have hzp := hgreatest _ (h.mem_points_of_jumps hjump) hzx
  grind

/-- Where a floor finds nothing, there is no jump up to the address. -/
lemma floor?_eq_none (h : m.Represents f) {x : Address} (hx : m.boundaries.floor? x = none) :
    ∀ z, z ≤ x → ¬ f.Jumps z := by
  intro z hz hjump
  have hlt := (h.wellFormed.floor?_eq_none_iff x).mp hx _ (h.mem_points_of_jumps hjump)
  grind

/-- **The side of a byte.** -/
theorem sideAt_eq (h : m.Represents f) (x : Address) : m.sideAt x = f x := by
  rw [sideAt]
  cases hfloor : m.boundaries.floor? x with
  | none => exact (Bytes.eq_released_of_forall_not_jumps (h.floor?_eq_none hfloor)).symm
  | some p =>
      obtain ⟨hle, hb, hstay⟩ := h.floor?_eq_some hfloor
      simp only [hb, Bytes.boundary]
      exact (Bytes.eq_of_forall_not_jumps hle hstay).symm

/-- A map that stands for some bytes stands for those that it shows. -/
lemma sideAt (h : m.Represents f) : m.Represents m.sideAt := by
  rwa [funext h.sideAt_eq]

/-- **The side that ends at an address.** -/
theorem sideBefore_eq (h : m.Represents f) (x : Address) : m.sideBefore x = f.before x := by
  rw [sideBefore]
  cases hfloor : m.boundaries.floor? x with
  | none =>
      have hnone := h.floor?_eq_none hfloor
      rw [Bytes.before_eq_of_not_jumps (hnone x (UInt64.le_refl x))]
      exact (Bytes.eq_released_of_forall_not_jumps hnone).symm
  | some p =>
      obtain ⟨hle, hb, hstay⟩ := h.floor?_eq_some hfloor
      simp only [hb, Bytes.boundary]
      split_ifs with hkey
      · rw [hkey]
      · have hjump : ¬ f.Jumps x := hstay x (by grind) (UInt64.le_refl x)
        rw [Bytes.before_eq_of_not_jumps hjump, Bytes.eq_of_forall_not_jumps hle hstay]

/-- **The boundaries are determined by the bytes.** -/
theorem points_unique {m' : RegionMap μ} (h : m.Represents f) (h' : m'.Represents f) :
    m.points = m'.points := by
  have hirrefl : Std.Irrefl fun p q : Address × Boundary μ => p.1 < q.1 :=
    ⟨fun p => UInt64.lt_irrefl p.1⟩
  have hantisymm : Std.Antisymm fun p q : Address × Boundary μ => p.1 < q.1 :=
    ⟨fun p q hpq hqp => absurd (UInt64.lt_trans hpq hqp) (UInt64.lt_irrefl p.1)⟩
  refine h.pairwise_points.eq_of_mem_iff h'.pairwise_points ?_
  intro p
  rw [h.mem_points_iff, h'.mem_points_iff]

/-- The boundaries strictly inside a range are the jumps there. -/
lemma mem_pointsIn_iff (h : m.Represents f) (a b : Address) (p : Address × Boundary μ) :
    p ∈ m.pointsIn (.excluded a) (.excluded b) ↔
      (a < p.1 ∧ p.1 < b) ∧ f.Jumps p.1 ∧ p.2 = f.boundary p.1 := by
  rw [pointsIn, h.wellFormed.range_eq, List.mem_filter, ← points, h.mem_points_iff]
  simp only [Bound.endsAfter, Bound.startsBy, Bool.and_eq_true, decide_eq_true_eq]
  tauto

lemma pairwise_pointsIn (h : m.Represents f) (first last : Bound Address) :
    (m.pointsIn first last).Pairwise fun p q => p.1 < q.1 := by
  rw [pointsIn, h.wellFormed.range_eq]
  exact h.pairwise_points.filter _

end Represents

end RegionMap

end RegionLedger
