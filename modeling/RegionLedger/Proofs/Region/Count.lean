import Mathlib.Data.FinEnum
import Mathlib.Data.Set.Card
import Mathlib.Order.Interval.Finset.Nat
import RegionLedger.Proofs.Accounting.Amounts
import RegionLedger.Proofs.Region.Bytes

/-!
# Counting bytes

How many bytes of an address line count toward a column of a tag, and how this number changes when a
range is overwritten.

* `Side.CountsIn` — a byte of the side counts toward a column of a tag.
* `Bytes.held`, `Bytes.heldIn` — the number of such bytes, everywhere and in a range.
* `Bytes.heldIn_add`, `Bytes.heldIn_of_same` — the count of a range by parts.
* `Bytes.held_overwrite` — the count after a range was overwritten.
-/

namespace RegionLedger

variable {μ : Type} [Metadata μ]

/-- A byte of this side counts toward the column of the tag. -/
def Side.CountsIn (s : Side μ) (c : Column) (t : Tag) : Prop := t = s.tag ∧ c.counts s.state

instance (s : Side μ) (c : Column) (t : Tag) : Decidable (s.CountsIn c t) :=
  inferInstanceAs (Decidable (_ ∧ _))

lemma Side.not_countsIn_released (c : Column) (t : Tag) :
    ¬ (Side.released : Side μ).CountsIn c t := fun h => by cases c <;> cases h.2

/-- The length of a range of one side, if the side counts. -/
def Side.share (s : Side μ) (c : Column) (t : Tag) (n : ℕ) : ℕ := if s.CountsIn c t then n else 0

lemma ncard_range (a b : Address) : {x : Address | a ≤ x ∧ x < b}.ncard = b.toNat - a.toNat := by
  have himage : UInt64.toNat '' {x : Address | a ≤ x ∧ x < b} = Set.Ico a.toNat b.toNat := by
    ext n
    simp only [Set.mem_image, Set.mem_ofPred_eq, Set.mem_Ico, UInt64.le_iff_toNat_le,
      UInt64.lt_iff_toNat_lt]
    constructor
    · rintro ⟨x, hx, rfl⟩
      exact hx
    · intro hn
      have hlt : n < UInt64.size := hn.2.trans b.toNat_lt
      refine ⟨.ofNat n, ?_, UInt64.toNat_ofNat_of_lt' hlt⟩
      rwa [UInt64.toNat_ofNat_of_lt' hlt]
  rw [← Set.ncard_image_of_injective _ fun x y => UInt64.toNat_inj.mp, himage, ← Finset.coe_Ico,
    Set.ncard_coe_finset, Nat.card_Ico]

namespace Bytes

variable {f g : Bytes μ} {a b k : Address}

/-- The number of bytes that count toward the column of the tag. -/
noncomputable def held (f : Bytes μ) (c : Column) (t : Tag) : ℕ := {x | (f x).CountsIn c t}.ncard

/-- The number of such bytes in a range. -/
noncomputable def heldIn (f : Bytes μ) (a b : Address) (c : Column) (t : Tag) : ℕ :=
  {x | (a ≤ x ∧ x < b) ∧ (f x).CountsIn c t}.ncard

/-- The number of such bytes from an address on. -/
noncomputable def heldFrom (f : Bytes μ) (a : Address) (c : Column) (t : Tag) : ℕ :=
  {x | a ≤ x ∧ (f x).CountsIn c t}.ncard

/-- A set of bytes counted by parts. -/
lemma ncard_add (p q : Address → Prop) :
    {x | q x}.ncard = {x | p x ∧ q x}.ncard + {x | ¬ p x ∧ q x}.ncard := by
  rw [← Set.ncard_union_eq _ (Set.toFinite _) (Set.toFinite _)]
  · congr 1
    ext x
    by_cases hp : p x <;> simp [hp]
  · exact Set.disjoint_left.mpr fun x hx hx' => hx'.1 hx.1

lemma heldIn_add (hak : a ≤ k) (hkb : k ≤ b) (c : Column) (t : Tag) :
    f.heldIn a b c t = f.heldIn a k c t + f.heldIn k b c t := by
  rw [heldIn, ncard_add (fun x => x < k) _]
  congr 2 <;> ext x <;> simp only [Set.mem_ofPred_eq] <;> grind

lemma heldFrom_add (hak : a ≤ k) (c : Column) (t : Tag) :
    f.heldFrom a c t = f.heldIn a k c t + f.heldFrom k c t := by
  rw [heldFrom, ncard_add (fun x => x < k) _]
  congr 2 <;> ext x <;> simp only [Set.mem_ofPred_eq] <;> grind

lemma held_eq_heldFrom (f : Bytes μ) (c : Column) (t : Tag) : f.held c t = f.heldFrom 0 c t := by
  rw [held, heldFrom]
  congr 1
  ext x
  simp only [Set.mem_ofPred_eq]
  exact ⟨fun hx => ⟨by grind, hx⟩, fun hx => hx.2⟩

/-- A range of one side counts in full or not at all. -/
lemma heldIn_of_same {s : Side μ} (same : ∀ x, a ≤ x → x < b → f x = s) (c : Column) (t : Tag) :
    f.heldIn a b c t = s.share c t (b.toNat - a.toNat) := by
  rw [heldIn, Side.share, ← ncard_range a b]
  split_ifs with hs
  · congr 1
    ext x
    simp only [Set.mem_ofPred_eq, and_iff_left_iff_imp]
    exact fun hx => same x hx.1 hx.2 ▸ hs
  · rw [Set.ncard_eq_zero, Set.eq_empty_iff_forall_notMem]
    exact fun x hx => hs (same x hx.1.1 hx.1.2 ▸ hx.2)

lemma heldIn_le (f : Bytes μ) (a b : Address) (c : Column) (t : Tag) :
    f.heldIn a b c t ≤ b.toNat - a.toNat := by
  rw [heldIn, ← ncard_range a b]
  exact Set.ncard_le_ncard fun x hx => hx.1

/-- Bytes that differ in a range only differ in the count by what the range counts. -/
lemma held_add_heldIn (h : ∀ x, ¬ (a ≤ x ∧ x < b) → g x = f x) (c : Column) (t : Tag) :
    g.held c t + f.heldIn a b c t = f.held c t + g.heldIn a b c t := by
  have hout : {x | ¬ (a ≤ x ∧ x < b) ∧ (g x).CountsIn c t} =
      {x | ¬ (a ≤ x ∧ x < b) ∧ (f x).CountsIn c t} := by
    ext x
    simp only [Set.mem_ofPred_eq]
    exact and_congr_right fun hx => by rw [h x hx]
  rw [held, held, ncard_add (fun x => a ≤ x ∧ x < b), ncard_add (fun x => a ≤ x ∧ x < b)
    fun x => (f x).CountsIn c t, hout, heldIn, heldIn]
  omega

/-- **The count after a range was overwritten.** -/
lemma held_overwrite (s : Side μ) (c : Column) (t : Tag) :
    (f.overwrite a b s).held c t + f.heldIn a b c t =
      f.held c t + s.share c t (b.toNat - a.toNat) := by
  rw [held_add_heldIn fun x hx => overwrite_of_not_mem hx, heldIn_of_same (s := s)]
  exact fun x ha hb => overwrite_of_mem ha hb

lemma held_untouched (c : Column) (t : Tag) : (untouched : Bytes μ).held c t = 0 := by
  rw [held, Set.ncard_eq_zero, Set.eq_empty_iff_forall_notMem]
  exact fun x hx => Side.not_countsIn_released c t hx

/-- Without committed memory no committed bytes count. -/
lemma held_committed_eq_zero (hf : ∀ x, (f x).state ≠ .committed) (t : Tag) :
    f.held .committed t = 0 := by
  rw [held, Set.ncard_eq_zero, Set.eq_empty_iff_forall_notMem]
  rintro x ⟨_, hx⟩
  cases hfx : (f x).state with
  | committed => exact hf x hfx
  | _ => rw [hfx] at hx; cases hx

/-- The number of bytes that count toward the column of any tag. -/
noncomputable def inUse (f : Bytes μ) (c : Column) : ℕ := {x | c.counts (f x).state}.ncard

lemma held_le_inUse (f : Bytes μ) (c : Column) (t : Tag) : f.held c t ≤ f.inUse c :=
  Set.ncard_le_ncard fun x hx => hx.2

/-- If the last byte is released, the bytes in use are fewer than the addresses. -/
lemma inUse_lt (hlast : f 0xffffffffffffffff = .released) (c : Column) : f.inUse c < 2 ^ 64 := by
  have hsub : {x | c.counts (f x).state} ⊆ {x : Address | 0 ≤ x ∧ x < 0xffffffffffffffff} := by
    intro x hx
    have hne : x ≠ 0xffffffffffffffff := by
      rintro rfl
      simp only [Set.mem_ofPred_eq, hlast, Side.released, Column.counts_released] at hx
      cases hx
    exact ⟨by grind, by grind⟩
  have hle := Set.ncard_le_ncard hsub
  rw [ncard_range] at hle
  simp only [UInt64.reduceToNat] at hle
  exact Nat.lt_of_le_of_lt hle (by decide)

/-- **The counts of all tags add up to the bytes in use.** -/
lemma sum_held {c : Column} {tags : List Tag} (hnodup : tags.Nodup)
    (hrest : ∀ t, t ∉ tags → f.held c t = 0) : (tags.map (f.held c)).sum = f.inUse c := by
  have hparts : ∀ ts : List Tag, ts.Nodup →
      (ts.map (f.held c)).sum = {x | (f x).tag ∈ ts ∧ c.counts (f x).state}.ncard := by
    intro ts hts
    induction ts with
    | nil => simp
    | cons t ts ih =>
        obtain ⟨ht, hts⟩ := List.nodup_cons.mp hts
        rw [List.map_cons, List.sum_cons, ih hts, ncard_add (fun x => (f x).tag = t)
          fun x => (f x).tag ∈ t :: ts ∧ c.counts (f x).state, held]
        congr 2 <;> ext x <;> simp only [Set.mem_ofPred_eq, Side.CountsIn, List.mem_cons]
        · grind
        · grind
  rw [hparts tags hnodup, inUse]
  congr 1
  ext x
  simp only [Set.mem_ofPred_eq, and_iff_right_iff_imp]
  intro hx
  by_contra hmem
  have hzero := hrest _ hmem
  rw [held, Set.ncard_eq_zero, Set.eq_empty_iff_forall_notMem] at hzero
  exact hzero x ⟨rfl, hx⟩

lemma held_committed_le (f : Bytes μ) (t : Tag) : f.held .committed t ≤ f.held .reserved t := by
  refine Set.ncard_le_ncard fun x hx => ⟨hx.1, ?_⟩
  have hstate := hx.2
  show (f x).state.isReserved
  cases hfx : (f x).state with
  | committed => rfl
  | _ => rw [hfx] at hstate; cases hstate

end Bytes

end RegionLedger
