import RegionLedger.Proofs.Accounting.Stages
import RegionLedger.Proofs.Region.Accounting

/-!
# Painting parts of a range

To reserve memory is to paint its bytes with one side.  While the parts of a range are painted one
after the other, a byte has its old side or the new one, so every count moves in one direction: up if
the new side counts toward it, down if not.

* `Bytes.Painted` — some bytes of a range have a given side, and the others are as they were.
* `Bytes.Painted.le_held`, `Bytes.Painted.held_le` — the two directions.
* `RegionMap.Represents.reserve_answers` — a valid range is painted if its ends find room.
-/

namespace RegionLedger

variable {μ : Type} [Metadata μ]

namespace Bytes

/-- In the range from `a` to `b` some bytes have got the side `s`, and all others are as they
were. -/
def Painted (f g : Bytes μ) (a b : Address) (s : Side μ) : Prop :=
  ∀ x, g x = f x ∨ (a ≤ x ∧ x < b) ∧ g x = s

namespace Painted

variable {f g h : Bytes μ} {a b : Address} {s : Side μ} {c : Column} {t : Tag}

omit [Metadata μ] in
lemma refl (f : Bytes μ) (a b : Address) (s : Side μ) : f.Painted f a b s := fun _ => .inl rfl

omit [Metadata μ] in
lemma trans (hfg : f.Painted g a b s) (hgh : g.Painted h a b s) : f.Painted h a b s := by
  intro x
  rcases hgh x with hx | hx
  · rw [hx]
    exact hfg x
  · exact .inr hx

omit [Metadata μ] in
lemma outside (hfg : f.Painted g a b s) (x : Address) (hx : ¬ (a ≤ x ∧ x < b)) : g x = f x :=
  (hfg x).resolve_right fun hin => hx hin.1

/-- Counts that the side counts toward go up. -/
lemma le_held (hfg : f.Painted g a b s) (hs : s.CountsIn c t) : f.held c t ≤ g.held c t := by
  refine Set.ncard_le_ncard ?_
  intro x hx
  rcases hfg x with hsame | ⟨_, hpainted⟩
  · rwa [Set.mem_ofPred_eq, hsame]
  · rwa [Set.mem_ofPred_eq, hpainted]

/-- The others go down. -/
lemma held_le (hfg : f.Painted g a b s) (hs : ¬ s.CountsIn c t) : g.held c t ≤ f.held c t := by
  refine Set.ncard_le_ncard ?_
  intro x hx
  rcases hfg x with hsame | ⟨_, hpainted⟩
  · rwa [Set.mem_ofPred_eq, ← hsame]
  · rw [Set.mem_ofPred_eq, hpainted] at hx
    exact absurd hx hs

/-- Two steps of the painting book in the same direction, and the committed bytes down unless the
paint is committed memory. -/
lemma sameWay (hfg : f.Painted g a b s) (hgh : g.Painted h a b s) (hs : s.state ≠ .committed)
    {d e : Deltas} (hd : d.Books f g) (he : e.Books g h) : d.SameWay e where
  reserved t := by
    rw [hd.amount, he.amount]
    by_cases hcounts : s.CountsIn .reserved t
    · have hfirst := hfg.le_held hcounts
      have hsecond := hgh.le_held hcounts
      omega
    · have hfirst := hfg.held_le hcounts
      have hsecond := hgh.held_le hcounts
      omega
  committed t := by
    have hnone : ¬ s.CountsIn .committed t := by
      rintro ⟨-, hstate⟩
      cases hside : s.state <;> simp_all [Column.counts, State.isCommitted]
    have hfirst := hfg.held_le hnone
    have hsecond := hgh.held_le hnone
    rw [hd.amount, he.amount]
    omega

end Painted

end Bytes

namespace RegionMap

variable [DecidableEq μ] {m : RegionMap μ}

/-- **A reservation of a valid range** paints it, with new boundaries at its ends only, unless these
find no room. -/
lemma Represents.reserve_answers (h : m.Represents m.sideAt) {start : Address} {size : UInt64}
    (hpos : 0 < size.toNat) (hlen : size.toNat ≤ 2 ^ 63 - 1)
    (hend : start.toNat + size.toNat < 2 ^ 64) (data : μ) :
    (∃ d m', m.reserve start size data = .ok (d, m') ∧ m'.Represents m'.sideAt ∧
      m'.sideAt = Bytes.overwrite m.sideAt start (start + size) { state := .reserved, data } ∧
      d.Books m.sideAt m'.sideAt ∧ m'.keys ⊆ m.keys ∪ {start, start + size}) ∨
    m.reserve start size data = .error (.outOfMemory .outOfSlots) ∧
      Slots.limit < (m.keys ∪ {start, start + size}).card := by
  have hstop := toNat_add_of_lt hend
  have hlt : start < start + size := by
    rw [UInt64.lt_iff_toNat_lt, hstop]
    omega
  have hspan : start + size - start ≤ maxSpan := by
    rw [UInt64.le_iff_toNat_le, UInt64.toNat_sub_of_le _ _ (UInt64.le_of_lt hlt), hstop]
    show _ ≤ 2 ^ 63 - 1
    omega
  have happly : m.reserve start size data =
      m.assign start (start + size) .reserved data .replace := by
    rw [reserve, Mutation.rangeEnd_valid hpos hlen hstop]
    rfl
  have hnodup : [start, start + size].Nodup := by simp; grind
  have hcard := size_add_missing h.wellFormed hnodup
  rw [happly]
  by_cases room : m.size + m.missing [start, start + size] ≤ Slots.limit
  · obtain ⟨m', hassign, h'⟩ := h.assign_ok .reserved data .replace hlt hspan room
    have hbooks := (h.assign_books hassign).2.2
    refine .inl ⟨_, m', hassign, h'.sideAt, funext h'.sideAt_eq, ?_, h.keys_subset h' hlt⟩
    rwa [show m'.sideAt = _ from funext h'.sideAt_eq]
  · refine .inr ⟨h.assign_full .reserved data .replace hlt hspan (by omega), ?_⟩
    rw [hcard] at room
    simpa using room

end RegionMap

end RegionLedger
