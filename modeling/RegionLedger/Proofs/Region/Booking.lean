import RegionLedger.Proofs.Region.Count
import RegionLedger.Proofs.Region.Runs

/-!
# What assignments book

The deltas of an assignment are put together from lengths: those of the runs it overwrites are taken
off, and that of the new run is added.  Every number formed on the way fits a signed word, and so the
deltas are the exact change of the counts.

* `Deltas.Books` — deltas are the exact change of the counts from some bytes to others.
* `Deltas.Books.exists_plus` — such deltas have a sum if the whole change fits.
* `RegionMap.assignSums`, `RegionMap.Represents.assign_books` — an assignment forms only numbers that
  fit, and books the change.
-/

namespace RegionLedger

variable {μ : Type} [Metadata μ]

/-! ## Exact deltas -/

/-- The deltas are the change of the counts from the bytes `f` to the bytes `g`. -/
structure Deltas.Books (d : Deltas) (f g : Bytes μ) : Prop where
  distinct : d.Distinct
  amount : ∀ c t, d.amount c t = (g.held c t : ℤ) - f.held c t

namespace Deltas

variable {d e : Deltas} {f g g' : Bytes μ}

lemma books_empty (f : Bytes μ) : (∅ : Deltas).Books f f where
  distinct := distinct_empty
  amount c t := by
    rw [amount_empty]
    omega

/-- A sum of deltas books one change after the other. -/
lemma Books.of_plus {s : Deltas} (hd : d.Books f g) (he : e.Books g g') (hs : d.plus e = .ok s) :
    s.Books f g' where
  distinct := hd.distinct.plus hs
  amount c t := by
    rw [amount_of_plus he.distinct hs, hd.amount, he.amount]
    omega

/-- **Changes one after the other have a sum**, if the whole change fits. -/
lemma Books.exists_plus (hd : d.Books f g) (he : e.Books g g')
    (h : ∀ c t, Fits ((g'.held c t : ℤ) - f.held c t)) : ∃ s, d.plus e = .ok s ∧ s.Books f g' := by
  have hsum : ∀ c t, d.amount c t + e.amount c t = (g'.held c t : ℤ) - f.held c t := by
    intro c t
    rw [hd.amount, he.amount]
    omega
  obtain ⟨s, hs⟩ := Deltas.exists_plus (d := d) he.distinct fun c t => (hsum c t).symm ▸ h c t
  exact ⟨s, hs, hd.of_plus he hs⟩

/-- Booking a length for a side. -/
lemma charge_exact (s : Side μ) {bytes : Int64}
    (h : ∀ c t, Fits (d.amount c t + if s.CountsIn c t then bytes.toInt else 0)) :
    (∀ z ∈ d.chargeSums s.tag s.state bytes.toInt, Fits z) ∧
      ∀ c t, (d.charge s.tag s.state bytes).amount c t =
        d.amount c t + if s.CountsIn c t then bytes.toInt else 0 := by
  have hsums : ∀ z ∈ d.chargeSums s.tag s.state bytes.toInt, Fits z := by
    intro z hz
    rcases List.mem_cons.mp hz with rfl | hz
    · exact fits_toInt bytes
    · obtain ⟨c, hc, rfl⟩ := List.mem_map.mp hz
      have hfits := h c s.tag
      rwa [if_pos ⟨rfl, (List.mem_filter.mp hc).2⟩] at hfits
  exact ⟨hsums, amount_charge_of_fits hsums⟩

end Deltas

namespace RegionMap

variable {f : Bytes μ} {a b : Address} {runs : List (Run μ)} {d : Deltas}

/-! ## Booking runs off -/

/-- The numbers formed when runs are booked off. -/
def retireSums (d : Deltas) : List (Run μ) → List ℤ
  | [] => []
  | r :: rest =>
      d.chargeSums r.side.tag r.side.state (-r.size.toNat) ++
        retireSums (d.charge r.side.tag r.side.state (-span r.size)) rest

/-- A length up to the longest span is negated exactly. -/
lemma toInt_neg_span {n : UInt64} (hn : n.toNat ≤ 2 ^ 63 - 1) : (-span n).toInt = -n.toNat := by
  have hspan := toInt_span n
  rw [Int64.toInt_neg, hspan]
  exact (Int.bmod_eq_of_le (by omega) (by omega)).trans (by omega)

/-- **A run is booked off exactly**, if what is left fits. -/
lemma retire_run {r : Run μ} (hlt : r.start < r.stop)
    (hlen : r.stop.toNat - r.start.toNat ≤ 2 ^ 63 - 1)
    (same : ∀ x, r.start ≤ x → x < r.stop → f x = r.side)
    (hfits : ∀ c t, Fits (d.amount c t - f.heldIn r.start r.stop c t)) :
    (∀ z ∈ d.chargeSums r.side.tag r.side.state (-r.size.toNat), Fits z) ∧
      ∀ c t, (d.charge r.side.tag r.side.state (-span r.size)).amount c t =
        d.amount c t - f.heldIn r.start r.stop c t := by
  have hsize : r.size.toNat = r.stop.toNat - r.start.toNat :=
    UInt64.toNat_sub_of_le _ _ (UInt64.le_of_lt hlt)
  have hneg := toInt_neg_span (hsize ▸ hlen)
  have hheld : ∀ c t, d.amount c t - f.heldIn r.start r.stop c t =
      d.amount c t + if r.side.CountsIn c t then (-span r.size).toInt else 0 := by
    intro c t
    rw [Bytes.heldIn_of_same same, Side.share, hneg, hsize]
    split_ifs <;> omega
  have hcharge := Deltas.charge_exact r.side fun c t => hheld c t ▸ hfits c t
  rw [hneg] at hcharge
  refine ⟨hcharge.1, ?_⟩
  intro c t
  rw [hcharge.2, hheld, hneg]

/-- **The runs that tile a range are booked off exactly**, if what is left fits. -/
lemma retire_exact (h : f.Tiles b a runs) (hlen : b.toNat - a.toNat ≤ 2 ^ 63 - 1)
    (hfits : ∀ c t, Fits (d.amount c t - f.heldIn a b c t)) :
    (∀ z ∈ retireSums d runs, Fits z) ∧
      ∀ c t, (retire d runs).amount c t = d.amount c t - f.heldIn a b c t := by
  induction h generalizing d with
  | @last a s hab same =>
      obtain ⟨hsums, hamount⟩ := retire_run (r := ⟨a, b, s⟩) hab hlen same hfits
      refine ⟨?_, hamount⟩
      intro z hz
      rw [retireSums, retireSums, List.append_nil] at hz
      exact hsums z hz
  | @cons a k s rest hak hkb same _ _ ih =>
      have hadd := Bytes.heldIn_add (f := f) (UInt64.le_of_lt hak) (UInt64.le_of_lt hkb)
      have hk := UInt64.lt_iff_toNat_lt.mp hak
      have hb := UInt64.lt_iff_toNat_lt.mp hkb
      -- what is left after the first run lies between what was there and what is left at the end
      have hfirst : ∀ c t, Fits (d.amount c t - f.heldIn a k c t) := by
        intro c t
        have hd := d.fits_amount c t
        have hend := hfits c t
        rw [hadd] at hend
        simp only [Fits] at hd hend ⊢
        omega
      obtain ⟨hsums, hamount⟩ := retire_run (r := ⟨a, k, s⟩) hak (by simp only; omega) same hfirst
      simp only at hamount
      have hrest : ∀ c t, Fits ((d.charge s.tag s.state (-span (Run.mk a k s).size)).amount c t -
          f.heldIn k b c t) := by
        intro c t
        have hend := hfits c t
        rw [hadd] at hend
        rw [hamount]
        simp only [Fits] at hend ⊢
        omega
      obtain ⟨hsums', hamount'⟩ := ih (by omega) hrest
      refine ⟨?_, ?_⟩
      · intro z hz
        rcases List.mem_append.mp hz with hz | hz
        · exact hsums z hz
        · exact hsums' z hz
      · intro c t
        refine (hamount' c t).trans ?_
        rw [hamount, hadd]
        omega

lemma distinct_retire (hd : d.Distinct) : (retire d runs).Distinct := by
  induction runs generalizing d with
  | nil => exact hd
  | cons r rest ih => exact ih (hd.charge _ _ _)

/-! ## Assignments -/

omit [Metadata μ] in
/-- The length of a range of at most the longest span. -/
lemma toNat_sub_le (hab : a < b) (hlen : b - a ≤ maxSpan) : b.toNat - a.toNat ≤ 2 ^ 63 - 1 := by
  rw [← UInt64.toNat_sub_of_le _ _ (UInt64.le_of_lt hab)]
  exact UInt64.le_iff_toNat_le.mp hlen

variable [DecidableEq μ] {m : RegionMap μ}

/-- The numbers formed in an assignment. -/
def assignSums (m : RegionMap μ) (a b : Address) (state : State) (data : μ) (mode : Overwrite) :
    List ℤ :=
  let new := newSide (m.sideAt a) state data mode
  retireSums ∅ (m.segments a b) ++
    (retire ∅ (m.segments a b)).chargeSums new.tag new.state (b - a).toNat

/-- **An assignment books the change exactly.** -/
theorem Represents.assign_books (h : m.Represents f) {state : State} {data : μ} {mode : Overwrite}
    {m' : RegionMap μ} (hok : m.assign a b state data mode = .ok (d, m')) :
    (∀ z ∈ m.assignSums a b state data mode, Fits z) ∧
      m'.Represents (f.overwrite a b (newSide (f a) state data mode)) ∧
      d.Books f (f.overwrite a b (newSide (f a) state data mode)) := by
  obtain ⟨hab, hspan, rfl, h'⟩ := h.of_assign_eq_ok state data mode hok
  have hsize : (b - a).toNat = b.toNat - a.toNat :=
    UInt64.toNat_sub_of_le _ _ (UInt64.le_of_lt hab)
  have hlen := toNat_sub_le hab hspan
  have hle := f.heldIn_le a b
  have hleft : ∀ c t, Fits ((∅ : Deltas).amount c t - f.heldIn a b c t) := by
    intro c t
    have hct := hle c t
    rw [Deltas.amount_empty]
    simp only [Fits]
    omega
  obtain ⟨hsums, hamount⟩ := retire_exact (h.tiles_segments hab) hlen hleft
  have hspan' : (span (b - a)).toInt = ((b - a).toNat : ℤ) := by
    rw [toInt_span]
    omega
  -- the new run makes up for the bytes booked off
  have hnew : ∀ c t, (retire ∅ (m.segments a b)).amount c t +
      (if (newSide (f a) state data mode).CountsIn c t then (span (b - a)).toInt else 0) =
        ((f.overwrite a b (newSide (f a) state data mode)).held c t : ℤ) - f.held c t := by
    intro c t
    have hheld := Bytes.held_overwrite (f := f) (a := a) (b := b) (newSide (f a) state data mode) c t
    rw [hamount, Deltas.amount_empty, hspan', hsize]
    simp only [Side.share] at hheld
    split_ifs at hheld ⊢ <;> omega
  have hfits : ∀ c t, Fits ((retire ∅ (m.segments a b)).amount c t +
      if (newSide (f a) state data mode).CountsIn c t then (span (b - a)).toInt else 0) := by
    intro c t
    have hct := hle c t
    rw [hamount, Deltas.amount_empty, hspan', hsize]
    simp only [Fits]
    split_ifs <;> omega
  obtain ⟨hsums', hamount'⟩ := Deltas.charge_exact (newSide (f a) state data mode) hfits
  refine ⟨?_, h', ⟨?_, ?_⟩⟩
  · intro z hz
    rw [assignSums, h.sideAt_eq] at hz
    rcases List.mem_append.mp hz with hz | hz
    · exact hsums z hz
    · exact hsums' z (hspan' ▸ hz)
  · exact (distinct_retire Deltas.distinct_empty).charge _ _ _
  · intro c t
    exact (hamount' c t).trans (hnew c t)

omit [DecidableEq μ] in
/-- A count changes by no more than the length of the range that is overwritten. -/
lemma fits_held_sub {g : Bytes μ} (hlen : b.toNat - a.toNat ≤ 2 ^ 63 - 1)
    (hout : ∀ x, ¬ (a ≤ x ∧ x < b) → g x = f x) (c : Column) (t : Tag) :
    Fits ((g.held c t : ℤ) - f.held c t) := by
  have hheld := Bytes.held_add_heldIn hout c t
  have hf := f.heldIn_le a b c t
  have hg := g.heldIn_le a b c t
  simp only [Fits]
  omega

end RegionMap

end RegionLedger
