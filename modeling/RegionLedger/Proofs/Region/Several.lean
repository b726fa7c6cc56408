import RegionLedger.Proofs.Region.Booking

/-!
# Assignments to several runs

Some runs of a range are assigned a new side one after the other.  A run is not touched before its
turn, so each assignment finds just the run; and what the assignments moved can be added up, since no
count changes by more than the length of the range.

* `RegionMap.assignRun` — one assignment out of several, with the sum so far.
* `RegionMap.eachSums` — the numbers formed on the way.
* `RegionMap.Represents.foldlM_assignRun` — all of the assignments.
* `RegionMap.Represents.assignEach_full`, `RegionMap.Represents.assignEach_ok` — the two answers of
  an assignment to several runs, each with the exact condition under which it is given.
-/

namespace RegionLedger

namespace RegionMap

variable {μ : Type} [Metadata μ] {m : RegionMap μ} {f g : Bytes μ} {a b : Address}

/-- The addresses at which the runs start and stop. -/
def ends (runs : List (Run μ)) : List Address := runs.flatMap fun r => [r.start, r.stop]

/-- At most the two ends of a tiled range are missing, whichever of its runs are selected. -/
lemma missing_ends_le (h : m.Represents f) {runs : List (Run μ)} (hruns : f.Tiles b a runs)
    (p : Run μ → Bool) :
    m.missing (ends (runs.filter p)) ≤ m.missing [a] + m.missing [b] := by
  have hsplit : ∀ r : Run μ, ∀ rest, m.missing (ends (r :: rest)) =
      m.missing [r.start] + m.missing [r.stop] + m.missing (ends rest) := by
    intro r rest
    simp only [missing, ends, List.flatMap_cons, List.filter_append, List.length_append]
    rw [← List.singleton_append, List.filter_append, List.length_append]
  induction hruns with
  | @last a s _ _ =>
      rw [List.filter_cons]
      split_ifs
      · rw [hsplit]
        simp [missing, ends]
      · simp [missing, ends]
  | @cons a k s rest _ _ _ jump _ ih =>
      have hk : m.missing [k] = 0 := by
        have hin := (h.wellFormed.contains_iff k).mpr ((h.mem_keys_iff k).mpr jump)
        simp [missing, hin]
      rw [List.filter_cons]
      split_ifs
      · rw [hsplit]
        simp only [hk] at ih ⊢
        omega
      · omega

variable [DecidableEq μ]

/-- The side that an assignment gives to a run. -/
def newSideBy (c : Side μ → State × μ × Overwrite) (s : Side μ) : Side μ :=
  newSide s (c s).1 (c s).2.1 (c s).2.2

/-- One assignment out of several. -/
def assignRun (c : Side μ → State × μ × Overwrite) (acc : Deltas × RegionMap μ) (r : Run μ) :
    Except RegionError (Deltas × RegionMap μ) := do
  let (d, m) ← acc.2.assign r.start r.stop (c r.side).1 (c r.side).2.1 (c r.side).2.2
  let sum ← (acc.1.plus d).mapError .overflow
  return (sum, m)

variable {c : Side μ → State × μ × Overwrite} {r : Run μ} {d sum : Deltas}
  {acc acc' : Deltas × RegionMap μ}

lemma assignRun_eq_ok {m' : RegionMap μ}
    (hassign : acc.2.assign r.start r.stop (c r.side).1 (c r.side).2.1 (c r.side).2.2 = .ok (d, m'))
    (hplus : acc.1.plus d = .ok sum) : assignRun c acc r = .ok (sum, m') :=
  bind_eq_ok_iff.mpr ⟨(d, m'), hassign,
    bind_eq_ok_iff.mpr ⟨sum, mapError_eq_ok_iff.mpr hplus, rfl⟩⟩

lemma exists_of_assignRun_eq_ok (h : assignRun c acc r = .ok acc') :
    ∃ d, acc.2.assign r.start r.stop (c r.side).1 (c r.side).2.1 (c r.side).2.2 = .ok (d, acc'.2) ∧
      acc.1.plus d = .ok acc'.1 := by
  obtain ⟨⟨d, m'⟩, hassign, h⟩ := bind_eq_ok_iff.mp h
  obtain ⟨sum, hplus, ⟨⟩⟩ := bind_eq_ok_iff.mp h
  exact ⟨d, hassign, mapError_eq_ok_iff.mp hplus⟩

lemma assignEach_eq (m : RegionMap μ) (runs : List (Run μ))
    (c : Side μ → State × μ × Overwrite) :
    m.assignEach runs c =
      m.room (m.missing (ends runs)) >>= fun _ => runs.foldlM (assignRun c) (∅, m) := rfl

/-- The numbers formed in an assignment to several runs. -/
def eachSums (choose : Side μ → State × μ × Overwrite) (acc : Deltas × RegionMap μ) :
    List (Run μ) → List ℤ
  | [] => []
  | r :: rest =>
      let (state, data, mode) := choose r.side
      acc.2.assignSums r.start r.stop state data mode ++
        match acc.2.assign r.start r.stop state data mode with
        | .ok (d, m) => acc.1.plusSums d ++
            match acc.1.plus d with
            | .ok sum => eachSums choose (sum, m) rest
            | .error _ => []
        | .error _ => []

namespace Represents

/-- **Each assignment finds just its run, and what it moved can be added.**  The deltas booked so far
are the change from the bytes `f` that there were at first.  The addresses in `s` make up for all
boundaries that can come up on the way, so that there is always room. -/
theorem foldlM_assignRun (h : m.Represents g) {runs : List (Run μ)} {start : Address}
    (hruns : g.Shows b start runs) (hstart : a ≤ start) (hlen : b.toNat - a.toNat ≤ 2 ^ 63 - 1)
    {s : Finset Address} (hs : s.card ≤ Slots.limit) (hkeys : m.keys ⊆ s)
    (hends : ∀ x ∈ ends runs, x ∈ s) (c : Side μ → State × μ × Overwrite)
    (hout : ∀ x, ¬ (a ≤ x ∧ x < b) → g x = f x) (hsum : sum.Books f g) :
    ∃ d m', runs.foldlM (assignRun c) (sum, m) = .ok (d, m') ∧
      m'.Represents (g.overwriteEach (newSideBy c) runs) ∧
      d.Books f (g.overwriteEach (newSideBy c) runs) ∧
      ∀ z ∈ eachSums c (sum, m) runs, Fits z := by
  induction runs generalizing m g start sum with
  | nil => exact ⟨sum, m, rfl, h, hsum, by simp [eachSums]⟩
  | cons r rest ih =>
      have hrest := hruns.tail_overwrite (newSideBy c r.side)
      cases hruns with
      | cons hle hlt hstop same tail =>
          have hin : m.keys ∪ {r.start, r.stop} ⊆ s := by
            refine Finset.union_subset hkeys ?_
            simp only [Finset.insert_subset_iff, Finset.singleton_subset_iff]
            exact ⟨hends _ (by simp [ends]), hends _ (by simp [ends])⟩
          have hnodup : [r.start, r.stop].Nodup := by simp; grind
          have hroom : m.size + m.missing [r.start, r.stop] ≤ Slots.limit := by
            rw [size_add_missing h.wellFormed hnodup]
            refine le_trans (Finset.card_le_card ?_) hs
            simpa using hin
          have hspan : r.stop - r.start ≤ maxSpan := by
            have hsize := UInt64.toNat_sub_of_le _ _ (UInt64.le_of_lt hlt)
            rw [UInt64.le_iff_toNat_le] at hstart hle hstop ⊢
            have hmax : maxSpan.toNat = 2 ^ 63 - 1 := rfl
            omega
          obtain ⟨m₁, hassign, -⟩ :=
            h.assign_ok (c r.side).1 (c r.side).2.1 (c r.side).2.2 hlt hspan hroom
          obtain ⟨hsums, h₁, hbooks⟩ := h.assign_books hassign
          rw [same r.start (UInt64.le_refl _) hlt] at hassign h₁ hbooks
          have hout₁ : ∀ x, ¬ (a ≤ x ∧ x < b) →
              g.overwrite r.start r.stop (newSideBy c r.side) x = f x := by
            intro x hx
            rw [Bytes.overwrite_of_not_mem (by grind), hout x hx]
          obtain ⟨sum₁, hplus, hbooks₁⟩ := hsum.exists_plus hbooks (fits_held_sub hlen hout₁)
          obtain ⟨d, m', hfold, h', hd, hsums'⟩ := ih h₁ hrest (by grind)
            ((h.keys_subset h₁ hlt).trans hin) (fun x hx => hends x (by simp [ends] at hx ⊢; grind))
            hout₁ hbooks₁
          refine ⟨d, m', ?_, h', hd, ?_⟩
          · have hrun : assignRun c (sum, m) r = .ok (sum₁, m₁) := assignRun_eq_ok hassign hplus
            rw [List.foldlM_cons, hrun]
            exact hfold
          · intro z hz
            rw [eachSums] at hz
            simp only [hassign, hplus, List.mem_append] at hz
            rcases hz with hz | hz | hz
            · exact hsums z hz
            · exact Deltas.fits_of_mem_entrySums hplus z hz
            · exact hsums' z hz

theorem assignEach_full (h : m.Represents f) {runs : List (Run μ)}
    (c : Side μ → State × μ × Overwrite) (full : Slots.limit < m.size + m.missing (ends runs)) :
    m.assignEach runs c = .error (.outOfMemory .outOfSlots) := by
  rw [assignEach_eq, room_eq h.wellFormed, if_neg (by omega)]
  rfl

/-- **Several runs whose ends find room are overwritten**, and the change is booked exactly. -/
theorem assignEach_ok (h : m.Represents f) {runs : List (Run μ)} (hruns : f.Shows b a runs)
    (hlen : b.toNat - a.toNat ≤ 2 ^ 63 - 1) (c : Side μ → State × μ × Overwrite)
    (room : m.size + m.missing (ends runs) ≤ Slots.limit) :
    ∃ d m', m.assignEach runs c = .ok (d, m') ∧
      m'.Represents (f.overwriteEach (newSideBy c) runs) ∧
      d.Books f (f.overwriteEach (newSideBy c) runs) ∧ ∀ z ∈ eachSums c (∅, m) runs, Fits z := by
  have hcard := card_union_le h.wellFormed (ends runs)
  obtain ⟨d, m', hfold, hanswer⟩ := h.foldlM_assignRun hruns (UInt64.le_refl a) hlen
    (hcard.trans room) Finset.subset_union_left
    (fun x hx => Finset.mem_union_right _ (List.mem_toFinset.mpr hx)) c (fun _ _ => rfl)
    (Deltas.books_empty f)
  refine ⟨d, m', ?_, hanswer⟩
  rw [assignEach_eq, room_eq h.wellFormed, if_pos room]
  exact hfold

end Represents

end RegionMap

end RegionLedger
