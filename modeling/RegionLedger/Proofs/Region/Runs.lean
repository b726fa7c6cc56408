import RegionLedger.Proofs.Region.Assign

/-!
# Ranges cut into runs

The boundaries inside a range cut it into runs.  They fill the range, each shows the side that its
bytes have, and one stops where the side changes.  Some of the runs can then be overwritten one after
the other: a run is not touched before its turn.

* `Bytes.Shows` — some runs of a range, in ascending order.
* `Bytes.overwriteEach` — one run after the other gets the image of its side.
* `Bytes.Tiles`, `RegionMap.Represents.tiles_segments` — the runs of a range fill it.
-/

namespace RegionLedger

variable {μ : Type}

namespace Bytes

variable {f f' : Bytes μ} {a b : Address} {runs : List (Run μ)}

/-! ## Overwriting several runs -/

/-- Some runs between an address and `b`, in ascending order, with the sides that the bytes have. -/
inductive Shows (f : Bytes μ) (b : Address) : Address → List (Run μ) → Prop where
  | nil {a : Address} : Shows f b a []
  | cons {a : Address} {r : Run μ} {rest : List (Run μ)} (le_start : a ≤ r.start)
      (start_lt : r.start < r.stop) (stop_le : r.stop ≤ b)
      (same : ∀ x, r.start ≤ x → x < r.stop → f x = r.side) (tail : Shows f b r.stop rest) :
      Shows f b a (r :: rest)

/-- One run after the other gets the image of its side. -/
def overwriteEach (g : Side μ → Side μ) : Bytes μ → List (Run μ) → Bytes μ
  | f, [] => f
  | f, r :: rest => overwriteEach g (f.overwrite r.start r.stop (g r.side)) rest

lemma Shows.mono (h : f.Shows b a runs) {a' : Address} (ha : a' ≤ a) : f.Shows b a' runs := by
  cases h with
  | nil => exact .nil
  | cons hstart hlt hstop same tail => exact .cons (by grind) hlt hstop same tail

lemma Shows.congr (h : f.Shows b a runs) (hf : ∀ x, a ≤ x → f' x = f x) : f'.Shows b a runs := by
  induction h with
  | nil => exact .nil
  | cons hstart hlt hstop same tail ih =>
      refine .cons hstart hlt hstop ?_ (ih ?_)
      · intro x hx hxs
        rw [hf x (by grind), same x hx hxs]
      · intro x hx
        exact hf x (by grind)

lemma Shows.le_start_of_mem (h : f.Shows b a runs) {r : Run μ} (hr : r ∈ runs) : a ≤ r.start := by
  induction h with
  | nil => cases hr
  | cons hstart hlt _ _ _ ih =>
      rcases List.mem_cons.mp hr with rfl | hr
      · exact hstart
      · have hle := ih hr
        grind

/-- No run is empty. -/
lemma Shows.start_lt_of_mem (h : f.Shows b a runs) {r : Run μ} (hr : r ∈ runs) :
    r.start < r.stop := by
  induction h with
  | nil => cases hr
  | cons _ hlt _ _ _ ih =>
      rcases List.mem_cons.mp hr with rfl | hr
      · exact hlt
      · exact ih hr

/-- Every byte of a run has its side. -/
lemma Shows.same_of_mem (h : f.Shows b a runs) {r : Run μ} (hr : r ∈ runs) :
    ∀ x, r.start ≤ x → x < r.stop → f x = r.side := by
  induction h with
  | nil => cases hr
  | cons _ _ _ same _ ih =>
      rcases List.mem_cons.mp hr with rfl | hr
      · exact same
      · exact ih hr

/-- A run that is not the first starts further on. -/
lemma Shows.lt_start_of_append {earlier later : List (Run μ)} {r : Run μ}
    (h : f.Shows b a (earlier ++ r :: later)) (hearlier : earlier ≠ []) : a < r.start := by
  cases earlier with
  | nil => exact absurd rfl hearlier
  | cons r₀ rest =>
      cases h with
      | cons hstart hlt _ _ tail =>
          have hle := tail.le_start_of_mem (r := r) (by simp)
          grind

/-- The runs after the first are still to come when the first is overwritten. -/
lemma Shows.tail_overwrite {r : Run μ} (h : f.Shows b a (r :: runs)) (s : Side μ) :
    (f.overwrite r.start r.stop s).Shows b r.stop runs := by
  cases h with
  | cons _ _ _ _ tail =>
      refine tail.congr ?_
      intro x hx
      exact overwrite_of_not_mem (by grind)

/-- **Every byte of the runs gets the image of its side, and no other byte changes.** -/
lemma Shows.overwriteEach_apply (h : f.Shows b a runs) (g : Side μ → Side μ) (x : Address) :
    f.overwriteEach g runs x =
      if ∃ r ∈ runs, r.start ≤ x ∧ x < r.stop then g (f x) else f x := by
  induction runs generalizing f a with
  | nil => simp [overwriteEach]
  | cons r rest ih =>
      rw [overwriteEach, ih (h.tail_overwrite _)]
      simp only [List.mem_cons, exists_eq_or_imp]
      cases h with
      | cons hstart hlt hstop same tail =>
          by_cases hin : r.start ≤ x ∧ x < r.stop
          · -- the later runs start after this one
            have hnone : ¬ ∃ r' ∈ rest, r'.start ≤ x ∧ x < r'.stop := by
              rintro ⟨r', hr', hx⟩
              have hle := tail.le_start_of_mem hr'
              grind
            rw [if_neg hnone, if_pos (.inl hin), overwrite_of_mem hin.1 hin.2, same x hin.1 hin.2]
          · rw [overwrite_of_not_mem hin]
            simp only [hin, false_or]

/-! ## Tilings -/

variable [Metadata μ]

/-- The runs fill the range from an address to `b`, and each but the last stops at a jump. -/
inductive Tiles (f : Bytes μ) (b : Address) : Address → List (Run μ) → Prop where
  | last {a : Address} {s : Side μ} (start_lt : a < b) (same : ∀ x, a ≤ x → x < b → f x = s) :
      Tiles f b a [⟨a, b, s⟩]
  | cons {a k : Address} {s : Side μ} {rest : List (Run μ)} (start_lt : a < k) (stop_lt : k < b)
      (same : ∀ x, a ≤ x → x < k → f x = s) (jump : f.Jumps k) (tail : Tiles f b k rest) :
      Tiles f b a (⟨a, k, s⟩ :: rest)

/-- A run of a tiling lies in the range, shows the side of its bytes, and its ends are those of the
range or jumps. -/
lemma Tiles.mem (h : f.Tiles b a runs) {r : Run μ} (hr : r ∈ runs) :
    (a ≤ r.start ∧ r.start < r.stop ∧ r.stop ≤ b) ∧
      (∀ x, r.start ≤ x → x < r.stop → f x = r.side) ∧
      (r.start = a ∨ f.Jumps r.start) ∧ (r.stop = b ∨ f.Jumps r.stop) := by
  induction h with
  | last hab same =>
      obtain rfl := List.mem_singleton.mp hr
      exact ⟨⟨UInt64.le_refl _, hab, UInt64.le_refl _⟩, same, .inl rfl, .inl rfl⟩
  | cons hak hkb same jump tail ih =>
      rcases List.mem_cons.mp hr with rfl | hr
      · exact ⟨⟨UInt64.le_refl _, hak, UInt64.le_of_lt hkb⟩, same, .inl rfl, .inr jump⟩
      · obtain ⟨⟨hk, hlt, hb⟩, hsame, hstart, hstop⟩ := ih hr
        refine ⟨⟨by grind, hlt, hb⟩, hsame, ?_, hstop⟩
        rcases hstart with hstart | hstart
        · exact .inr (hstart ▸ jump)
        · exact .inr hstart

/-- Every byte of a tiled range lies in one of the runs. -/
lemma Tiles.exists_mem (h : f.Tiles b a runs) {x : Address} (ha : a ≤ x) (hb : x < b) :
    ∃ r ∈ runs, r.start ≤ x ∧ x < r.stop := by
  induction h with
  | last => exact ⟨_, List.mem_singleton_self _, ha, hb⟩
  | @cons a k s rest _ _ _ _ _ ih =>
      by_cases hk : x < k
      · exact ⟨_, List.mem_cons_self, ha, hk⟩
      · obtain ⟨r, hr, hx⟩ := ih (by grind)
        exact ⟨r, List.mem_cons_of_mem _ hr, hx⟩

/-- The selected runs of a tiled range cover its bytes of the selected sides. -/
lemma Tiles.exists_mem_filter_iff (h : f.Tiles b a runs) (p : Side μ → Bool) (x : Address) :
    (∃ r ∈ runs.filter fun r => p r.side, r.start ≤ x ∧ x < r.stop) ↔
      (a ≤ x ∧ x < b) ∧ p (f x) := by
  constructor
  · rintro ⟨r, hr, hx⟩
    obtain ⟨hr, hp⟩ := List.mem_filter.mp hr
    obtain ⟨⟨ha, _, hb⟩, hsame, _⟩ := h.mem hr
    exact ⟨by grind, by rwa [hsame x hx.1 hx.2]⟩
  · rintro ⟨⟨ha, hb⟩, hp⟩
    obtain ⟨r, hr, hx⟩ := h.exists_mem ha hb
    refine ⟨r, List.mem_filter.mpr ⟨hr, ?_⟩, hx⟩
    rwa [← (h.mem hr).2.1 x hx.1 hx.2]

/-- Selecting runs of a tiled range leaves runs in ascending order. -/
lemma Tiles.shows_filter (h : f.Tiles b a runs) (p : Run μ → Bool) :
    f.Shows b a (runs.filter p) := by
  induction h with
  | last hab same =>
      rw [List.filter_cons]
      split_ifs
      · exact .cons (UInt64.le_refl _) hab (UInt64.le_refl _) same .nil
      · exact .nil
  | cons hak hkb same jump tail ih =>
      rw [List.filter_cons]
      split_ifs
      · exact .cons (UInt64.le_refl _) hak (UInt64.le_of_lt hkb) same ih
      · exact ih.mono (UInt64.le_of_lt hak)

end Bytes

namespace RegionMap

variable [Metadata μ] {m : RegionMap μ} {f : Bytes μ} {a b : Address}

/-! ## The runs of a range -/

/-- Up to the first boundary of a list that has all jumps from there on, the side stays. -/
lemma eq_of_lt_first {k : Address} {c : Boundary μ} {rest : List (Address × Boundary μ)}
    (hsorted : ((k, c) :: rest).Pairwise fun p q => p.1 < q.1)
    (hmem : ∀ z, a < z → z < k → f.Jumps z → (z, f.boundary z) ∈ (k, c) :: rest) {x : Address}
    (ha : a ≤ x) (hk : x < k) : f x = f a := by
  refine Bytes.eq_of_forall_not_jumps ha ?_
  intro z hz hzx hjump
  have hzk : z < k := by grind
  rcases List.mem_cons.mp (hmem z hz hzk hjump) with heq | hin
  · exact UInt64.ne_of_lt hzk (Prod.mk.inj heq).1
  · have hlt := (List.pairwise_cons.mp hsorted).1 _ hin
    grind

/-- Cutting a range at its jumps tiles it. -/
lemma tiles_cut {pts : List (Address × Boundary μ)} (hab : a < b)
    (hmem : ∀ p, p ∈ pts ↔ (a < p.1 ∧ p.1 < b) ∧ f.Jumps p.1 ∧ p.2 = f.boundary p.1)
    (hsorted : pts.Pairwise fun p q => p.1 < q.1) : f.Tiles b a (cut a b (f a) pts) := by
  induction pts generalizing a with
  | nil =>
      refine .last hab ?_
      intro x ha hb
      refine Bytes.eq_of_forall_not_jumps ha ?_
      intro z hz hzx hjump
      exact absurd ((hmem (z, f.boundary z)).mpr ⟨⟨hz, by grind⟩, hjump, rfl⟩) (by simp)
  | cons p rest ih =>
      obtain ⟨k, c⟩ := p
      obtain ⟨hfirst, hrest⟩ := List.pairwise_cons.mp hsorted
      obtain ⟨⟨hak, hkb⟩, hjump, hc⟩ := (hmem (k, c)).mp List.mem_cons_self
      simp only at hak hkb hjump hc
      subst hc
      refine .cons hak hkb ?_ hjump (ih hkb ?_ hrest)
      · intro x ha hk
        refine eq_of_lt_first hsorted ?_ ha hk
        intro z hz hzk hjump'
        exact (hmem (z, f.boundary z)).mpr ⟨⟨hz, UInt64.lt_trans hzk hkb⟩, hjump', rfl⟩
      · intro q
        constructor
        · intro hq
          obtain ⟨⟨_, hqb⟩, hq'⟩ := (hmem q).mp (List.mem_cons_of_mem _ hq)
          exact ⟨⟨hfirst q hq, hqb⟩, hq'⟩
        · rintro ⟨⟨hkq, hqb⟩, hq'⟩
          have hin := (hmem q).mpr ⟨⟨UInt64.lt_trans hak hkq, hqb⟩, hq'⟩
          rcases List.mem_cons.mp hin with rfl | hin
          · exact absurd hkq (UInt64.lt_irrefl _)
          · exact hin

namespace Represents

/-- **The runs of a range tile it.** -/
theorem tiles_segments (h : m.Represents f) (hab : a < b) : f.Tiles b a (m.segments a b) := by
  rw [segments, if_pos hab, h.sideAt_eq]
  exact tiles_cut hab (h.mem_pointsIn_iff a b) (h.pairwise_pointsIn _ _)

end Represents

end RegionMap

end RegionLedger
