import RegionLedger.Proofs.Region.Represents

/-!
# Assigning a side to a range

An assignment makes at most as many edits as there are boundaries inside the range, and two more.
What it leaves stands for the bytes in which the range is overwritten.

* `RegionMap.room_eq` — when there is room for further boundaries.
* `RegionMap.Represents.edits_spec` — the edits of an assignment, one after the other.
* `RegionMap.moved`, `RegionMap.assign_eq` — what an assignment books; its room, edits and answer.
* `RegionMap.assign_invalid`, `RegionMap.Represents.assign_full`, `RegionMap.Represents.assign_ok` —
  the three answers of an assignment, each with the exact condition under which it is given.
-/

namespace RegionLedger

variable {μ : Type}

/-! ## Edits -/

/-- Dropping boundaries never fails. -/
lemma foldlM_drop (ks : List Address) {t : Treap Address (Boundary μ)} (ht : t.WellFormed) :
    ∃ t', (ks.map Edit.drop).foldlM Edit.apply t = .ok t' ∧ t'.WellFormed ∧ t'.keys ⊆ t.keys ∧
      ∀ p, p ∈ t'.toList ↔ p ∈ t.toList ∧ p.1 ∉ ks := by
  induction ks generalizing t with
  | nil => exact ⟨t, rfl, ht, Finset.Subset.refl _, by simp⟩
  | cons k ks ih =>
      obtain ⟨hwf, hmem, _⟩ := ht.erase_spec k
      obtain ⟨t', hfold, hwf', _, hmem'⟩ := ih hwf
      have hmem'' : ∀ p, p ∈ t'.toList ↔ p ∈ t.toList ∧ p.1 ∉ k :: ks := by
        intro p
        rw [hmem', hmem, List.mem_cons, not_or, and_assoc]
      refine ⟨t', hfold, hwf', ?_, hmem''⟩
      intro x hx
      obtain ⟨c, hc⟩ := Treap.mem_keys.mp hx
      exact Treap.mem_keys.mpr ⟨c, ((hmem'' _).mp hc).1⟩

/-- A boundary is placed by storing it, or by dropping what is there if it changes nothing. -/
lemma apply_place [DecidableEq μ] [Metadata μ] {t : Treap Address (Boundary μ)} (ht : t.WellFormed)
    (key : Address) (b : Boundary μ) (room : t.contains key = true ∨ t.size < Slots.limit) :
    ∃ t', (RegionMap.place key b).apply t = .ok t' ∧ t'.WellFormed ∧ t'.keys ⊆ t.keys ∪ {key} ∧
      ∀ p, p ∈ t'.toList ↔
        (p = (key, b) ∧ b.incoming ≠ b.outgoing) ∨ (p ∈ t.toList ∧ p.1 ≠ key) := by
  obtain ⟨t', happly, hwf, hmem⟩ : ∃ t', (RegionMap.place key b).apply t = .ok t' ∧
      t'.WellFormed ∧ ∀ p, p ∈ t'.toList ↔
        (p = (key, b) ∧ b.incoming ≠ b.outgoing) ∨ (p ∈ t.toList ∧ p.1 ≠ key) := by
    by_cases hb : b.incoming = b.outgoing
    · obtain ⟨hwf, hmem, _⟩ := ht.erase_spec key
      refine ⟨(t.erase key).2, ?_, hwf, ?_⟩
      · simp [RegionMap.place, Boundary.isVoid, hb, Edit.apply]
      · intro p
        rw [hmem]
        simp [hb]
    · obtain ⟨t', hinsert, hwf, hmem⟩ := ht.insert_spec key b room
      refine ⟨t', ?_, hwf, ?_⟩
      · simp [RegionMap.place, Boundary.isVoid, hb, Edit.apply, hinsert]
      · intro p
        rw [hmem]
        simp [hb]
  refine ⟨t', happly, hwf, ?_, hmem⟩
  intro x hx
  obtain ⟨c, hc⟩ := Treap.mem_keys.mp hx
  rcases (hmem _).mp hc with ⟨hxk, _⟩ | ⟨hc, _⟩
  · simp [(Prod.mk.inj hxk).1]
  · exact Finset.mem_union_left _ (Treap.mem_keys.mpr ⟨c, hc⟩)

namespace RegionMap

/-! ## Room -/

/-- The addresses at which a boundary is stored. -/
def keys (m : RegionMap μ) : Finset Address := m.boundaries.keys

lemma card_keys {m : RegionMap μ} (hm : m.boundaries.WellFormed) : m.keys.card = m.size :=
  hm.card_keys

/-- Two addresses are at most two more boundaries. -/
lemma card_union_pair_le {m : RegionMap μ} (hm : m.boundaries.WellFormed) (a b : Address) :
    (m.keys ∪ {a, b}).card ≤ m.size + 2 := by
  have hunion := Finset.card_union_le m.keys {a, b}
  have htwo : ({a, b} : Finset Address).card ≤ 2 := Finset.card_le_two
  rw [card_keys hm] at hunion
  omega

/-- The boundaries stored, and those for which room is needed at some addresses. -/
lemma card_union_eq {m : RegionMap μ} (hm : m.boundaries.WellFormed) (ks : List Address) :
    (m.keys ∪ ks.toFinset).card =
      m.size + (ks.filter fun k => !m.boundaries.contains k).toFinset.card := by
  have hset : ks.toFinset \ m.keys = (ks.filter fun k => !m.boundaries.contains k).toFinset := by
    ext k
    rw [Finset.mem_sdiff, List.mem_toFinset, List.mem_toFinset, List.mem_filter, keys,
      ← hm.contains_iff]
    simp
  rw [← hset, size, ← hm.card_keys, Finset.union_comm, ← Finset.card_sdiff_add_card, Nat.add_comm]
  rfl

lemma card_union_le {m : RegionMap μ} (hm : m.boundaries.WellFormed) (ks : List Address) :
    (m.keys ∪ ks.toFinset).card ≤ m.size + m.missing ks := by
  rw [card_union_eq hm]
  exact Nat.add_le_add_left (List.toFinset_card_le _) _

/-- Where no address is repeated, they are as many. -/
lemma size_add_missing {m : RegionMap μ} (hm : m.boundaries.WellFormed) {ks : List Address}
    (hks : ks.Nodup) : m.size + m.missing ks = (m.keys ∪ ks.toFinset).card := by
  rw [card_union_eq hm, List.toFinset_card_of_nodup (hks.filter _), missing]

/-- Room is made exactly if the boundaries do not outnumber the slots. -/
lemma room_eq {m : RegionMap μ} (hm : m.boundaries.WellFormed) (n : ℕ) :
    m.room n = if m.size + n ≤ Slots.limit then .ok () else .error (.outOfMemory .outOfSlots) := by
  have h := hm.reserve_eq_ok_iff n
  rw [room, size]
  split_ifs with hn
  · rw [h.mpr hn]
    rfl
  · have hfull : m.boundaries.reserve n = .error .outOfSlots := by
      rw [← h] at hn
      rw [Treap.reserve] at hn ⊢
      split_ifs at hn ⊢
      · exact absurd rfl hn
      · rfl
    rw [hfull]
    rfl

variable [Metadata μ]

namespace Represents

variable {m : RegionMap μ} {f : Bytes μ} {a b : Address}

lemma mem_keys_iff (h : m.Represents f) (x : Address) : x ∈ m.keys ↔ f.Jumps x := by
  rw [keys, Treap.mem_keys]
  constructor
  · rintro ⟨c, hc⟩
    exact ((h.mem_points_iff _).mp hc).1
  · intro hx
    exact ⟨_, h.mem_points_of_jumps hx⟩

/-- Overwriting a range adds boundaries at its ends only. -/
lemma keys_subset {m' : RegionMap μ} {s : Side μ} (h : m.Represents f)
    (h' : m'.Represents (f.overwrite a b s)) (hab : a < b) : m'.keys ⊆ m.keys ∪ {a, b} := by
  intro x hx
  rw [h'.mem_keys_iff, Bytes.jumps_overwrite_iff hab] at hx
  simp only [Finset.mem_union, h.mem_keys_iff, Finset.mem_insert, Finset.mem_singleton]
  split_ifs at hx <;> tauto

/-- The boundaries that an assignment drops are the jumps strictly inside its range. -/
lemma mem_inner_iff (h : m.Represents f) (x : Address) :
    x ∈ (m.pointsIn (.excluded a) (.excluded b)).map Prod.fst ↔ (a < x ∧ x < b) ∧ f.Jumps x := by
  simp only [List.mem_map, h.mem_pointsIn_iff]
  constructor
  · rintro ⟨p, ⟨hrange, hjump, _⟩, rfl⟩
    exact ⟨hrange, hjump⟩
  · rintro ⟨hrange, hjump⟩
    exact ⟨(x, f.boundary x), ⟨hrange, hjump, rfl⟩, rfl⟩

variable [DecidableEq μ]

/-- **The edits of an assignment.**  They find room if its ends do, and leave the boundaries of the
overwritten bytes. -/
theorem edits_spec (h : m.Represents f) (hab : a < b) {new : Side μ}
    (hnew : new.state = .released → new = .released)
    (room : (m.keys ∪ {a, b}).card ≤ Slots.limit) :
    ∃ t, (m.edits a b new).foldlM Edit.apply m.boundaries = .ok t ∧
      Represents ⟨t⟩ (f.overwrite a b new) := by
  have hdrops : (m.pointsIn (.excluded a) (.excluded b)).map (fun p => Edit.drop p.1) =
      ((m.pointsIn (.excluded a) (.excluded b)).map Prod.fst).map (Edit.drop (μ := μ)) := by
    rw [List.map_map]
    rfl
  obtain ⟨t₁, hfold₁, hwf₁, hsub₁, hmem₁⟩ :=
    foldlM_drop ((m.pointsIn (.excluded a) (.excluded b)).map Prod.fst) h.wellFormed
  have hkeys₁ : t₁.keys ⊆ m.keys ∪ {a, b} := hsub₁.trans Finset.subset_union_left
  obtain ⟨t₂, hplace₂, hwf₂, hsub₂, hmem₂⟩ := apply_place hwf₁ a
    { incoming := m.sideBefore a, outgoing := new } (hwf₁.room_of_mem hkeys₁ (by simp) room)
  have hkeys₂ : t₂.keys ⊆ m.keys ∪ {a, b} :=
    hsub₂.trans (Finset.union_subset hkeys₁ (by simp))
  obtain ⟨t₃, hplace₃, hwf₃, _, hmem₃⟩ := apply_place hwf₂ b
    { incoming := new, outgoing := m.sideAt b } (hwf₂.room_of_mem hkeys₂ (by simp) room)
  refine ⟨t₃, ?_, hwf₃, ?_, ?_, ?_⟩
  · rw [edits, hdrops, List.foldlM_append, hfold₁]
    show List.foldlM Edit.apply t₁ _ = _
    rw [List.foldlM_cons, hplace₂]
    show List.foldlM Edit.apply t₂ _ = _
    rw [List.foldlM_cons, hplace₃]
    rfl
  · intro p
    obtain ⟨x, c⟩ := p
    rw [points, hmem₃, hmem₂, hmem₁, h.mem_inner_iff, ← points, h.mem_points_iff, h.sideBefore_eq,
      h.sideAt_eq, Bytes.jumps_overwrite_iff hab, Bytes.boundary_overwrite hab]
    simp only [Prod.mk.injEq]
    split_ifs with hxa hxb hin
    · have hne : x ≠ b := by grind
      simp only [hxa, true_and, ne_eq, not_true, and_false, or_false]
      rw [hxa] at hne
      simp only [hne, false_and, false_or, not_false_eq_true, and_true]
      exact and_comm
    · simp only [hxb, true_and, ne_eq, not_true, and_false, or_false]
      exact and_comm
    · -- inside the range every jump was dropped
      simp only [hxa, hxb, hin, false_and, false_or, true_and, and_true, not_false_eq_true, ne_eq,
        iff_false, not_and, not_not]
      intro hjump hnot
      exact absurd hnot hjump.1
    · simp only [hxa, hxb, hin, false_and, false_or, and_true, not_false_eq_true, ne_eq]
  · intro x hx
    by_cases hin : a ≤ x ∧ x < b
    · rw [Bytes.overwrite_of_mem hin.1 hin.2] at hx ⊢
      exact hnew hx
    · rw [Bytes.overwrite_of_not_mem hin] at hx ⊢
      exact h.clean x hx
  · have hout : ¬ (a ≤ lastAddress ∧ lastAddress < b) := by
      have hb := le_lastAddress b
      grind
    rw [Bytes.overwrite_of_not_mem hout, h.last_released]

end Represents

/-! ## Answers -/

/-- What an assignment books: the runs it overwrites are booked off, the new one is booked. -/
def moved [DecidableEq μ] (m : RegionMap μ) (a b : Address) (new : Side μ) : Deltas :=
  enter (retire ∅ (m.segments a b)) ⟨a, b, new⟩

/-- An assignment to a range of at most the longest span. -/
lemma assign_eq [DecidableEq μ] (m : RegionMap μ) {a b : Address} (hab : ¬ (b ≤ a ∨ maxSpan < b - a))
    (state : State) (data : μ) (mode : Overwrite) : m.assign a b state data mode =
      (m.room (m.missing [a, b])).bind fun _ =>
        (((m.edits a b (newSide (m.sideAt a) state data mode)).foldlM Edit.apply
          m.boundaries).mapError .outOfMemory).map fun t =>
            (m.moved a b (newSide (m.sideAt a) state data mode), ⟨t⟩) := by
  rw [assign, if_neg hab]
  cases m.room (m.missing [a, b]) <;> rfl

section Answers

variable [DecidableEq μ] {m : RegionMap μ} {f : Bytes μ} {a b : Address} (state : State) (data : μ)
  (mode : Overwrite)

omit [DecidableEq μ] in
lemma newSide_clean (found : Side μ) :
    (newSide found state data mode).state = .released →
      newSide found state data mode = .released := by
  unfold newSide
  split <;> intro h
  · rfl
  · simp_all
  · split_ifs at h ⊢ <;> simp_all

/-- An empty range, and one longer than the longest span, is refused. -/
theorem assign_invalid (hab : ¬ (a < b ∧ b - a ≤ maxSpan)) :
    m.assign a b state data mode = .error (.invalidRange a (b - a)) := by
  rw [assign, if_pos (by grind)]
  rfl

/-- A valid range is refused if its ends find no room. -/
theorem Represents.assign_full (h : m.Represents f) (hab : a < b) (hlen : b - a ≤ maxSpan)
    (full : Slots.limit < m.size + m.missing [a, b]) :
    m.assign a b state data mode = .error (.outOfMemory .outOfSlots) := by
  rw [assign, if_neg (by grind), room_eq h.wellFormed, if_neg (by omega)]
  rfl

/-- **A valid range whose ends find room is overwritten.** -/
theorem Represents.assign_ok (h : m.Represents f) (hab : a < b) (hlen : b - a ≤ maxSpan)
    (room : m.size + m.missing [a, b] ≤ Slots.limit) :
    ∃ m', m.assign a b state data mode = .ok (m.moved a b (newSide (f a) state data mode), m') ∧
      m'.Represents (f.overwrite a b (newSide (f a) state data mode)) := by
  have hnodup : [a, b].Nodup := by simp; grind
  have hroom : (m.keys ∪ {a, b}).card ≤ Slots.limit := by
    rw [size_add_missing h.wellFormed hnodup] at room
    simpa using room
  obtain ⟨t, hfold, hrep⟩ := h.edits_spec hab (newSide_clean state data mode (f a)) hroom
  refine ⟨⟨t⟩, ?_, hrep⟩
  rw [assign, if_neg (by grind), room_eq h.wellFormed, if_pos room, h.sideAt_eq]
  show ((List.foldlM Edit.apply m.boundaries _).mapError _ >>= _) = _
  rw [hfold]
  rfl

/-- What it means that an assignment is carried out. -/
theorem Represents.of_assign_eq_ok {m' : RegionMap μ} {d : Deltas} (h : m.Represents f)
    (hok : m.assign a b state data mode = .ok (d, m')) :
    a < b ∧ b - a ≤ maxSpan ∧ d = m.moved a b (newSide (f a) state data mode) ∧
      m'.Represents (f.overwrite a b (newSide (f a) state data mode)) := by
  by_cases hab : a < b ∧ b - a ≤ maxSpan
  · by_cases room : m.size + m.missing [a, b] ≤ Slots.limit
    · obtain ⟨m₁, hassign, h₁⟩ := h.assign_ok state data mode hab.1 hab.2 room
      rw [hassign, Except.ok.injEq, Prod.mk.injEq] at hok
      obtain ⟨rfl, rfl⟩ := hok
      exact ⟨hab.1, hab.2, rfl, h₁⟩
    · rw [h.assign_full state data mode hab.1 hab.2 (by omega)] at hok
      cases hok
  · rw [assign_invalid state data mode hab] at hok
    cases hok

end Answers

end RegionMap

end RegionLedger
