import RegionLedger.Proofs.Accounting.Running

/-!
# Totals moved in stages

Counters stop at zero and at the largest word, and what goes beyond an end is lost.  So it matters in
how many stages they are moved, unless every stage moves a counter the same way: then the last one
stops where a single move would.  Peaks are kept throughout if the committed bytes only go down and
are nowhere above their peak, as in all totals.

* `Totals.Peaked` — no count of committed bytes is above its peak.
* `Deltas.SameWay` — deltas that move every counter the same way, and the commits down.
* `Totals.Sorted.ext` — totals are determined by their tags and counters.
* `Totals.apply_plus` — two stages are as good as one.
-/

namespace RegionLedger

/-- Moves in one direction stop where a single one does. -/
lemma shiftSaturating_add {n : UInt64} {a b d : Int64} (hd : d.toInt = a.toInt + b.toInt)
    (hsame : 0 ≤ a.toInt ∧ 0 ≤ b.toInt ∨ a.toInt ≤ 0 ∧ b.toInt ≤ 0) :
    shiftSaturating (shiftSaturating n a) b = shiftSaturating n d := by
  have hlt := n.toNat_lt
  have hfirst := toNat_shiftSaturating_clamped n a
  have hsecond := toNat_shiftSaturating_clamped (shiftSaturating n a) b
  have hboth := toNat_shiftSaturating_clamped n d
  rw [hd] at hboth
  refine UInt64.toNat_inj.mp ?_
  omega

/-! ## The counters of one tag -/

namespace Counters

variable {c : Counters} {a b d : Delta}

lemma committed_shift_le (ha : a.commit.toInt ≤ 0) : (c.shift a).committed ≤ c.committed := by
  have hlt := c.committed.toNat_lt
  have hshift := toNat_shiftSaturating_clamped c.committed a.commit
  show shiftSaturating c.committed a.commit ≤ c.committed
  rw [UInt64.le_iff_toNat_le]
  omega

/-- The peak is no news if the committed bytes go down. -/
lemma peak_shift (hc : c.committed ≤ c.peak) (ha : a.commit.toInt ≤ 0) :
    (c.shift a).peak = c.peak := by
  have hle := UInt64.le_trans (committed_shift_le ha) hc
  rw [UInt64.le_iff_toNat_le] at hle
  refine UInt64.toNat_inj.mp ?_
  show (max c.peak (c.shift a).committed).toNat = c.peak.toNat
  rw [toNat_max]
  omega

lemma shift_of_isZero (hc : c.committed ≤ c.peak) (ha : a.isZero = true) : c.shift a = c := by
  simp only [Delta.isZero, Bool.and_eq_true, beq_iff_eq] at ha
  have hkeep : ∀ n, shiftSaturating n 0 = n := by
    intro n
    have hlt := n.toNat_lt
    have hshift := toNat_shiftSaturating_clamped n 0
    rw [Int64.toInt_zero] at hshift
    refine UInt64.toNat_inj.mp ?_
    omega
  have hpeak := peak_shift (a := a) hc (by rw [ha.2]; decide)
  obtain ⟨reserved, committed, peak⟩ := c
  simp only [shift, ha.1, ha.2, hkeep] at hpeak ⊢
  rw [hpeak]

/-- **Two moves of the counters in one direction.** -/
lemma shift_shift (hc : c.committed ≤ c.peak) (hd : a.plus b = .ok d)
    (hsame : 0 ≤ a.reserve.toInt ∧ 0 ≤ b.reserve.toInt ∨ a.reserve.toInt ≤ 0 ∧ b.reserve.toInt ≤ 0)
    (ha : a.commit.toInt ≤ 0) (hb : b.commit.toInt ≤ 0) :
    (c.shift a).shift b = c.shift d := by
  have hreserve : d.reserve.toInt = a.reserve.toInt + b.reserve.toInt :=
    Delta.plus_eq_ok_iff.mp hd .reserved
  have hcommit : d.commit.toInt = a.commit.toInt + b.commit.toInt :=
    Delta.plus_eq_ok_iff.mp hd .committed
  have hsum : d.commit.toInt ≤ 0 := by omega
  have hcommitted : ((c.shift a).shift b).committed = (c.shift d).committed :=
    shiftSaturating_add hcommit (.inr ⟨ha, hb⟩)
  have hpeak : ((c.shift a).shift b).peak = (c.shift d).peak := by
    rw [peak_shift hc hsum, ← peak_shift hc ha]
    refine peak_shift ?_ hb
    rw [peak_shift hc ha]
    exact UInt64.le_trans (committed_shift_le ha) hc
  have hreserved : ((c.shift a).shift b).reserved = (c.shift d).reserved :=
    shiftSaturating_add hreserve hsame
  calc (c.shift a).shift b
      = ⟨((c.shift a).shift b).reserved, ((c.shift a).shift b).committed,
          ((c.shift a).shift b).peak⟩ := rfl
    _ = c.shift d := by rw [hreserved, hcommitted, hpeak]

end Counters

/-! ## Deltas that go the same way -/

/-- The deltas move the counters of each tag in the same direction, and the committed bytes down. -/
structure Deltas.SameWay (d e : Deltas) : Prop where
  reserved : ∀ t, 0 ≤ d.amount .reserved t ∧ 0 ≤ e.amount .reserved t ∨
    d.amount .reserved t ≤ 0 ∧ e.amount .reserved t ≤ 0
  committed : ∀ t, d.amount .committed t ≤ 0 ∧ e.amount .committed t ≤ 0

lemma Deltas.isZero_iff {d : Deltas} {t : Tag} :
    (d.get t).isZero = true ↔ d.amount .reserved t = 0 ∧ d.amount .committed t = 0 := by
  simp only [Delta.isZero, Bool.and_eq_true, beq_iff_eq]
  show _ ↔ (d.get t).reserve.toInt = (0 : Int64).toInt ∧ (d.get t).commit.toInt = (0 : Int64).toInt
  rw [Int64.toInt_inj, Int64.toInt_inj]

/-- Changes in the same direction do not cancel. -/
lemma Deltas.SameWay.isZero_plus {d e s : Deltas} (h : d.SameWay e) (he : e.Distinct)
    (hs : d.plus e = .ok s) (t : Tag) :
    (s.get t).isZero = true ↔ (d.get t).isZero = true ∧ (e.get t).isZero = true := by
  have hreserved := h.reserved t
  have hcommitted := h.committed t
  rw [isZero_iff, isZero_iff, isZero_iff, amount_of_plus he hs, amount_of_plus he hs]
  omega

/-! ## Totals -/

namespace Totals

variable {m n : Totals} {d e s : Deltas}

/-- No count of committed bytes is above its peak. -/
def Peaked (m : Totals) : Prop := ∀ p ∈ m.entries, p.2.committed ≤ p.2.peak

lemma le_max_word (x y : UInt64) : y ≤ max x y := by
  rw [UInt64.le_iff_toNat_le, toNat_max]
  exact le_max_right _ _

/-- An entry is kept, or its counters are an image. -/
lemma eq_image_of_mem_update {tag : Tag} {f : Counters → Counters} {l : List (Tag × Counters)}
    {p : Tag × Counters} (hp : p ∈ update tag f l) : p ∈ l ∨ ∃ c, p.2 = f c := by
  induction l with
  | nil => exact .inr ⟨{}, congrArg Prod.snd (List.mem_singleton.mp hp)⟩
  | cons q rest ih =>
      obtain ⟨s, c⟩ := q
      rw [update] at hp
      split_ifs at hp
      · rcases List.mem_cons.mp hp with rfl | hp
        · exact .inr ⟨c, rfl⟩
        · exact .inl (List.mem_cons_of_mem _ hp)
      · rcases List.mem_cons.mp hp with rfl | hp
        · exact .inr ⟨{}, rfl⟩
        · exact .inl hp
      · rcases List.mem_cons.mp hp with rfl | hp
        · exact .inl List.mem_cons_self
        · exact (ih hp).imp_left (List.mem_cons_of_mem _)

/-- **Peaks stay above their counts**, whatever the deltas are. -/
theorem Peaked.apply (hm : m.Peaked) (d : Deltas) : (m.apply d).Peaked := by
  rw [Totals.apply]
  induction d.toList generalizing m with
  | nil => exact hm
  | cons q rest ih =>
      refine ih ?_
      intro p hp
      rcases eq_image_of_mem_update hp with hp | ⟨c, hc⟩
      · exact hm p hp
      · rw [hc]
        exact le_max_word _ _

lemma Peaked.get_le (hm : m.Peaked) (t : Tag) : (m.get t).committed ≤ (m.get t).peak := by
  have hlookup : ∀ l : List (Tag × Counters), (∀ p ∈ l, p.2.committed ≤ p.2.peak) →
      (lookup t l).committed ≤ (lookup t l).peak := by
    intro l hl
    induction l with
    | nil => exact UInt64.le_refl _
    | cons p rest ih =>
        rw [lookup]
        split_ifs
        · exact hl p List.mem_cons_self
        · exact ih fun q hq => hl q (List.mem_cons_of_mem _ hq)
  exact hlookup m.entries hm

/-- The counters of any tag after a move. -/
lemma Peaked.get_apply (hpeaked : m.Peaked) (hm : m.Sorted) (hd : d.Distinct) (t : Tag) :
    (m.apply d).get t = (m.get t).shift (d.get t) := by
  rw [Totals.get_apply hm hd]
  split_ifs with hzero
  · exact (Counters.shift_of_isZero (hpeaked.get_le t) hzero).symm
  · rfl

/-! ## Tags with an entry -/

/-- The tags that have an entry. -/
def tags (m : Totals) : List Tag := m.entries.map Prod.fst

lemma mem_map_update (tag t : Tag) (f : Counters → Counters) (l : List (Tag × Counters)) :
    t ∈ (update tag f l).map Prod.fst ↔ t = tag ∨ t ∈ l.map Prod.fst := by
  induction l with
  | nil => simp [update]
  | cons p rest ih =>
      obtain ⟨s, c⟩ := p
      rw [update]
      split_ifs with hs hlt
      · simp [hs]
      · simp
      · simp only [List.map_cons, List.mem_cons, ih]
        tauto

/-- The tags that move get an entry. -/
lemma mem_tags_apply (hd : d.Distinct) (t : Tag) :
    t ∈ (m.apply d).tags ↔ t ∈ m.tags ∨ ¬ (d.get t).isZero = true := by
  have hfold : ∀ (l : List (Tag × Delta)) (m : Totals),
      t ∈ tags (l.foldl (fun m p => ⟨update p.1 (·.shift p.2) m.entries⟩) m) ↔
        t ∈ m.tags ∨ ∃ p ∈ l, p.1 = t := by
    intro l
    induction l with
    | nil => simp
    | cons q rest ih =>
        intro m
        rw [List.foldl_cons, ih, tags, mem_map_update, ← tags]
        simp only [List.mem_cons, exists_eq_or_imp, eq_comm (a := t)]
        tauto
  rw [Totals.apply]
  refine (hfold d.toList m).trans (or_congr_right ?_)
  constructor
  · rintro ⟨p, hp, rfl⟩
    obtain ⟨hget, hzero⟩ := (hd.mem_toList_iff p).mp hp
    rw [← hget, hzero]
    decide
  · intro hzero
    exact ⟨(t, d.get t), (hd.mem_toList_iff _).mpr ⟨rfl, Bool.not_eq_true _ ▸ hzero⟩, rfl⟩

/-- **Totals are determined by their tags and counters.** -/
theorem Sorted.ext (hm : m.Sorted) (hn : n.Sorted) (htags : ∀ t, t ∈ m.tags ↔ t ∈ n.tags)
    (hget : ∀ t, m.get t = n.get t) : m = n := by
  have hmem : ∀ {k : Totals}, k.Sorted → ∀ p, p ∈ k.entries ↔ p.1 ∈ k.tags ∧ p.2 = k.get p.1 := by
    intro k hk p
    constructor
    · intro hp
      exact ⟨List.mem_map_of_mem hp, (hk.get_of_mem hp).symm⟩
    · rintro ⟨htag, hget⟩
      obtain ⟨q, hq, hqp⟩ := List.mem_map.mp htag
      have hp : p = q := by
        refine Prod.ext hqp.symm ?_
        rw [hget, ← hqp, hk.get_of_mem hq]
      rwa [hp]
  have hentries : m.entries = n.entries := by
    refine eq_of_mem_iff_of_ascending hm hn ?_
    intro p
    rw [hmem hm, hmem hn, htags, hget]
  obtain ⟨entries⟩ := m
  exact congrArg Totals.mk hentries

/-- **Two stages in the same direction are as good as one.** -/
theorem Peaked.apply_plus (hpeaked : m.Peaked) (hm : m.Sorted) (hd : d.Distinct) (he : e.Distinct)
    (h : d.SameWay e) (hs : d.plus e = .ok s) : (m.apply d).apply e = m.apply s := by
  have hdistinct := hd.plus hs
  refine ((hm.apply hd).apply he).ext (hm.apply hdistinct) ?_ ?_
  · intro t
    rw [mem_tags_apply he, mem_tags_apply hd, mem_tags_apply hdistinct, h.isZero_plus he hs]
    tauto
  · intro t
    rw [(hpeaked.apply d).get_apply (hm.apply hd) he, hpeaked.get_apply hm hd,
      hpeaked.get_apply hm hdistinct]
    have hsum : (d.get t).plus (e.get t) = .ok (s.get t) :=
      Delta.plus_eq_ok_iff.mpr fun c => Deltas.amount_of_plus he hs c t
    exact Counters.shift_shift (hpeaked.get_le t) hsum (h.reserved t) (h.committed t).1
      (h.committed t).2

end Totals

end RegionLedger
