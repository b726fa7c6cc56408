import RegionLedger.Proofs.Accounting.Running

/-!
# The difference of two totals

The change from one state of the totals to another is formed tag by tag, over the tags of the later
state and then those of the earlier one; a tag that changed already is not looked at again.  So every
tag is compared once, and a tag that neither state knows does not change.

Counters are read as signed words, so those above the longest span are read as negative ones.  The
difference of two counters on the same side of the longest span is exact all the same.  That of two
counters on different sides, as far as it is a signed word itself, is none as it is read: there the
comparison stops.

* `toInt_toInt64` — a counter as it is read.
* `Totals.since_cases` — the change of every tag, or the end at a tag that cannot be compared.
* `Totals.exists_since` — the difference of counters within the longest span.
* `Totals.since_restores_or_stops` — differences that fit, tag by tag, listed and applied, and when
  there are any.
-/

namespace RegionLedger

/-- A counter as it is read in a difference. -/
lemma toInt_toInt64 (n : UInt64) :
    n.toInt64.toInt = if n.toNat < 2 ^ 63 then (n.toNat : ℤ) else n.toNat - 2 ^ 64 := by
  have hlt := n.toNat_lt
  have hread : n.toInt64.toInt = (n.toNat : ℤ).bmod (2 ^ 64) :=
    BitVec.toInt_eq_toNat_bmod n.toBitVec
  rw [hread]
  split_ifs with hn
  · exact Int.bmod_eq_of_le (by omega) (by omega)
  · rw [← Int.sub_bmod_right]
    exact Int.bmod_eq_of_le (by omega) (by omega)

/-- Two counters are both above the longest span, or neither is. -/
def SameSide (x y : ℕ) : Prop := x < 2 ^ 63 ↔ y < 2 ^ 63

instance (x y : ℕ) : Decidable (SameSide x y) := inferInstanceAs (Decidable (_ ↔ _))

/-- Counters on the same side are read with the same offset. -/
lemma toInt_sub_of_sameSide {x y : UInt64} (h : SameSide x.toNat y.toNat) :
    x.toInt64.toInt - y.toInt64.toInt = (x.toNat : ℤ) - y.toNat := by
  rw [toInt_toInt64, toInt_toInt64]
  simp only [SameSide] at h
  split_ifs <;> omega

/-- **A difference that fits can be read exactly if the counters are on the same side.** -/
theorem fits_read_sub_iff {x y : UInt64} (h : Fits ((x.toNat : ℤ) - y.toNat)) :
    Fits (x.toInt64.toInt - y.toInt64.toInt) ↔ SameSide x.toNat y.toNat := by
  have hx := x.toNat_lt
  have hy := y.toNat_lt
  rw [toInt_toInt64, toInt_toInt64]
  simp only [Fits, SameSide] at h ⊢
  split_ifs <;> omega

namespace Totals

variable {now was : Totals} {d : Deltas} {t : Tag}

/-! ## One tag -/

/-- The change of a column as it is read. -/
def readSub (now was : Counters) (c : Column) : ℤ :=
  (now.amount c).toInt64.toInt - (was.amount c).toInt64.toInt

/-- **The change of one tag** is the change with the amounts that are read, if there is one. -/
lemma step_eq_ok_iff {now was : Counters} {delta : Delta} :
    step now was = .ok delta ↔ ∀ c, (delta.amount c).toInt = readSub now was c := by
  rw [Column.forall_iff, step, Delta.ofAmounts_eq_ok_iff, subtractSigned, subtractSigned,
    signedOr_eq_ok_iff, signedOr_eq_ok_iff]
  exact Iff.rfl

/-- A tag cannot be compared only if an amount that is read does not fit. -/
lemma step_eq_error {now was : Counters} {o : Overflow} (h : step now was = .error o) :
    o = .subtract ∧ ∃ c, ¬ Fits (readSub now was c) := by
  rcases Delta.ofAmounts_eq_error h with h | h
  · obtain ⟨rfl, hfits⟩ := signedOr_eq_error h
    exact ⟨rfl, .reserved, hfits⟩
  · obtain ⟨rfl, hfits⟩ := signedOr_eq_error h
    exact ⟨rfl, .committed, hfits⟩

/-! ## One tag after the other -/

/-- A tag is compared unless it changed already. -/
def compareTag (now was : Totals) (d : Deltas) (tag : Tag) : Except Overflow Deltas :=
  if d.get tag = {} then do
    let delta ← step (now.get tag) (was.get tag)
    d.add tag delta
  else .ok d

lemma since_eq (now was : Totals) : now.since was =
    (now.entries.map Prod.fst ++ was.entries.map Prod.fst).foldlM (compareTag now was) ∅ := rfl

/-- Some deltas say of every tag the whole change or nothing yet. -/
structure Underway (now was : Totals) (d : Deltas) : Prop where
  distinct : d.Distinct
  get : ∀ t, d.get t = {} ∨ step (now.get t) (was.get t) = .ok (d.get t)

lemma underway_empty (now was : Totals) : Underway now was ∅ where
  distinct := Deltas.distinct_empty
  get _ := .inl rfl

/-- A change is added to none. -/
lemma exists_add_of_get_eq_none {tag : Tag} (hd : d.Distinct) (hnone : d.get tag = {})
    (delta : Delta) : ∃ d', d.add tag delta = .ok d' ∧ d'.Distinct ∧
      ∀ t, d'.get t = if t = tag then delta else d.get t := by
  have hzero : ∀ c, d.amount c tag = 0 := by
    intro c
    rw [Deltas.amount, hnone, Delta.toInt_amount_none]
  cases hadd : d.add tag delta with
  | error o =>
      obtain ⟨_, c, hfits⟩ := Deltas.error_of_add hadd
      rw [hzero, Int.zero_add] at hfits
      exact absurd (fits_toInt _) hfits
  | ok d' =>
      refine ⟨d', rfl, hd.add hadd, ?_⟩
      intro t
      refine Delta.eq_of_amount_eq ?_
      intro c
      have hamount := Deltas.amount_of_add hadd c t
      split_ifs at hamount ⊢ with ht
      · rw [ht, hzero, Int.zero_add] at hamount
        rw [ht]
        exact hamount
      · rwa [Int.add_zero] at hamount

/-- **A tag that is compared is done with**, and the others are as before. -/
lemma Underway.exists_compareTag (hd : Underway now was d) {tag : Tag} {delta : Delta}
    (hstep : step (now.get tag) (was.get tag) = .ok delta) :
    ∃ d', compareTag now was d tag = .ok d' ∧ Underway now was d' ∧
      ∀ t, d'.get t = if t = tag then delta else d.get t := by
  by_cases hnone : d.get tag = {}
  · obtain ⟨d', hadd, hdistinct, hget⟩ := exists_add_of_get_eq_none hd.distinct hnone delta
    refine ⟨d', ?_, ⟨hdistinct, ?_⟩, hget⟩
    · rw [compareTag, if_pos hnone, hstep]
      exact hadd
    · intro t
      rw [hget]
      split_ifs with ht
      · exact .inr (ht ▸ hstep)
      · exact hd.get t
  · have hsame : delta = d.get tag := by
      have hdone := (hd.get tag).resolve_left hnone
      rw [hstep] at hdone
      exact Except.ok.inj hdone
    refine ⟨d, by rw [compareTag, if_neg hnone], hd, ?_⟩
    intro t
    split_ifs with ht
    · rw [ht, hsame]
    · rfl

/-- A tag that cannot be compared did not change yet. -/
lemma Underway.compareTag_of_error (hd : Underway now was d) {tag : Tag} {o : Overflow}
    (hstep : step (now.get tag) (was.get tag) = .error o) :
    compareTag now was d tag = .error o := by
  have hnone : d.get tag = {} := by
    refine (hd.get tag).resolve_right ?_
    rw [hstep]
    exact nofun
  rw [compareTag, if_pos hnone, hstep]
  rfl

/-- **Tags are compared** one after the other, up to the first that cannot be. -/
lemma Underway.foldlM_cases (hd : Underway now was d) (tags : List Tag) :
    (∃ d', tags.foldlM (compareTag now was) d = .ok d' ∧ d'.Distinct ∧
        ∀ t, if t ∈ tags then step (now.get t) (was.get t) = .ok (d'.get t) else
          d'.get t = d.get t) ∨
      ∃ t o, step (now.get t) (was.get t) = .error o ∧
        tags.foldlM (compareTag now was) d = .error o := by
  induction tags generalizing d with
  | nil => exact .inl ⟨d, rfl, hd.distinct, fun t => by rw [if_neg List.not_mem_nil]⟩
  | cons tag rest ih =>
      cases hstep : step (now.get tag) (was.get tag) with
      | error o =>
          refine .inr ⟨tag, o, hstep, ?_⟩
          rw [List.foldlM_cons, hd.compareTag_of_error hstep]
          rfl
      | ok delta =>
          obtain ⟨d₁, hcompare, hd₁, hget₁⟩ := hd.exists_compareTag hstep
          have hfold : (tag :: rest).foldlM (Totals.compareTag now was) d =
              rest.foldlM (Totals.compareTag now was) d₁ := by
            rw [List.foldlM_cons, hcompare]
            rfl
          rw [hfold]
          refine (ih hd₁).imp_left ?_
          rintro ⟨d', hrest, hdistinct, hget⟩
          refine ⟨d', hrest, hdistinct, ?_⟩
          intro t
          have ht := hget t
          rw [hget₁] at ht
          by_cases hin : t ∈ rest
          · rw [if_pos hin] at ht
            rwa [if_pos (List.mem_cons_of_mem _ hin)]
          · rw [if_neg hin] at ht
            by_cases htag : t = tag
            · rw [if_pos htag] at ht
              rw [if_pos (htag ▸ List.mem_cons_self), ht, htag, hstep]
            · rw [if_neg htag] at ht
              rwa [if_neg (by simp [htag, hin])]

/-- A tag without an entry has no bytes. -/
lemma get_of_not_mem {m : Totals} (h : t ∉ m.entries.map Prod.fst) : m.get t = {} := by
  refine lookup_of_forall_ne ?_
  intro p hp heq
  exact h (heq ▸ List.mem_map_of_mem hp)

/-- **The change of every tag** is that of its counters, whether it has an entry in both states, in
one of them or in neither; or else some tag cannot be compared. -/
theorem since_cases (now was : Totals) :
    (∃ d, now.since was = .ok d ∧ d.Distinct ∧
        ∀ c t, d.amount c t = readSub (now.get t) (was.get t) c) ∨
      now.since was = .error .subtract ∧ ∃ c t, ¬ Fits (readSub (now.get t) (was.get t) c) := by
  rw [since_eq]
  rcases (underway_empty now was).foldlM_cases
    (now.entries.map Prod.fst ++ was.entries.map Prod.fst) with
    ⟨d, hfold, hdistinct, hget⟩ | ⟨t, o, hstep, hfold⟩
  · refine .inl ⟨d, hfold, hdistinct, ?_⟩
    intro c t
    have ht := hget t
    split_ifs at ht with hmem
    · exact step_eq_ok_iff.mp ht c
    · rw [List.mem_append, not_or] at hmem
      rw [Deltas.amount, ht, get_of_not_mem hmem.1, get_of_not_mem hmem.2]
      cases c <;> rfl
  · obtain ⟨rfl, c, hfits⟩ := step_eq_error hstep
    exact .inr ⟨hfold, c, t, hfits⟩

/-- **The difference of counters within the longest span** is exact. -/
theorem exists_since (hnow : ∀ c t, now.amount c t ≤ 2 ^ 63 - 1)
    (hwas : ∀ c t, was.amount c t ≤ 2 ^ 63 - 1) :
    ∃ d, now.since was = .ok d ∧ d.Distinct ∧
      ∀ c t, d.amount c t = (now.amount c t : ℤ) - was.amount c t := by
  have hread : ∀ c t, readSub (now.get t) (was.get t) c = (now.amount c t : ℤ) - was.amount c t := by
    intro c t
    refine toInt_sub_of_sameSide ?_
    have hn : ((now.get t).amount c).toNat ≤ 2 ^ 63 - 1 := hnow c t
    have hw : ((was.get t).amount c).toNat ≤ 2 ^ 63 - 1 := hwas c t
    simp only [SameSide]
    omega
  rcases since_cases now was with ⟨d, hd, hdistinct, hamount⟩ | ⟨_, c, t, hfits⟩
  · exact ⟨d, hd, hdistinct, fun c t => by rw [hamount, hread]⟩
  · rw [hread] at hfits
    have hn := hnow c t
    have hw := hwas c t
    refine absurd ?_ hfits
    simp only [Fits]
    omega

/-! ## Back to the later totals -/

/-- It is enough to look at the tags that have an entry. -/
lemma forall_amount_of_entries {P : ℕ → ℕ → Prop} (hzero : P 0 0)
    (h : ∀ p ∈ now.entries ++ was.entries, ∀ c ∈ Column.all,
      P (now.amount c p.1) (was.amount c p.1)) (c : Column) (t : Tag) :
    P (now.amount c t) (was.amount c t) := by
  by_cases ht : t ∈ (now.entries ++ was.entries).map Prod.fst
  · obtain ⟨p, hp, rfl⟩ := List.mem_map.mp ht
    exact h p hp c c.mem_all
  · rw [List.map_append, List.mem_append, not_or] at ht
    rw [amount, amount, get_of_not_mem ht.1, get_of_not_mem ht.2]
    cases c <;> exact hzero

/-- **The changes lead from the earlier totals to the later ones, or there are none.**  Every
difference is a signed word.  Then the comparison comes to an end exactly if the two counters of each
tag are on the same side of the longest span, and else a subtraction stops it.  If it comes to an
end, the change of every tag is its difference, no tag is booked in two places, the tags that changed
are listed once with their differences, in ascending order, and the earlier totals moved by the
changes have the counters of the later ones. -/
theorem since_restores_or_stops (now was : Totals) (hwas : was.Sorted)
    (h : ∀ c t, Fits ((now.amount c t : ℤ) - was.amount c t)) :
    ((∃ d, now.since was = .ok d) ↔ ∀ c t, SameSide (now.amount c t) (was.amount c t)) ∧
      (∀ o, now.since was = .error o → o = .subtract) ∧
      ∀ d, now.since was = .ok d →
        (∀ c t, d.amount c t = (now.amount c t : ℤ) - was.amount c t) ∧
        d.Distinct ∧
        d.toList.Pairwise (fun p q => p.1.raw < q.1.raw) ∧
        (∀ t delta, (t, delta) ∈ d.toList ↔ delta.isZero = false ∧
          ∀ c, (delta.amount c).toInt = (now.amount c t : ℤ) - was.amount c t) ∧
        ∀ c t, (was.apply d).amount c t = now.amount c t := by
  have hread : ∀ c t, Fits (readSub (now.get t) (was.get t) c) ↔
      SameSide (now.amount c t) (was.amount c t) := fun c t => fits_read_sub_iff (h c t)
  rcases since_cases now was with ⟨d, hd, hdistinct, hamount⟩ | ⟨hstop, c, t, hfits⟩
  · have hside : ∀ c t, SameSide (now.amount c t) (was.amount c t) := by
      intro c t
      rw [← hread, ← hamount]
      exact Deltas.fits_amount d c t
    have hexact : ∀ c t, d.amount c t = (now.amount c t : ℤ) - was.amount c t := by
      intro c t
      rw [hamount]
      exact toInt_sub_of_sameSide (hside c t)
    refine ⟨⟨fun _ => hside, fun _ => ⟨d, hd⟩⟩, ?_, ?_⟩
    · intro o ho
      rw [hd] at ho
      cases ho
    intro d' hd'
    obtain rfl := Except.ok.inj (hd.symm.trans hd')
    refine ⟨hexact, hdistinct, hdistinct.pairwise_toList, ?_, ?_⟩
    · intro t delta
      rw [hdistinct.mem_toList_iff_amount]
      simp only [hexact]
    · intro c t
      -- the later counter is a word, so the earlier one does not stop before it
      have hmove := amount_apply_clamped hwas hdistinct c t
      have hword : now.amount c t < 2 ^ 64 := ((now.get t).amount c).toNat_lt
      rw [hexact] at hmove
      omega
  · refine ⟨⟨?_, ?_⟩, ?_, ?_⟩
    · rintro ⟨d, hd⟩
      rw [hstop] at hd
      cases hd
    · exact fun hside => absurd ((hread c t).mpr (hside c t)) hfits
    · intro o ho
      rw [hstop] at ho
      exact (Except.error.inj ho).symm
    · intro d hd
      rw [hstop] at hd
      cases hd

/-- A heap above the longest span, a stack that is new, and no code any more. -/
def grownTotals : Totals :=
  ⟨[(⟨1⟩, ⟨0x8000000000001000, 0xffffffffffffffff, 0xffffffffffffffff⟩), (⟨3⟩, ⟨0x1000, 0, 0⟩)]⟩

/-- The same heap when it was smaller, and the code. -/
def smallTotals : Totals :=
  ⟨[(⟨1⟩, ⟨0x8000000000000000, 0x8000000000000000, 0x8000000000000000⟩),
    (⟨2⟩, ⟨0x800, 0x800, 0x800⟩)]⟩

/-- The difference of counters above the longest span is exact. -/
theorem grown_restored :
    (∀ c t, Fits ((grownTotals.amount c t : ℤ) - smallTotals.amount c t)) ∧
      ∃ d, grownTotals.since smallTotals = .ok d ∧ d.amount .reserved ⟨1⟩ = 0x1000 ∧
        d.amount .committed ⟨1⟩ = 2 ^ 63 - 1 ∧ d.amount .reserved ⟨2⟩ = -0x800 ∧
        (smallTotals.apply d).amount .reserved ⟨1⟩ = 2 ^ 63 + 0x1000 := by
  have hfits : ∀ c t, Fits ((grownTotals.amount c t : ℤ) - smallTotals.amount c t) :=
    forall_amount_of_entries (P := fun x y => Fits ((x : ℤ) - y)) (by decide) (by decide)
  obtain ⟨hends, _, hchanges⟩ := since_restores_or_stops grownTotals smallTotals
    (by simp [Sorted, smallTotals]) hfits
  obtain ⟨d, hd⟩ := hends.mpr (forall_amount_of_entries (by decide) (by decide))
  obtain ⟨hexact, _, _, _, hback⟩ := hchanges d hd
  refine ⟨hfits, d, hd, ?_, ?_, ?_, ?_⟩
  · rw [hexact]
    decide
  · rw [hexact]
    decide
  · rw [hexact]
    decide
  · rw [hback]
    decide

/-- A heap that grew over the longest span. -/
def overTotals : Totals := ⟨[(⟨1⟩, ⟨0x8000000000000000, 0, 0⟩)]⟩

/-- The same heap when it was a single byte. -/
def byteTotals : Totals := ⟨[(⟨1⟩, ⟨1, 0, 0⟩)]⟩

/-- **A counter that passed the longest span** cannot be compared, although the difference is the
longest span itself. -/
theorem over_not_compared :
    (∀ c t, Fits ((overTotals.amount c t : ℤ) - byteTotals.amount c t)) ∧
      (overTotals.amount .reserved ⟨1⟩ : ℤ) - byteTotals.amount .reserved ⟨1⟩ = 2 ^ 63 - 1 ∧
      overTotals.since byteTotals = .error .subtract :=
  ⟨forall_amount_of_entries (P := fun x y => Fits ((x : ℤ) - y)) (by decide) (by decide),
    by decide, rfl⟩

end Totals

end RegionLedger
