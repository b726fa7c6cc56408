import Mathlib.Algebra.Order.Ring.Int
import RegionLedger.Accounting.Totals
import RegionLedger.Proofs.Accounting.Amounts

/-!
# Running totals

Totals keep their entries in ascending order of tags, so a tag has one entry.  Counters stop at zero
and at the largest word; as long as they stay between the two, deltas move them exactly, and the peak
is the larger of the old peak and the new count.

* `Totals.Sorted`, `Totals.amount` — the order of the entries, and the counters as numbers.
* `Totals.amount_apply_clamped` — the counters moved, whatever the amounts are.
* `Totals.amount_apply`, `Totals.peak_apply` — moving the counters exactly.
* `Totals.total_eq_ok_iff` — the sums over all tags.
-/

namespace RegionLedger

/-- The counter of a column. -/
def Counters.amount (c : Counters) : Column → UInt64
  | .reserved => c.reserved
  | .committed => c.committed

lemma toNat_shiftSaturating_clamped (n : UInt64) (d : Int64) :
    ((shiftSaturating n d).toNat : ℤ) = max 0 (min (n.toNat + d.toInt) (2 ^ 64 - 1)) :=
  toNat_nearestUnsigned _

/-- A sum that is a word. -/
lemma toNat_add_of_lt {a b : UInt64} (h : a.toNat + b.toNat < 2 ^ 64) :
    (a + b).toNat = a.toNat + b.toNat := by
  rw [UInt64.toNat_add, Nat.mod_eq_of_lt h]

/-- **The sum of two unsigned words** is the word that is the exact sum, if there is one. -/
theorem addUnsigned_eq_ok_iff {x y z : UInt64} :
    addUnsigned x y = .ok z ↔ z.toNat = x.toNat + y.toNat := by
  have hsize : UInt64.size = 2 ^ 64 := rfl
  rw [addUnsigned, hsize]
  split_ifs with h
  · rw [Except.ok.injEq, ← UInt64.toNat_inj, toNat_add_of_lt h]
    exact eq_comm
  · refine ⟨nofun, ?_⟩
    have hz := z.toNat_lt
    omega

lemma toNat_max (x y : UInt64) : (max x y).toNat = max x.toNat y.toNat := by
  show (if x ≤ y then y else x).toNat = _
  split_ifs with h <;> rw [UInt64.le_iff_toNat_le] at h <;> omega

namespace Totals

/-- The entries stand in ascending order of tags. -/
def Sorted (m : Totals) : Prop := m.entries.Pairwise fun p q => p.1.raw < q.1.raw

/-- The counter of a tag in a column, as a number. -/
def amount (m : Totals) (c : Column) (t : Tag) : ℕ := ((m.get t).amount c).toNat

/-! ## Entries -/

lemma mem_update {tag : Tag} {f : Counters → Counters} {l : List (Tag × Counters)}
    {p : Tag × Counters} (hp : p ∈ update tag f l) : p.1 = tag ∨ p ∈ l := by
  induction l with
  | nil => exact .inl (congrArg Prod.fst (List.mem_singleton.mp hp))
  | cons q rest ih =>
      obtain ⟨s, c⟩ := q
      rw [update] at hp
      split_ifs at hp with hs hlt
      · rcases List.mem_cons.mp hp with rfl | hp
        · exact .inl hs
        · exact .inr (List.mem_cons_of_mem _ hp)
      · rcases List.mem_cons.mp hp with rfl | hp
        · exact .inl rfl
        · exact .inr hp
      · rcases List.mem_cons.mp hp with rfl | hp
        · exact .inr List.mem_cons_self
        · exact (ih hp).imp_right (List.mem_cons_of_mem _)

lemma pairwise_update (tag : Tag) (f : Counters → Counters) {l : List (Tag × Counters)}
    (hl : l.Pairwise fun p q => p.1.raw < q.1.raw) :
    (update tag f l).Pairwise fun p q => p.1.raw < q.1.raw := by
  induction l with
  | nil => simp [update]
  | cons q rest ih =>
      obtain ⟨s, c⟩ := q
      obtain ⟨hs, hrest⟩ := List.pairwise_cons.mp hl
      rw [update]
      split_ifs with hst hlt
      · exact List.pairwise_cons.mpr ⟨hs, hrest⟩
      · refine List.pairwise_cons.mpr ⟨?_, hl⟩
        intro p hp
        rcases List.mem_cons.mp hp with rfl | hp
        · exact hlt
        · exact UInt16.lt_trans hlt (hs p hp)
      · refine List.pairwise_cons.mpr ⟨?_, ih hrest⟩
        intro p hp
        rcases mem_update hp with htag | hp
        · have hne : s.raw ≠ tag.raw := fun h => hst (congrArg Tag.mk h)
          rw [htag]
          grind
        · exact hs p hp

lemma lookup_of_forall_ne {t : Tag} {l : List (Tag × Counters)} (h : ∀ p ∈ l, p.1 ≠ t) :
    lookup t l = {} := by
  induction l with
  | nil => rfl
  | cons p rest ih =>
      rw [lookup, if_neg (h p List.mem_cons_self)]
      exact ih fun q hq => h q (List.mem_cons_of_mem _ hq)

lemma lookup_update {tag : Tag} (f : Counters → Counters) {l : List (Tag × Counters)}
    (hl : l.Pairwise fun p q => p.1.raw < q.1.raw) (t : Tag) :
    lookup t (update tag f l) = if t = tag then f (lookup t l) else lookup t l := by
  induction l with
  | nil => by_cases ht : tag = t <;> simp [update, lookup, ht, eq_comm]
  | cons q rest ih =>
      obtain ⟨s, c⟩ := q
      obtain ⟨hs, hrest⟩ := List.pairwise_cons.mp hl
      by_cases hst : s = tag
      · rw [update, if_pos hst]
        grind [lookup]
      · rw [update, if_neg hst]
        by_cases hlt : tag.raw < s.raw
        · rw [if_pos hlt]
          by_cases ht : t = tag
          · -- the tag comes before all entries, so it has none yet
            have hnone : lookup t ((s, c) :: rest) = {} := by
              refine lookup_of_forall_ne ?_
              intro p hp
              rcases List.mem_cons.mp hp with rfl | hp
              · grind
              · have hsp := hs p hp
                grind
            rw [lookup, if_pos ht.symm, if_pos ht, hnone]
          · rw [lookup, if_neg (Ne.symm ht), if_neg ht]
        · rw [if_neg hlt, lookup, lookup, ih hrest]
          grind

/-! ## Moving the counters -/

variable {m : Totals} {d : Deltas}

/-- The counters after changes of different tags. -/
lemma lookup_foldl_update {l : List (Tag × Delta)} (hl : l.Pairwise fun p q => p.1.raw < q.1.raw)
    (hm : m.Sorted) :
    (l.foldl (fun m p => ⟨update p.1 (·.shift p.2) m.entries⟩) m).Sorted ∧
      (∀ p ∈ l, (l.foldl (fun m p => (⟨update p.1 (·.shift p.2) m.entries⟩ : Totals)) m).get p.1 =
        (m.get p.1).shift p.2) ∧
      ∀ t, (∀ p ∈ l, p.1 ≠ t) →
        (l.foldl (fun m p => (⟨update p.1 (·.shift p.2) m.entries⟩ : Totals)) m).get t = m.get t := by
  induction l generalizing m with
  | nil => exact ⟨hm, by simp, fun _ _ => rfl⟩
  | cons p rest ih =>
      obtain ⟨hp, hrest⟩ := List.pairwise_cons.mp hl
      have hget : ∀ t, (⟨update p.1 (·.shift p.2) m.entries⟩ : Totals).get t =
          if t = p.1 then (m.get t).shift p.2 else m.get t := by
        intro t
        exact lookup_update _ hm t
      have hne : ∀ q ∈ rest, q.1 ≠ p.1 := by
        intro q hq h
        have hlt := hp q hq
        grind
      obtain ⟨hsorted, hin, hout⟩ := ih hrest
        (show Sorted ⟨update p.1 (·.shift p.2) m.entries⟩ from pairwise_update _ _ hm)
      refine ⟨hsorted, ?_, ?_⟩
      · intro q hq
        rw [List.foldl_cons]
        rcases List.mem_cons.mp hq with rfl | hq
        · rw [hout q.1 hne, hget, if_pos rfl]
        · rw [hin q hq, hget, if_neg (hne q hq)]
      · intro t ht
        rw [List.foldl_cons, hout t fun q hq => ht q (List.mem_cons_of_mem _ hq), hget,
          if_neg (Ne.symm (ht p List.mem_cons_self))]

lemma Sorted.apply (hm : m.Sorted) (hd : d.Distinct) : (m.apply d).Sorted :=
  (lookup_foldl_update hd.pairwise_toList hm).1

lemma get_apply (hm : m.Sorted) (hd : d.Distinct) (t : Tag) :
    (m.apply d).get t = if (d.get t).isZero then m.get t else (m.get t).shift (d.get t) := by
  obtain ⟨_, hin, hout⟩ := lookup_foldl_update hd.pairwise_toList hm
  split_ifs with hzero
  · -- nothing is booked for the tag
    refine hout t ?_
    intro p hp hpt
    obtain ⟨hpd, hp⟩ := (hd.mem_toList_iff p).mp hp
    rw [hpd, hpt, hzero] at hp
    cases hp
  · exact hin (t, d.get t) ((hd.mem_toList_iff _).mpr ⟨rfl, Bool.not_eq_true _ ▸ hzero⟩)

/-- Deltas that change nothing have no amount. -/
lemma amount_of_isZero {t : Tag} (h : (d.get t).isZero = true) (c : Column) :
    d.amount c t = 0 := by
  simp only [Delta.isZero, Bool.and_eq_true, beq_iff_eq] at h
  cases c with
  | reserved => exact congrArg Int64.toInt h.1
  | committed => exact congrArg Int64.toInt h.2

/-- **Counters stop at zero and at the largest word.** -/
theorem amount_apply_clamped (hm : m.Sorted) (hd : d.Distinct) (c : Column) (t : Tag) :
    ((m.apply d).amount c t : ℤ) = max 0 (min (m.amount c t + d.amount c t) (2 ^ 64 - 1)) := by
  rw [amount, get_apply hm hd]
  split_ifs with hzero
  · have hlt := ((m.get t).amount c).toNat_lt
    rw [amount_of_isZero hzero, amount]
    omega
  · cases c <;> exact toNat_shiftSaturating_clamped _ _

/-- **Counters move exactly**, if they stay within the words. -/
theorem amount_apply (hm : m.Sorted) (hd : d.Distinct) {t : Tag}
    (h : ∀ c, 0 ≤ m.amount c t + d.amount c t ∧ m.amount c t + d.amount c t < 2 ^ 64)
    (c : Column) : ((m.apply d).amount c t : ℤ) = m.amount c t + d.amount c t := by
  obtain ⟨hlow, hhigh⟩ := h c
  rw [amount_apply_clamped hm hd]
  omega

/-- **The peak is the larger of the old peak and the new count.** -/
theorem peak_apply (hm : m.Sorted) (hd : d.Distinct) {t : Tag}
    (hpeak : m.amount .committed t ≤ (m.get t).peak.toNat) :
    ((m.apply d).get t).peak.toNat =
      max (m.get t).peak.toNat ((m.apply d).amount .committed t) := by
  rw [amount, get_apply hm hd]
  split_ifs with hzero
  · exact (max_eq_left hpeak).symm
  · exact toNat_max _ _

/-! ## Sums over all tags -/

/-- The exact sum of a column over all tags. -/
def sum (m : Totals) (c : Column) : ℕ := (m.entries.map fun p => (p.2.amount c).toNat).sum

/-- The sum of a column as the totals give it. -/
def total (m : Totals) : Column → Except Overflow UInt64
  | .reserved => m.reserved
  | .committed => m.committed

/-- Counters are added up from some sum on.  They only grow, so it is the last sum that decides. -/
lemma foldlM_addUnsigned_eq_ok_iff (g : Counters → UInt64) (l : List (Tag × Counters))
    (start w : UInt64) : l.foldlM (fun sum p => addUnsigned sum (g p.2)) start = .ok w ↔
      w.toNat = start.toNat + (l.map fun p => (g p.2).toNat).sum := by
  induction l generalizing start with
  | nil =>
      rw [List.foldlM_nil, List.map_nil, List.sum_nil, Nat.add_zero, UInt64.toNat_inj]
      exact Except.ok.injEq start w ▸ eq_comm
  | cons p rest ih =>
      rw [List.foldlM_cons, List.map_cons, List.sum_cons, ← Nat.add_assoc]
      cases hsum : addUnsigned start (g p.2) with
      | ok next => exact (ih next).trans (by rw [addUnsigned_eq_ok_iff.mp hsum])
      | error o =>
          refine ⟨nofun, ?_⟩
          intro hw
          have hlt := w.toNat_lt
          have hnext : addUnsigned start (g p.2) = .ok (start + g p.2) :=
            addUnsigned_eq_ok_iff.mpr (toNat_add_of_lt (by omega))
          rw [hsum] at hnext
          cases hnext

/-- **The sums over all tags** are the exact ones, if these are words. -/
theorem total_eq_ok_iff {m : Totals} {c : Column} {w : UInt64} :
    m.total c = .ok w ↔ w.toNat = m.sum c := by
  have hsum := foldlM_addUnsigned_eq_ok_iff (·.amount c) m.entries 0 w
  rw [UInt64.toNat_zero, Nat.zero_add] at hsum
  cases c <;> exact hsum

lemma exists_total {m : Totals} {c : Column} (h : m.sum c < 2 ^ 64) :
    ∃ w, m.total c = .ok w ∧ w.toNat = m.sum c := by
  have hword : (UInt64.ofNat (m.sum c)).toNat = m.sum c := UInt64.toNat_ofNat_of_lt' h
  exact ⟨_, total_eq_ok_iff.mpr hword, hword⟩

lemma Sorted.get_of_mem (hm : m.Sorted) {p : Tag × Counters} (hp : p ∈ m.entries) :
    m.get p.1 = p.2 := by
  have hlookup : ∀ {l : List (Tag × Counters)}, l.Pairwise (fun p q => p.1.raw < q.1.raw) →
      p ∈ l → lookup p.1 l = p.2 := by
    intro l hl hp
    induction l with
    | nil => cases hp
    | cons q rest ih =>
        obtain ⟨hq, hrest⟩ := List.pairwise_cons.mp hl
        rcases List.mem_cons.mp hp with rfl | hp
        · exact if_pos rfl
        · have hlt := hq p hp
          rw [lookup, if_neg (by grind), ih hrest hp]
  exact hlookup hm hp

end Totals

end RegionLedger
