import Mathlib.Algebra.BigOperators.Group.Finset.Piecewise
import Mathlib.Data.Finset.Image
import RegionLedger.Proofs.Accounting.Running

/-!
# Deltas as finite maps

Deltas come about from no change at all by booking lengths, adding changes and other deltas, and
dropping the reserved bytes.  Entries stand in the order in which the tags first came up, and an
entry may have gone back to zero, so the same changes have many forms.  But no tag has two entries,
and everything that is said of deltas depends on the change of each tag alone, with one exception:
the sum over all tags is formed entry by entry, and stops where it leaves the signed words.

* `Deltas.Recipe` — how deltas come about, and `Deltas.Recipe.amount`, the exact change of a tag.
* `Deltas.Recipe.exists_deltas` — the deltas of a recipe whose changes are signed words.
* `Deltas.Distinct.beq_iff`, `Deltas.plus_comm`, `Deltas.plus_assoc`, `Deltas.commitOnly_plus` —
  equality, and what is equal.
* `Deltas.Distinct.total_eq_ok_iff` — the sum over all tags, and when there is one.
* `Totals.amount_apply_apply` — counters moved twice.
* `Deltas.Recipe.built_as_finite_map` — all of it together.
-/

namespace RegionLedger

namespace Tag

/-- All tags there are. -/
def all : Finset Tag := (Finset.range UInt16.size).image fun n => ⟨.ofNat n⟩

lemma mem_all (t : Tag) : t ∈ all :=
  Finset.mem_image.mpr
    ⟨t.raw.toNat, Finset.mem_range.mpr t.raw.toNat_lt, congrArg mk UInt16.ofNat_toNat⟩

end Tag

lemma Delta.isZero_iff {x : Delta} : x.isZero = true ↔ x = {} := by
  obtain ⟨reserve, commit⟩ := x
  simp [Delta.isZero]

namespace Deltas

variable {d e f : Deltas}

/-! ## Equality -/

/-- **Deltas are equal exactly if they change every tag alike**, however they are arranged. -/
theorem Distinct.beq_iff (hd : d.Distinct) (he : e.Distinct) :
    (d == e) = true ↔ ∀ t, d.get t = e.get t := by
  refine ⟨?_, hd.beq he⟩
  intro h t
  have hlist : d.toList = e.toList := eq_of_beq h
  -- a tag that is not listed does not change
  by_cases hzero : (d.get t).isZero = true
  · by_cases hzero' : (e.get t).isZero = true
    · rw [Delta.isZero_iff.mp hzero, Delta.isZero_iff.mp hzero']
    · have hmem := (he.mem_toList_iff (t, e.get t)).mpr ⟨rfl, Bool.not_eq_true _ ▸ hzero'⟩
      rw [← hlist] at hmem
      exact ((hd.mem_toList_iff _).mp hmem).1.symm
  · have hmem := (hd.mem_toList_iff (t, d.get t)).mpr ⟨rfl, Bool.not_eq_true _ ▸ hzero⟩
    rw [hlist] at hmem
    exact ((he.mem_toList_iff _).mp hmem).1

lemma Distinct.beq_of_amount_eq (hd : d.Distinct) (he : e.Distinct)
    (h : ∀ c t, d.amount c t = e.amount c t) : (d == e) = true :=
  hd.beq he fun t => get_eq_of_amount_eq fun c => h c t

lemma plus_comm (hd : d.Distinct) (he : e.Distinct) {x : Deltas} (hx : d.plus e = .ok x) :
    ∃ y, e.plus d = .ok y ∧ (x == y) = true := by
  have hsum := amount_of_plus he hx
  obtain ⟨y, hy⟩ := exists_plus (d := e) hd fun c t => by
    rw [Int.add_comm, ← hsum]
    exact fits_amount x c t
  refine ⟨y, hy, (hd.plus hx).beq_of_amount_eq (he.plus hy) ?_⟩
  intro c t
  rw [hsum, amount_of_plus hd hy, Int.add_comm]

lemma plus_assoc (hd : d.Distinct) (he : e.Distinct) (hf : f.Distinct) {x y z : Deltas}
    (hx : d.plus e = .ok x) (hy : e.plus f = .ok y) (hz : x.plus f = .ok z) :
    ∃ z', d.plus y = .ok z' ∧ (z == z') = true := by
  have hsum : ∀ c t, z.amount c t = d.amount c t + y.amount c t := by
    intro c t
    rw [amount_of_plus hf hz, amount_of_plus he hx, amount_of_plus hf hy, Int.add_assoc]
  obtain ⟨z', hz'⟩ := exists_plus (d := d) (he.plus hy) fun c t => hsum c t ▸ fits_amount z c t
  refine ⟨z', hz', ((hd.plus hx).plus hz).beq_of_amount_eq (hd.plus hz') ?_⟩
  intro c t
  rw [hsum, amount_of_plus (he.plus hy) hz']

lemma commitOnly_plus (hd : d.Distinct) (he : e.Distinct) {x : Deltas} (hx : d.plus e = .ok x) :
    ∃ y, d.commitOnly.plus e.commitOnly = .ok y ∧ (x.commitOnly == y) = true := by
  have hdc := distinct_commitOnly hd
  have hec := distinct_commitOnly he
  have hxc := distinct_commitOnly (hd.plus hx)
  have hsum : ∀ c t, x.commitOnly.amount c t =
      d.commitOnly.amount c t + e.commitOnly.amount c t := by
    intro c t
    rw [amount_commitOnly (hd.plus hx), amount_commitOnly hd, amount_commitOnly he,
      amount_of_plus he hx]
    split_ifs <;> omega
  obtain ⟨y, hy⟩ := exists_plus hec fun c t => hsum c t ▸ fits_amount x.commitOnly c t
  refine ⟨y, hy, hxc.beq_of_amount_eq (hdc.plus hy) ?_⟩
  intro c t
  rw [hsum, amount_of_plus hec hy]

/-! ## The sum over all tags -/

/-- Entries of different tags hold all that is said of any tag. -/
lemma sum_map_amount {l : List (Tag × Delta)} (hl : (l.map Prod.fst).Nodup) (c : Column) :
    (l.map fun p => (p.2.amount c).toInt).sum = ∑ t ∈ Tag.all, amount ⟨l⟩ c t := by
  induction l with
  | nil => exact (Finset.sum_eq_zero fun t _ => amount_empty c t).symm
  | cons p rest ih =>
      obtain ⟨tag, delta⟩ := p
      obtain ⟨htag, hrest⟩ := List.nodup_cons.mp hl
      simp only [amount_cons_of_not_mem (show tag ∉ _ from htag)]
      rw [List.map_cons, List.sum_cons, ih hrest, Finset.sum_add_distrib, Finset.sum_ite_eq',
        if_pos tag.mem_all]

/-- The sum of some entries in a column. -/
def entrySum (l : List (Tag × Delta)) (c : Column) : ℤ := (l.map fun p => (p.2.amount c).toInt).sum

/-- Changes are added up from some change on, as long as the sum stays within the signed words. -/
lemma foldlM_plus_eq_ok_iff (l : List (Tag × Delta)) (start x : Delta) :
    l.foldlM (fun sum p => sum.plus p.2) start = .ok x ↔
      (∀ l', l' <+: l → ∀ c, Fits ((start.amount c).toInt + entrySum l' c)) ∧
        ∀ c, (x.amount c).toInt = (start.amount c).toInt + entrySum l c := by
  induction l generalizing start with
  | nil =>
      have hnil : ∀ c, (start.amount c).toInt + entrySum [] c = (start.amount c).toInt :=
        fun c => Int.add_zero _
      simp only [hnil, List.prefix_nil]
      constructor
      · rintro ⟨⟩
        refine ⟨?_, fun c => rfl⟩
        rintro l' rfl c
        rw [hnil]
        exact fits_toInt _
      · exact fun h => congrArg Except.ok (Delta.eq_of_amount_eq fun c => (h.2 c).symm)
  | cons p rest ih =>
      have hcons : ∀ l' c, entrySum (p :: l') c = (p.2.amount c).toInt + entrySum l' c :=
        fun l' c => List.sum_cons
      rw [List.foldlM_cons]
      cases hfirst : start.plus p.2 with
      | error o =>
          obtain ⟨_, c, hnot⟩ := Delta.plus_eq_error hfirst
          refine ⟨nofun, ?_⟩
          rintro ⟨hfits, _⟩
          have hone := hfits [p] (List.prefix_append _ _) c
          rw [hcons] at hone
          exact absurd (by rwa [← Int.add_zero (p.2.amount c).toInt]) hnot
      | ok next =>
          have hnext := Delta.plus_eq_ok_iff.mp hfirst
          refine (ih next).trans ?_
          simp only [hcons, hnext, ← Int.add_assoc]
          refine and_congr_left' ⟨?_, ?_⟩
          · intro h l' hl' c
            cases l' with
            | nil =>
                have hzero : entrySum [] c = 0 := rfl
                rw [hzero, Int.add_zero]
                exact fits_toInt _
            | cons q l' =>
                obtain ⟨rfl, htail⟩ := List.cons_prefix_cons.mp hl'
                rw [hcons, ← Int.add_assoc]
                exact h l' htail c
          · intro h l' hl' c
            have hfits := h (p :: l') (List.cons_prefix_cons.mpr ⟨rfl, hl'⟩) c
            rwa [hcons, ← Int.add_assoc] at hfits

/-- The sum over all tags is that of the entries. -/
lemma total_eq_ok_iff {x : Delta} :
    d.total = .ok x ↔ (∀ l, l <+: d.entries → ∀ c, Fits (entrySum l c)) ∧
      ∀ c, (x.amount c).toInt = entrySum d.entries c := by
  refine (foldlM_plus_eq_ok_iff d.entries {} x).trans ?_
  simp only [Delta.toInt_amount_none, Int.zero_add]

/-- **The sum over all tags** is the exact one.  There is one as long as the sum of the entries stays
within the signed words, from the first on. -/
theorem Distinct.total_eq_ok_iff (hd : d.Distinct) {x : Delta} :
    d.total = .ok x ↔ (∀ l, l <+: d.entries → ∀ c, Fits (entrySum l c)) ∧
      ∀ c, (x.amount c).toInt = ∑ t ∈ Tag.all, d.amount c t := by
  rw [Deltas.total_eq_ok_iff]
  simp only [entrySum, sum_map_amount hd]

/-- There is a sum over all tags exactly if the sum of the entries stays within the signed words. -/
lemma exists_total_iff :
    (∃ x, d.total = .ok x) ↔ ∀ l, l <+: d.entries → ∀ c, Fits (entrySum l c) := by
  simp only [total_eq_ok_iff]
  refine ⟨fun ⟨_, h⟩ => h.1, ?_⟩
  intro h
  have hword : ∀ c, (Int64.ofInt (entrySum d.entries c)).toInt = entrySum d.entries c := by
    intro c
    obtain ⟨hlow, hhigh⟩ := h d.entries List.prefix_rfl c
    exact Int64.toInt_ofInt_of_le (by omega) (by omega)
  exact ⟨⟨.ofInt (entrySum d.entries .reserved), .ofInt (entrySum d.entries .committed)⟩, h,
    Column.forall_iff.mpr ⟨hword .reserved, hword .committed⟩⟩

/-- The list of changes says of a tag what the deltas say. -/
lemma Distinct.amount_toList (hd : d.Distinct) (c : Column) (t : Tag) :
    amount ⟨d.toList⟩ c t = d.amount c t := by
  cases hzero : (d.get t).isZero with
  | false =>
      have hmem : (t, d.get t) ∈ d.toList := (hd.mem_toList_iff _).mpr ⟨rfl, hzero⟩
      exact congrArg (fun x : Delta => (x.amount c).toInt)
        ((mem_iff_lookup hd.nodup_toList hzero).mp hmem)
  | true =>
      rw [Totals.amount_of_isZero hzero, amount_of_not_mem]
      intro hmem
      obtain ⟨p, hp, rfl⟩ := List.mem_map.mp hmem
      obtain ⟨hget, hnonzero⟩ := (hd.mem_toList_iff p).mp hp
      rw [hget, hzero] at hnonzero
      cases hnonzero

/-- **The sum over all tags is that over the changes that are listed.** -/
theorem Distinct.total_toList (hd : d.Distinct) {x : Delta} (h : d.total = .ok x) (c : Column) :
    (x.amount c).toInt = entrySum d.toList c := by
  rw [(hd.total_eq_ok_iff.mp h).2 c, entrySum, sum_map_amount hd.nodup_toList]
  simp only [hd.amount_toList]

lemma total_eq_error {o : Overflow} (h : d.total = .error o) : o = .add := by
  have hfold : ∀ (l : List (Tag × Delta)) (start : Delta),
      l.foldlM (fun sum p => sum.plus p.2) start = .error o → o = .add := by
    intro l
    induction l with
    | nil => exact nofun
    | cons p rest ih =>
        intro start h
        rw [List.foldlM_cons] at h
        cases hfirst : start.plus p.2 with
        | error o' =>
            rw [hfirst] at h
            rw [← Except.error.inj h]
            exact (Delta.plus_eq_error hfirst).1
        | ok next =>
            rw [hfirst] at h
            exact ih next h
  exact hfold d.entries {} h

/-- A sum over all tags that is no signed word is not formed. -/
lemma Distinct.total_of_not_fits (hd : d.Distinct) {c : Column}
    (h : ¬ Fits (∑ t ∈ Tag.all, d.amount c t)) : d.total = .error .add := by
  cases htotal : d.total with
  | error o => rw [total_eq_error htotal]
  | ok x => exact absurd ((hd.total_eq_ok_iff.mp htotal).2 c ▸ fits_toInt _) h

end Deltas

/-- **Counters moved twice** are those moved once by the sum, if the first move stays within the
words. -/
theorem Totals.amount_apply_apply {m : Totals} {d e s : Deltas} (hm : m.Sorted) (hd : d.Distinct)
    (he : e.Distinct) (hs : d.plus e = .ok s) {c : Column} {t : Tag}
    (hlow : 0 ≤ m.amount c t + d.amount c t) (hhigh : m.amount c t + d.amount c t < 2 ^ 64) :
    ((m.apply d).apply e).amount c t = (m.apply s).amount c t := by
  have hfirst := amount_apply_clamped hm hd c t
  have hsecond := amount_apply_clamped (hm.apply hd) he c t
  have hboth := amount_apply_clamped hm (hd.plus hs) c t
  rw [Deltas.amount_of_plus he hs] at hboth
  omega

namespace Deltas

/-! ## Recipes -/

/-- How deltas come about. -/
inductive Recipe where
  | empty
  | charge (r : Recipe) (tag : Tag) (state : State) (bytes : Int64)
  | add (r : Recipe) (tag : Tag) (delta : Delta)
  | plus (r s : Recipe)
  | commitOnly (r : Recipe)

namespace Recipe

/-- The deltas that come out, unless a sum stops on the way. -/
def deltas : Recipe → Except Overflow Deltas
  | empty => .ok ∅
  | charge r tag state bytes => r.deltas.map (·.charge tag state bytes)
  | add r tag delta => r.deltas.bind (·.add tag delta)
  | plus r s => r.deltas.bind fun d => s.deltas.bind d.plus
  | commitOnly r => r.deltas.map (·.commitOnly)

/-- The change of a tag in a column, whether it is a signed word or not. -/
def amount : Recipe → Column → Tag → ℤ
  | empty, _, _ => 0
  | charge r tag state bytes, c, t =>
      r.amount c t + if t = tag ∧ c.counts state then bytes.toInt else 0
  | add r tag delta, c, t => r.amount c t + if t = tag then (delta.amount c).toInt else 0
  | plus r s, c, t => r.amount c t + s.amount c t
  | commitOnly r, c, t => if c = .committed then r.amount c t else 0

/-- Every change is a signed word. -/
def Bounded (r : Recipe) : Prop := ∀ c t, Fits (r.amount c t)

/-- Every change is a signed word, now and at every stage before. -/
def InRange : Recipe → Prop
  | empty => True
  | charge r tag state bytes => r.InRange ∧ (charge r tag state bytes).Bounded
  | add r tag delta => r.InRange ∧ (add r tag delta).Bounded
  | plus r s => r.InRange ∧ s.InRange ∧ (plus r s).Bounded
  | commitOnly r => r.InRange

/-- The tags that are mentioned. -/
def tags : Recipe → List Tag
  | empty => []
  | charge r tag _ _ => tag :: r.tags
  | add r tag _ => tag :: r.tags
  | plus r s => r.tags ++ s.tags
  | commitOnly r => r.tags

lemma amount_of_not_mem_tags {r : Recipe} {t : Tag} (h : t ∉ r.tags) (c : Column) :
    r.amount c t = 0 := by
  induction r with
  | empty => rfl
  | charge r tag state bytes ih =>
      rw [tags, List.mem_cons, not_or] at h
      rw [amount, ih h.2, if_neg fun ht => h.1 ht.1, Int.add_zero]
  | add r tag delta ih =>
      rw [tags, List.mem_cons, not_or] at h
      rw [amount, ih h.2, if_neg h.1, Int.add_zero]
  | plus r s ihr ihs =>
      rw [tags, List.mem_append, not_or] at h
      rw [amount, ihr h.1, ihs h.2, Int.add_zero]
  | commitOnly r ih => rw [amount, ih h, ite_self]

/-- It is enough to look at the tags that are mentioned. -/
lemma bounded_iff (r : Recipe) :
    r.Bounded ↔ ∀ t ∈ r.tags, ∀ c ∈ Column.all, Fits (r.amount c t) := by
  refine ⟨fun h t _ c _ => h c t, ?_⟩
  intro h c t
  by_cases ht : t ∈ r.tags
  · exact h t ht c c.mem_all
  · rw [amount_of_not_mem_tags ht]
    decide

instance : DecidablePred Bounded := fun r => decidable_of_iff' _ r.bounded_iff

instance decideInRange : DecidablePred InRange
  | empty => .isTrue trivial
  | charge r tag state bytes =>
      have := decideInRange r
      inferInstanceAs (Decidable (r.InRange ∧ (charge r tag state bytes).Bounded))
  | add r tag delta =>
      have := decideInRange r
      inferInstanceAs (Decidable (r.InRange ∧ (add r tag delta).Bounded))
  | plus r s =>
      have := decideInRange r
      have := decideInRange s
      inferInstanceAs (Decidable (r.InRange ∧ s.InRange ∧ (plus r s).Bounded))
  | commitOnly r => decideInRange r

variable {r : Recipe}

/-- **The deltas of a recipe.**  There are some if every change is a signed word at every stage, and
then no tag has two entries and the amounts are exact. -/
theorem exists_deltas (h : r.InRange) :
    ∃ d, r.deltas = .ok d ∧ d.Distinct ∧ ∀ c t, d.amount c t = r.amount c t := by
  induction r with
  | empty => exact ⟨∅, rfl, distinct_empty, amount_empty⟩
  | charge r tag state bytes ih =>
      obtain ⟨d, hd, hdistinct, hamount⟩ := ih h.1
      refine ⟨d.charge tag state bytes, by rw [deltas, hd]; rfl, hdistinct.charge _ _ _, ?_⟩
      intro c t
      have hfits := h.2 c t
      rw [amount] at hfits ⊢
      rw [amount_charge, hamount]
      simp only [Fits] at hfits
      -- a booking that fits does not stop at an end
      split_ifs at hfits ⊢ <;> omega
  | add r tag delta ih =>
      obtain ⟨d, hd, hdistinct, hamount⟩ := ih h.1
      have hbind : (add r tag delta).deltas = d.add tag delta := by rw [deltas, hd]; rfl
      cases hadd : d.add tag delta with
      | error o =>
          obtain ⟨_, c, hnot⟩ := error_of_add hadd
          have hfits := h.2 c tag
          rw [amount, if_pos rfl, ← hamount] at hfits
          exact absurd hfits hnot
      | ok s =>
          refine ⟨s, hbind.trans hadd, hdistinct.add hadd, ?_⟩
          intro c t
          rw [amount_of_add hadd, hamount, amount]
  | plus r s ihr ihs =>
      obtain ⟨d, hd, hdistinct, hamount⟩ := ihr h.1
      obtain ⟨e, he, hdistinct', hamount'⟩ := ihs h.2.1
      have hbind : (plus r s).deltas = d.plus e := by rw [deltas, hd, he]; rfl
      obtain ⟨x, hx⟩ := exists_plus (d := d) hdistinct' fun c t => by
        rw [hamount, hamount']
        exact h.2.2 c t
      refine ⟨x, hbind.trans hx, hdistinct.plus hx, ?_⟩
      intro c t
      rw [amount_of_plus hdistinct' hx, hamount, hamount', amount]
  | commitOnly r ih =>
      obtain ⟨d, hd, hdistinct, hamount⟩ := ih h
      refine ⟨d.commitOnly, by rw [deltas, hd]; rfl, distinct_commitOnly hdistinct, ?_⟩
      intro c t
      rw [amount_commitOnly hdistinct, hamount, amount]

/-- **Deltas are finite maps.**  However they came about, as long as every change was a signed word
at every stage, nothing stops on the way, no tag has two entries, every tag changes by the exact
amount, the list of changes holds the tags that change once each and in ascending order, and deltas
are equal exactly if they change every tag alike.

Two of them have a sum exactly if the sums of the changes are signed words, and it is formed tag by
tag.  So neither the order nor the grouping of a sum makes a difference, and the reserved bytes may
be dropped before or after it.  Counters moved twice are those moved once by the sum, if they do not
leave the words in between.

The sum over all tags is formed in one signed word, although there are many tags.  It is exact, but
there is one only if the sum stays within the signed words from the first entry to the last; if it
does not, forming it stops. -/
theorem built_as_finite_map (r s u : Recipe) (hr : r.InRange) (hs : s.InRange) (hu : u.InRange) :
    ∃ d e f, r.deltas = .ok d ∧ s.deltas = .ok e ∧ u.deltas = .ok f ∧
      (d.entries.map Prod.fst).Nodup ∧
      (∀ c t, d.amount c t = r.amount c t) ∧
      d.toList.Pairwise (fun p q => p.1.raw < q.1.raw) ∧
      (∀ t delta, (t, delta) ∈ d.toList ↔
        delta.isZero = false ∧ ∀ c, (delta.amount c).toInt = r.amount c t) ∧
      ((d == e) = true ↔ ∀ t, d.get t = e.get t) ∧
      ((∃ x, d.plus e = .ok x) ↔ (plus r s).Bounded) ∧
      (∀ x, d.plus e = .ok x →
        (∀ c t, x.amount c t = d.amount c t + e.amount c t) ∧
        (∃ y, e.plus d = .ok y ∧ (x == y) = true) ∧
        (∃ y, d.commitOnly.plus e.commitOnly = .ok y ∧ (x.commitOnly == y) = true) ∧
        (∀ y, e.plus f = .ok y →
          ((∃ z, x.plus f = .ok z) ↔ (plus (plus r s) u).Bounded) ∧
          ∀ z, x.plus f = .ok z → ∃ z', d.plus y = .ok z' ∧ (z == z') = true) ∧
        ∀ m : Totals, m.Sorted → ∀ c t, 0 ≤ m.amount c t + d.amount c t →
          m.amount c t + d.amount c t < 2 ^ 64 →
          ((m.apply d).apply e).amount c t = (m.apply x).amount c t) ∧
      (∀ x, d.total = .ok x ↔ (∀ l, l <+: d.entries → ∀ c, Fits (entrySum l c)) ∧
        ∀ c, (x.amount c).toInt = ∑ t ∈ Tag.all, r.amount c t) ∧
      ∀ o, d.total = .error o → o = .add := by
  obtain ⟨d, hd, hdistinct, hexact⟩ := exists_deltas hr
  obtain ⟨e, he, hdistinct', hexact'⟩ := exists_deltas hs
  obtain ⟨f, hf, hdistinct'', hexact''⟩ := exists_deltas hu
  refine ⟨d, e, f, hd, he, hf, hdistinct, hexact, hdistinct.pairwise_toList, ?_,
    hdistinct.beq_iff hdistinct', ?_, ?_, ?_, fun o => total_eq_error⟩
  · intro t delta
    rw [hdistinct.mem_toList_iff_amount]
    simp only [hexact]
  · rw [exists_plus_iff hdistinct']
    simp only [hexact, hexact']
    exact Iff.rfl
  · intro x hx
    have hsum := amount_of_plus hdistinct' hx
    refine ⟨hsum, plus_comm hdistinct hdistinct' hx, commitOnly_plus hdistinct hdistinct' hx, ?_, ?_⟩
    · intro y hy
      refine ⟨?_, fun z hz => plus_assoc hdistinct hdistinct' hdistinct'' hx hy hz⟩
      rw [exists_plus_iff hdistinct'']
      simp only [hsum, hexact, hexact', hexact'']
      exact Iff.rfl
    · intro m hm c t hlow hhigh
      exact Totals.amount_apply_apply hm hdistinct hdistinct' hx hlow hhigh
  · intro x
    rw [hdistinct.total_eq_ok_iff]
    simp only [hexact]

/-- A page of committed memory, after reserved memory that went again. -/
def cancelling : Recipe :=
  (((empty.charge ⟨2⟩ .reserved 0x800).charge ⟨1⟩ .committed 0x1000).charge ⟨2⟩ .reserved (-0x800))

/-- The same page, put together from a part and the rest, which is booked with another tag first. -/
def assembled : Recipe :=
  plus (((empty.add ⟨3⟩ { commit := 8 }).charge ⟨1⟩ .committed 0xc00).add ⟨3⟩ { commit := -8 })
    (empty.charge ⟨1⟩ .committed 0x400)

/-- Both change every tag alike, and the page counts twice after both. -/
theorem cancelling_like_assembled :
    cancelling.InRange ∧ assembled.InRange ∧ empty.InRange ∧
      ∃ d e x, cancelling.deltas = .ok d ∧ assembled.deltas = .ok e ∧ (∀ t, d.get t = e.get t) ∧
        d.total = .ok { reserve := 0x1000, commit := 0x1000 } ∧ d.plus e = .ok x ∧
        x.amount .committed ⟨1⟩ = 0x2000 ∧
        ((Totals.empty.apply d).apply e).amount .reserved ⟨1⟩ = 0x2000 := by
  have hr : cancelling.InRange := by decide +kernel
  have hs : assembled.InRange := by decide +kernel
  obtain ⟨d, e, _, hd, he, _, _, _, _, _, heq, hbounded, hsums, _, _⟩ :=
    built_as_finite_map cancelling assembled empty hr hs trivial
  obtain ⟨x, hx⟩ := hbounded.mpr (by decide +kernel)
  obtain ⟨hadd, _, _, _, hmove⟩ := hsums x hx
  refine ⟨hr, hs, trivial, d, e, x, hd, he, heq.mp ?_, ?_, hx, ?_, ?_⟩
  · obtain rfl := Except.ok.inj hd
    obtain rfl := Except.ok.inj he
    decide
  · obtain rfl := Except.ok.inj hd
    rfl
  · rw [hadd]
    obtain rfl := Except.ok.inj hd
    obtain rfl := Except.ok.inj he
    decide
  · rw [hmove Totals.empty List.Pairwise.nil .reserved ⟨1⟩ ?_ ?_]
    all_goals
      obtain rfl := Except.ok.inj hd
      obtain rfl := Except.ok.inj he
      obtain rfl := Except.ok.inj hx
      decide

/-- The longest span under each of two tags. -/
def longestTwice : Recipe :=
  (empty.charge ⟨1⟩ .reserved Int64.maxValue).charge ⟨2⟩ .reserved Int64.maxValue

/-- **The sum over all tags may not be formed** although every change is a signed word. -/
theorem longest_total_stops :
    longestTwice.InRange ∧ ∑ t ∈ Tag.all, longestTwice.amount .reserved t = 2 ^ 64 - 2 ∧
      ∃ d, longestTwice.deltas = .ok d ∧ d.total = .error .add := by
  have hrange : longestTwice.InRange := by decide +kernel
  obtain ⟨d, hd, hdistinct, hamount⟩ := exists_deltas hrange
  have hsum : ∑ t ∈ Tag.all, longestTwice.amount .reserved t = 2 ^ 64 - 2 := by
    simp only [← hamount]
    refine (sum_map_amount hdistinct .reserved).symm.trans ?_
    obtain rfl := Except.ok.inj hd
    decide
  refine ⟨hrange, hsum, d, hd, hdistinct.total_of_not_fits (c := .reserved) ?_⟩
  simp only [hamount]
  rw [hsum]
  decide

end Recipe

end Deltas

end RegionLedger
