import Mathlib.Algebra.Order.Ring.Int
import Mathlib.Data.List.Sort
import Mathlib.Tactic.Common
import RegionLedger.Accounting.Deltas
import RegionLedger.Proofs.Steps

/-!
# Amounts

Deltas have two columns, one for reserved and one for committed bytes.  What they say of a tag is
read as an integer here, and the operations on deltas are described by the amounts before and after.
A sum of signed words is exact, and there is one exactly if it fits a signed word; the numbers that
an operation forms are listed, so that this can be said of all of them.

* `Column`, `Deltas.amount` — the amounts of a tag.
* `Fits` — the signed words among the integers.
* `signedOr_eq_ok_iff`, `Delta.plus_eq_ok_iff` — sums that stop at an overflow.
* `Deltas.amount_charge`, `Deltas.chargeSums` — booking a length.
* `Deltas.amount_of_plus`, `Deltas.exists_plus`, `Deltas.plusSums` — the sum of deltas.
* `Deltas.amount_commitOnly` — the committed column alone.
* `Deltas.Distinct.beq` — deltas that change every tag alike are equal.
* `Deltas.Agree` — such deltas; sums and committed columns of them agree as well.
-/

namespace RegionLedger

/-- What is counted. -/
inductive Column where
  /-- Bytes in use, committed bytes included. -/
  | reserved
  /-- Committed bytes. -/
  | committed
deriving DecidableEq

namespace Column

/-- Whether a byte in the state counts toward the column. -/
def counts : Column → State → Bool
  | reserved, s => s.isReserved
  | committed, s => s.isCommitted

def all : List Column := [reserved, committed]

lemma mem_all (c : Column) : c ∈ all := by cases c <;> simp [all]

lemma forall_iff {P : Column → Prop} : (∀ c, P c) ↔ P reserved ∧ P committed := by
  refine ⟨fun h => ⟨h _, h _⟩, ?_⟩
  rintro ⟨hreserved, hcommitted⟩ (_ | _)
  · exact hreserved
  · exact hcommitted

lemma counts_released (c : Column) : c.counts .released = false := by cases c <;> rfl

end Column

/-- An integer is a signed word. -/
def Fits (z : ℤ) : Prop := -2 ^ 63 ≤ z ∧ z < 2 ^ 63

instance (z : ℤ) : Decidable (Fits z) := inferInstanceAs (Decidable (_ ∧ _))

/-! ## Signed words -/

lemma fits_toInt (x : Int64) : Fits x.toInt := ⟨x.le_toInt, x.toInt_lt⟩

lemma toInt_minValue : Int64.minValue.toInt = -2 ^ 63 := by decide

lemma toInt_maxValue : Int64.maxValue.toInt = 2 ^ 63 - 1 := by decide

/-- **There is an answer exactly if the integer is a signed word**, and then it is that word. -/
theorem signedOr_eq_ok_iff {o : Overflow} {z : ℤ} {x : Int64} :
    signedOr o z = .ok x ↔ x.toInt = z := by
  have hx := fits_toInt x
  simp only [Fits] at hx
  rw [signedOr, toInt_minValue, toInt_maxValue]
  split_ifs with h
  · rw [Except.ok.injEq, ← Int64.toInt_inj, Int64.toInt_ofInt_of_le (by omega) (by omega)]
    exact eq_comm
  · refine ⟨nofun, ?_⟩
    rintro rfl
    omega

lemma signedOr_eq_error {o o' : Overflow} {z : ℤ} (h : signedOr o z = .error o') :
    o' = o ∧ ¬ Fits z := by
  rw [signedOr, toInt_minValue, toInt_maxValue] at h
  split_ifs at h with hz
  refine ⟨(Except.error.inj h).symm, ?_⟩
  simp only [Fits]
  omega

/-- A saturating sum that fits is exact. -/
lemma toInt_addSaturating (x y : Int64) :
    (addSaturating x y).toInt = max (-2 ^ 63) (min (x.toInt + y.toInt) (2 ^ 63 - 1)) := by
  rw [addSaturating, toInt_nearestSigned, toInt_minValue, toInt_maxValue]

/-- The length of a range as a signed word. -/
lemma toInt_span (n : UInt64) : (span n).toInt = min n.toNat (2 ^ 63 - 1) := by
  rw [span, toInt_nearestSigned, toInt_minValue, toInt_maxValue]
  omega

/-! ## Changes of one tag -/

namespace Delta

/-- The change in a column. -/
def amount (d : Delta) : Column → Int64
  | .reserved => d.reserve
  | .committed => d.commit

/-- A change is determined by its amounts. -/
lemma eq_of_amount_eq {x y : Delta} (h : ∀ c, (x.amount c).toInt = (y.amount c).toInt) : x = y :=
  congrArg₂ mk (Int64.toInt_inj.mp (h .reserved)) (Int64.toInt_inj.mp (h .committed))

/-- No change has no amount. -/
lemma toInt_amount_none (c : Column) : (({} : Delta).amount c).toInt = 0 := by cases c <;> rfl

lemma ofAmounts_eq_ok_iff {reserve commit : Except Overflow Int64} {z : Delta} :
    ofAmounts reserve commit = .ok z ↔ reserve = .ok z.reserve ∧ commit = .ok z.commit := by
  rw [ofAmounts, bind_eq_ok_iff]
  constructor
  · rintro ⟨x, hx, h⟩
    obtain ⟨y, hy, ⟨⟩⟩ := bind_eq_ok_iff.mp h
    exact ⟨hx, hy⟩
  · rintro ⟨hreserve, hcommit⟩
    exact ⟨_, hreserve, bind_eq_ok_iff.mpr ⟨_, hcommit, rfl⟩⟩

lemma ofAmounts_eq_error {reserve commit : Except Overflow Int64} {o : Overflow}
    (h : ofAmounts reserve commit = .error o) : reserve = .error o ∨ commit = .error o := by
  cases reserve with
  | error o' => exact .inl (congrArg Except.error (Except.error.inj h))
  | ok x =>
      cases commit with
      | error o' => exact .inr (congrArg Except.error (Except.error.inj h))
      | ok y => cases h

/-- **The sum of two changes** is the change with the exact amounts, if there is one. -/
theorem plus_eq_ok_iff {x y z : Delta} :
    x.plus y = .ok z ↔ ∀ c, (z.amount c).toInt = (x.amount c).toInt + (y.amount c).toInt := by
  rw [Column.forall_iff, plus, ofAmounts_eq_ok_iff, addSigned, addSigned, signedOr_eq_ok_iff,
    signedOr_eq_ok_iff]
  exact Iff.rfl

/-- There is no sum only if an amount does not fit. -/
lemma plus_eq_error {x y : Delta} {o : Overflow} (h : x.plus y = .error o) :
    o = .add ∧ ∃ c, ¬ Fits ((x.amount c).toInt + (y.amount c).toInt) := by
  rcases ofAmounts_eq_error h with h | h
  · obtain ⟨rfl, hfits⟩ := signedOr_eq_error h
    exact ⟨rfl, .reserved, hfits⟩
  · obtain ⟨rfl, hfits⟩ := signedOr_eq_error h
    exact ⟨rfl, .committed, hfits⟩

end Delta

/-- Ascending lists with the same entries are equal. -/
lemma eq_of_mem_iff_of_ascending {α : Type} {l m : List (Tag × α)}
    (hl : l.Pairwise fun p q => p.1.raw < q.1.raw) (hm : m.Pairwise fun p q => p.1.raw < q.1.raw)
    (h : ∀ p, p ∈ l ↔ p ∈ m) : l = m := by
  have hirrefl : Std.Irrefl fun p q : Tag × α => p.1.raw < q.1.raw :=
    ⟨fun p => UInt16.lt_irrefl p.1.raw⟩
  have hantisymm : Std.Antisymm fun p q : Tag × α => p.1.raw < q.1.raw :=
    ⟨fun p q hpq hqp => absurd (UInt16.lt_trans hpq hqp) (UInt16.lt_irrefl p.1.raw)⟩
  exact hl.eq_of_mem_iff hm h

namespace Deltas

/-- The change of a tag in a column, as an integer. -/
def amount (d : Deltas) (c : Column) (t : Tag) : ℤ := ((d.get t).amount c).toInt

@[simp] lemma amount_empty (c : Column) (t : Tag) : (∅ : Deltas).amount c t = 0 := by
  cases c <;> rfl

lemma fits_amount (d : Deltas) (c : Column) (t : Tag) : Fits (d.amount c t) := fits_toInt _

/-- No tag is booked in two places. -/
def Distinct (d : Deltas) : Prop := (d.entries.map Prod.fst).Nodup

lemma distinct_empty : (∅ : Deltas).Distinct := List.nodup_nil

lemma mem_map_update (tag t : Tag) (f : Delta → Delta) (l : List (Tag × Delta)) :
    t ∈ (update tag f l).map Prod.fst ↔ t = tag ∨ t ∈ l.map Prod.fst := by
  induction l with
  | nil => simp [update]
  | cons p rest ih =>
      obtain ⟨s, d⟩ := p
      rw [update]
      split_ifs with hs
      · simp [hs]
      · rw [List.map_cons, List.mem_cons, ih, List.map_cons, List.mem_cons]
        tauto

lemma nodup_update (tag : Tag) (f : Delta → Delta) {l : List (Tag × Delta)}
    (hl : (l.map Prod.fst).Nodup) : ((update tag f l).map Prod.fst).Nodup := by
  induction l with
  | nil => simp [update]
  | cons p rest ih =>
      obtain ⟨s, d⟩ := p
      obtain ⟨hs, hrest⟩ := List.nodup_cons.mp hl
      rw [update]
      split_ifs with hst
      · exact hl
      · rw [List.map_cons, List.nodup_cons, mem_map_update, not_or]
        exact ⟨⟨hst, hs⟩, ih hrest⟩

/-! ## Booking a length -/

variable {d e : Deltas}

lemma Distinct.charge (hd : d.Distinct) (tag : Tag) (state : State) (bytes : Int64) :
    (d.charge tag state bytes).Distinct := by
  unfold Deltas.charge
  split_ifs
  · exact hd
  · cases state with
    | released => exact hd
    | _ => exact nodup_update _ _ hd

lemma amount_update (l : List (Tag × Delta)) (tag : Tag) (f : Delta → Delta) (c : Column)
    (t : Tag) : amount ⟨update tag f l⟩ c t =
      if t = tag then ((f (lookup t l)).amount c).toInt else amount ⟨l⟩ c t := by
  rw [amount, get, lookup_update]
  split_ifs <;> rfl

/-- **What a booking does to the amounts.** -/
theorem amount_charge (d : Deltas) (tag : Tag) (state : State) (bytes : Int64) (c : Column)
    (t : Tag) : (d.charge tag state bytes).amount c t =
      if t = tag ∧ c.counts state then
        max (-2 ^ 63) (min (d.amount c t + bytes.toInt) (2 ^ 63 - 1))
      else d.amount c t := by
  unfold Deltas.charge
  split_ifs with hbytes hcounts hcounts
  · have hfits := d.fits_amount c t
    rw [hbytes, Int64.toInt_zero]
    simp only [Fits] at hfits
    omega
  · rfl
  · cases state with
    | released => cases c <;> cases hcounts.2
    | reserved =>
        cases c with
        | committed => cases hcounts.2
        | reserved =>
            rw [amount_update, if_pos hcounts.1]
            exact toInt_addSaturating _ _
    | committed =>
        rw [amount_update, if_pos hcounts.1]
        cases c <;> exact toInt_addSaturating _ _
  · cases state with
    | released => rfl
    | reserved =>
        rw [amount_update]
        split_ifs with ht
        · cases c with
          | reserved => exact absurd ⟨ht, rfl⟩ hcounts
          | committed => rfl
        · rfl
    | committed =>
        rw [amount_update, if_neg fun ht => hcounts ⟨ht, by cases c <;> rfl⟩]

/-- The numbers formed when `bytes` are booked: the length and the sums it enters. -/
def chargeSums (d : Deltas) (tag : Tag) (state : State) (bytes : ℤ) : List ℤ :=
  bytes :: (Column.all.filter (·.counts state)).map fun c => d.amount c tag + bytes

/-- A booking whose numbers fit is exact. -/
lemma amount_charge_of_fits {tag : Tag} {state : State} {bytes : Int64}
    (h : ∀ z ∈ d.chargeSums tag state bytes.toInt, Fits z) (c : Column) (t : Tag) :
    (d.charge tag state bytes).amount c t =
      d.amount c t + if t = tag ∧ c.counts state then bytes.toInt else 0 := by
  rw [amount_charge]
  split_ifs with hcounts
  · have hfits : Fits (d.amount c t + bytes.toInt) := by
      refine h _ (List.mem_cons_of_mem _ (List.mem_map.mpr ⟨c, ?_, by rw [hcounts.1]⟩))
      exact List.mem_filter.mpr ⟨c.mem_all, hcounts.2⟩
    simp only [Fits] at hfits
    omega
  · rw [Int.add_zero]

/-! ## Sums -/

lemma isZero_iff_amount {delta : Delta} :
    delta.isZero = true ↔ ∀ c, (delta.amount c).toInt = 0 := by
  rw [Column.forall_iff, Delta.isZero, Bool.and_eq_true, beq_iff_eq, beq_iff_eq, ← Int64.toInt_inj,
    ← Int64.toInt_inj]
  exact Iff.rfl

variable {s : Deltas} {o : Overflow}

/-- What adding a change comes down to. -/
lemma add_cases {tag : Tag} {delta : Delta} {r : Except Overflow Deltas}
    (h : d.add tag delta = r) :
    delta.isZero = true ∧ r = .ok d ∨
      (∃ sum, (d.get tag).plus delta = .ok sum ∧ r = .ok ⟨update tag (fun _ => sum) d.entries⟩) ∨
      ∃ o, (d.get tag).plus delta = .error o ∧ r = .error o := by
  rw [add] at h
  split_ifs at h with hzero
  · exact .inl ⟨hzero, h.symm⟩
  · cases hsum : (d.get tag).plus delta with
    | ok sum => exact .inr (.inl ⟨sum, rfl, by rw [← h, hsum]; rfl⟩)
    | error o => exact .inr (.inr ⟨o, rfl, by rw [← h, hsum]; rfl⟩)

lemma Distinct.add (hd : d.Distinct) {tag : Tag} {delta : Delta} (h : d.add tag delta = .ok s) :
    s.Distinct := by
  obtain ⟨_, hs⟩ | ⟨sum, _, hs⟩ | ⟨o, _, hs⟩ := add_cases h
  · rwa [Except.ok.inj hs]
  · rw [Except.ok.inj hs]
    exact nodup_update _ _ hd
  · cases hs

/-- **An added change** is seen by its own tag and by no other. -/
theorem amount_of_add {tag : Tag} {delta : Delta} (h : d.add tag delta = .ok s) (c : Column)
    (t : Tag) : s.amount c t = d.amount c t + if t = tag then (delta.amount c).toInt else 0 := by
  obtain ⟨hzero, hs⟩ | ⟨sum, hsum, hs⟩ | ⟨o, _, hs⟩ := add_cases h
  · rw [Except.ok.inj hs, isZero_iff_amount.mp hzero, ite_self, Int.add_zero]
  · rw [Except.ok.inj hs, amount_update]
    split_ifs with ht
    · rw [ht]
      exact Delta.plus_eq_ok_iff.mp hsum c
    · exact (Int.add_zero _).symm
  · cases hs

/-- A change is not added only if an amount does not fit. -/
lemma error_of_add {tag : Tag} {delta : Delta} (h : d.add tag delta = .error o) :
    o = .add ∧ ∃ c, ¬ Fits (d.amount c tag + (delta.amount c).toInt) := by
  obtain ⟨_, hs⟩ | ⟨sum, _, hs⟩ | ⟨o', hsum, hs⟩ := add_cases h
  · cases hs
  · cases hs
  · rw [Except.error.inj hs]
    exact Delta.plus_eq_error hsum

/-- The entries are added one after the other. -/
def addEach (d : Deltas) (l : List (Tag × Delta)) : Except Overflow Deltas :=
  l.foldlM (fun d p => d.add p.1 p.2) d

lemma addEach_cons (d : Deltas) (p : Tag × Delta) (l : List (Tag × Delta)) :
    d.addEach (p :: l) = d.add p.1 p.2 >>= fun d => d.addEach l := rfl

lemma addEach_of_add {p : Tag × Delta} {l : List (Tag × Delta)} {d' : Deltas}
    (h : d.add p.1 p.2 = .ok d') : d.addEach (p :: l) = d'.addEach l := by
  rw [addEach_cons, h]
  rfl

/-- The first entry is added, and then the others. -/
lemma exists_add_of_addEach {p : Tag × Delta} {l : List (Tag × Delta)}
    (h : d.addEach (p :: l) = .ok s) : ∃ d', d.add p.1 p.2 = .ok d' ∧ d'.addEach l = .ok s := by
  rw [addEach_cons] at h
  exact bind_eq_ok_iff.mp h

/-- The numbers formed when the entries are added one after the other. -/
def entrySums (d : Deltas) : List (Tag × Delta) → List ℤ
  | [] => []
  | (tag, delta) :: rest =>
      Column.all.map (fun c => d.amount c tag + (delta.amount c).toInt) ++
        match d.add tag delta with
        | .ok d => entrySums d rest
        | .error _ => []

/-- The numbers formed in a sum of deltas. -/
def plusSums (d e : Deltas) : List ℤ := d.entrySums e.entries

/-- **A sum that there is forms only numbers that fit.** -/
lemma fits_of_mem_entrySums {l : List (Tag × Delta)} (h : d.addEach l = .ok s) :
    ∀ z ∈ d.entrySums l, Fits z := by
  induction l generalizing d with
  | nil => exact nofun
  | cons p rest ih =>
      obtain ⟨d', hadd, hrest⟩ := exists_add_of_addEach h
      intro z hz
      rw [entrySums] at hz
      simp only [hadd] at hz
      rcases List.mem_append.mp hz with hz | hz
      · obtain ⟨c, _, rfl⟩ := List.mem_map.mp hz
        have hamount := amount_of_add hadd c p.1
        rw [if_pos rfl] at hamount
        exact hamount ▸ fits_amount d' c p.1
      · exact ih hrest z hz

lemma amount_cons (tag : Tag) (delta : Delta) (l : List (Tag × Delta)) (c : Column) (t : Tag) :
    amount ⟨(tag, delta) :: l⟩ c t = if tag = t then (delta.amount c).toInt else amount ⟨l⟩ c t := by
  show ((if tag = t then delta else lookup t l).amount c).toInt = _
  split_ifs <;> rfl

/-- A tag without an entry does not change. -/
lemma amount_of_not_mem {t : Tag} {l : List (Tag × Delta)} (h : t ∉ l.map Prod.fst) (c : Column) :
    amount ⟨l⟩ c t = 0 := by
  induction l with
  | nil => exact amount_empty c t
  | cons p rest ih =>
      rw [List.map_cons, List.mem_cons, not_or] at h
      rw [amount_cons, if_neg (Ne.symm h.1), ih h.2]

/-- The tag of the first entry does not come up again. -/
lemma amount_cons_of_not_mem {tag : Tag} {l : List (Tag × Delta)} (h : tag ∉ l.map Prod.fst)
    (delta : Delta) (c : Column) (t : Tag) : amount ⟨(tag, delta) :: l⟩ c t =
      (if t = tag then (delta.amount c).toInt else 0) + amount ⟨l⟩ c t := by
  rw [amount_cons]
  by_cases ht : t = tag
  · rw [if_pos ht, if_pos ht.symm, ht, amount_of_not_mem h, Int.add_zero]
  · rw [if_neg ht, if_neg (Ne.symm ht), Int.zero_add]

/-- The entries of different tags are added exactly. -/
lemma amount_of_addEach {l : List (Tag × Delta)} (hl : (l.map Prod.fst).Nodup)
    (h : d.addEach l = .ok s) (c : Column) (t : Tag) :
    s.amount c t = d.amount c t + amount ⟨l⟩ c t := by
  induction l generalizing d with
  | nil =>
      obtain rfl := Except.ok.inj h
      have hnone : amount ⟨[]⟩ c t = 0 := amount_empty c t
      rw [hnone, Int.add_zero]
  | cons p rest ih =>
      obtain ⟨tag, delta⟩ := p
      obtain ⟨htag, hrest⟩ := List.nodup_cons.mp hl
      obtain ⟨d', hadd, hsum⟩ := exists_add_of_addEach h
      rw [ih hrest hsum, amount_of_add hadd, amount_cons_of_not_mem (show tag ∉ _ from htag),
        Int.add_assoc]

/-- Entries of different tags are not added only if an amount does not fit. -/
lemma error_of_addEach {l : List (Tag × Delta)} (hl : (l.map Prod.fst).Nodup)
    (h : d.addEach l = .error o) : o = .add ∧ ∃ c t, ¬ Fits (d.amount c t + amount ⟨l⟩ c t) := by
  induction l generalizing d with
  | nil => cases h
  | cons p rest ih =>
      obtain ⟨tag, delta⟩ := p
      obtain ⟨htag, hrest⟩ := List.nodup_cons.mp hl
      cases hadd : d.add tag delta with
      | error o' =>
          rw [addEach_cons, hadd] at h
          obtain rfl := Except.error.inj h
          obtain ⟨rfl, c, hfits⟩ := error_of_add hadd
          exact ⟨rfl, c, tag, by rwa [amount_cons, if_pos rfl]⟩
      | ok d' =>
          rw [addEach_of_add hadd] at h
          obtain ⟨rfl, c, t, hfits⟩ := ih hrest h
          refine ⟨rfl, c, t, ?_⟩
          rwa [amount_of_add hadd, Int.add_assoc,
            ← amount_cons_of_not_mem (show tag ∉ _ from htag)] at hfits

lemma Distinct.addEach (hd : d.Distinct) {l : List (Tag × Delta)} (h : d.addEach l = .ok s) :
    s.Distinct := by
  induction l generalizing d with
  | nil => rwa [← Except.ok.inj h]
  | cons p rest ih =>
      obtain ⟨d', hadd, hrest⟩ := exists_add_of_addEach h
      exact ih (hd.add hadd) hrest

/-- **A sum of deltas adds the amounts.** -/
theorem amount_of_plus (he : e.Distinct) (h : d.plus e = .ok s) (c : Column) (t : Tag) :
    s.amount c t = d.amount c t + e.amount c t :=
  amount_of_addEach he h c t

/-- **There is no sum only if an amount does not fit.** -/
theorem error_of_plus (he : e.Distinct) (h : d.plus e = .error o) :
    o = .add ∧ ∃ c t, ¬ Fits (d.amount c t + e.amount c t) :=
  error_of_addEach he h

lemma Distinct.plus (hd : d.Distinct) (h : d.plus e = .ok s) : s.Distinct := hd.addEach h

/-- Deltas whose amounts fit can be added. -/
lemma exists_plus (he : e.Distinct) (h : ∀ c t, Fits (d.amount c t + e.amount c t)) :
    ∃ s, d.plus e = .ok s := by
  cases hsum : d.plus e with
  | ok s => exact ⟨s, rfl⟩
  | error o =>
      obtain ⟨_, c, t, hnot⟩ := error_of_plus he hsum
      exact absurd (h c t) hnot

/-- **The exact sum is a sum**, and there is no other. -/
lemma exists_plus_iff (he : e.Distinct) :
    (∃ s, d.plus e = .ok s) ↔ ∀ c t, Fits (d.amount c t + e.amount c t) := by
  refine ⟨?_, exists_plus he⟩
  rintro ⟨s, hs⟩ c t
  exact amount_of_plus he hs c t ▸ fits_amount s c t

/-- Deltas with an amount that does not fit have no sum. -/
lemma plus_of_not_fits (he : e.Distinct) {c : Column} {t : Tag}
    (h : ¬ Fits (d.amount c t + e.amount c t)) : d.plus e = .error .add := by
  cases hsum : d.plus e with
  | ok s => exact absurd ((exists_plus_iff he).mp ⟨s, hsum⟩ c t) h
  | error o => rw [(error_of_plus he hsum).1]

/-! ## The committed column alone -/

/-- The entries without the reserved bytes. -/
def commitEntries (l : List (Tag × Delta)) : List (Tag × Delta) :=
  l.map fun p => (p.1, { commit := p.2.commit })

lemma map_fst_commitEntries (l : List (Tag × Delta)) :
    (commitEntries l).map Prod.fst = l.map Prod.fst := by
  rw [commitEntries, List.map_map]
  rfl

lemma amount_commitEntries (l : List (Tag × Delta)) (c : Column) (t : Tag) :
    amount ⟨commitEntries l⟩ c t = if c = .committed then amount ⟨l⟩ c t else 0 := by
  induction l with
  | nil => cases c <;> rfl
  | cons p rest ih =>
      obtain ⟨tag, delta⟩ := p
      rw [commitEntries, List.map_cons, amount_cons, ← commitEntries, ih, amount_cons]
      cases c with
      | reserved => simp [Delta.amount]
      | committed => rfl

lemma commitOnly_eq (d : Deltas) :
    d.commitOnly = ⟨(commitEntries d.entries).filter fun p => !p.2.isZero⟩ := rfl

lemma distinct_commitOnly (hd : d.Distinct) : d.commitOnly.Distinct := by
  rw [Distinct, ← map_fst_commitEntries] at hd
  exact hd.sublist (List.filter_sublist.map _)

/-- Entries that change nothing can be left out. -/
lemma amount_filter {l : List (Tag × Delta)} (hl : (l.map Prod.fst).Nodup) (c : Column) (t : Tag) :
    amount ⟨l.filter fun p => !p.2.isZero⟩ c t = amount ⟨l⟩ c t := by
  induction l with
  | nil => rfl
  | cons p rest ih =>
      obtain ⟨tag, delta⟩ := p
      obtain ⟨htag, hrest⟩ := List.nodup_cons.mp hl
      rw [List.filter_cons]
      split_ifs with hzero
      · rw [amount_cons, amount_cons, ih hrest]
      · have hnone : (delta.amount c).toInt = 0 := isZero_iff_amount.mp (by simpa using hzero) c
        rw [ih hrest, amount_cons_of_not_mem (show tag ∉ _ from htag), hnone, ite_self, Int.zero_add]

/-- **Dropping the reserved bytes leaves the committed ones.** -/
theorem amount_commitOnly (hd : d.Distinct) (c : Column) (t : Tag) :
    d.commitOnly.amount c t = if c = .committed then d.amount c t else 0 := by
  have hl : ((commitEntries d.entries).map Prod.fst).Nodup := by
    rw [map_fst_commitEntries]
    exact hd
  rw [commitOnly_eq, amount_filter hl, amount_commitEntries]

/-! ## The list of changes -/

lemma mem_insertEntry (e p : Tag × Delta) (l : List (Tag × Delta)) :
    p ∈ insertEntry e l ↔ p = e ∨ p ∈ l := by
  induction l with
  | nil => simp [insertEntry]
  | cons q rest ih =>
      rw [insertEntry]
      split_ifs
      · rw [List.mem_cons]
      · rw [List.mem_cons, ih, List.mem_cons]
        tauto

lemma pairwise_insertEntry {e : Tag × Delta} {l : List (Tag × Delta)}
    (hl : l.Pairwise fun p q => p.1.raw < q.1.raw) (he : e.1 ∉ l.map Prod.fst) :
    (insertEntry e l).Pairwise fun p q => p.1.raw < q.1.raw := by
  induction l with
  | nil => simp [insertEntry]
  | cons q rest ih =>
      obtain ⟨hq, hrest⟩ := List.pairwise_cons.mp hl
      rw [List.map_cons, List.mem_cons, not_or] at he
      have hne : e.1.raw ≠ q.1.raw := fun h => he.1 (congrArg Tag.mk h)
      rw [insertEntry]
      split_ifs with hle
      · refine List.pairwise_cons.mpr ⟨?_, hl⟩
        intro p hp
        rcases List.mem_cons.mp hp with rfl | hp
        · grind
        · have hqp := hq p hp
          grind
      · refine List.pairwise_cons.mpr ⟨?_, ih hrest he.2⟩
        intro p hp
        rcases (mem_insertEntry e p rest).mp hp with rfl | hp
        · grind
        · exact hq p hp

lemma mem_foldr_insertEntry (l : List (Tag × Delta)) (p : Tag × Delta) :
    p ∈ l.foldr insertEntry [] ↔ p ∈ l := by
  induction l with
  | nil => rfl
  | cons e rest ih => rw [List.foldr_cons, mem_insertEntry, ih, List.mem_cons]

lemma Distinct.pairwise_toList (hd : d.Distinct) :
    d.toList.Pairwise fun p q => p.1.raw < q.1.raw := by
  have hsorted : ∀ l : List (Tag × Delta), (l.map Prod.fst).Nodup →
      (l.foldr insertEntry []).Pairwise fun p q => p.1.raw < q.1.raw := by
    intro l hl
    induction l with
    | nil => exact List.Pairwise.nil
    | cons e rest ih =>
        obtain ⟨he, hrest⟩ := List.nodup_cons.mp hl
        have hnot : e.1 ∉ (rest.foldr insertEntry []).map Prod.fst := by
          intro hmem
          obtain ⟨p, hp, hpe⟩ := List.mem_map.mp hmem
          exact he (List.mem_map.mpr ⟨p, (mem_foldr_insertEntry rest p).mp hp, hpe⟩)
        exact pairwise_insertEntry (ih hrest) hnot
  exact hsorted _ (hd.sublist (List.filter_sublist.map _))

/-- A tag that changes is listed once. -/
lemma Distinct.nodup_toList (hd : d.Distinct) : (d.toList.map Prod.fst).Nodup := by
  rw [List.Nodup, List.pairwise_map]
  refine hd.pairwise_toList.imp ?_
  intro p q hlt heq
  exact UInt16.lt_irrefl _ (heq ▸ hlt)

/-- The entry of a tag is its change. -/
lemma mem_iff_lookup {l : List (Tag × Delta)} (hl : (l.map Prod.fst).Nodup) {p : Tag × Delta}
    (hp : p.2.isZero = false) : p ∈ l ↔ lookup p.1 l = p.2 := by
  induction l with
  | nil =>
      constructor
      · intro h
        cases h
      · intro h
        rw [← h] at hp
        cases hp
  | cons q rest ih =>
      obtain ⟨t, delta⟩ := q
      obtain ⟨ht, hrest⟩ := List.nodup_cons.mp hl
      rw [List.mem_cons, lookup]
      split_ifs with htp
      · constructor
        · rintro (rfl | hmem)
          · rfl
          · exact absurd (List.mem_map.mpr ⟨p, hmem, htp.symm⟩) ht
        · exact fun hdelta => .inl (Prod.ext htp.symm hdelta.symm)
      · rw [← ih hrest]
        have hne : p ≠ (t, delta) := by
          rintro rfl
          exact htp rfl
        exact or_iff_right hne

/-- The changes are the tags with their amounts, where these are not zero. -/
lemma Distinct.mem_toList_iff (hd : d.Distinct) (p : Tag × Delta) :
    p ∈ d.toList ↔ p.2 = d.get p.1 ∧ p.2.isZero = false := by
  rw [toList, mem_foldr_insertEntry, List.mem_filter, and_comm (a := p.2 = _)]
  simp only [Bool.not_eq_true', and_comm (a := p ∈ d.entries)]
  refine and_congr_right ?_
  intro hp
  rw [mem_iff_lookup hd hp, get]
  exact eq_comm

/-- The list of changes, by amounts. -/
lemma Distinct.mem_toList_iff_amount (hd : d.Distinct) (t : Tag) (delta : Delta) :
    (t, delta) ∈ d.toList ↔
      delta.isZero = false ∧ ∀ c, (delta.amount c).toInt = d.amount c t := by
  rw [hd.mem_toList_iff, and_comm]
  refine and_congr_right fun _ => ?_
  constructor
  · exact fun hdelta c => congrArg (fun x => (x.amount c).toInt) hdelta
  · exact Delta.eq_of_amount_eq

/-- Deltas without a tag in two places that change every tag alike are equal. -/
theorem Distinct.beq (hd : d.Distinct) (he : e.Distinct) (h : ∀ t, d.get t = e.get t) :
    (d == e) = true := by
  have hlist : d.toList = e.toList := by
    refine eq_of_mem_iff_of_ascending hd.pairwise_toList he.pairwise_toList ?_
    intro p
    rw [hd.mem_toList_iff, he.mem_toList_iff, h]
  show (d.toList == e.toList) = true
  rw [hlist, beq_self_eq_true]

lemma get_eq_of_amount_eq {t : Tag} (h : ∀ c, d.amount c t = e.amount c t) : d.get t = e.get t :=
  Delta.eq_of_amount_eq h

/-! ## The same changes -/

/-- Deltas that change every tag alike. -/
structure Agree (d e : Deltas) : Prop where
  left : d.Distinct
  right : e.Distinct
  get : ∀ t, d.get t = e.get t

namespace Agree

lemma amount (h : Agree d e) (c : Column) (t : Tag) : d.amount c t = e.amount c t := by
  rw [Deltas.amount, Deltas.amount, h.get]

/-- **Sums of deltas that agree** agree as well, if there are any. -/
lemma exists_plus {d' e' : Deltas} (h : Agree d e) (h' : Agree d' e') (hs : d.plus d' = .ok s) :
    ∃ s', e.plus e' = .ok s' ∧ Agree s s' := by
  have hamount := amount_of_plus h'.left hs
  obtain ⟨s', hs'⟩ := Deltas.exists_plus (d := e) h'.right fun c t => by
    rw [← h.amount, ← h'.amount, ← hamount]
    exact fits_amount s c t
  refine ⟨s', hs', h.left.plus hs, h.right.plus hs', ?_⟩
  intro t
  refine get_eq_of_amount_eq ?_
  intro c
  rw [hamount, amount_of_plus h'.right hs', h.amount, h'.amount]

lemma plus_error {d' e' : Deltas} (h : Agree d e) (h' : Agree d' e') (hs : d.plus d' = .error o) :
    e.plus e' = .error o := by
  obtain ⟨rfl, c, t, hfits⟩ := error_of_plus h'.left hs
  rw [h.amount, h'.amount] at hfits
  exact plus_of_not_fits h'.right hfits

lemma commitOnly (h : Agree d e) : Agree d.commitOnly e.commitOnly := by
  refine ⟨distinct_commitOnly h.left, distinct_commitOnly h.right, ?_⟩
  intro t
  refine get_eq_of_amount_eq ?_
  intro c
  rw [amount_commitOnly h.left, amount_commitOnly h.right, h.amount]

/-- **Deltas that agree are listed alike.** -/
theorem toList_eq (h : Agree d e) : d.toList = e.toList :=
  eq_of_beq (h.left.beq h.right h.get)

end Agree

end Deltas

end RegionLedger
