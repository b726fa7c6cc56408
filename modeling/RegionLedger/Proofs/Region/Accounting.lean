import RegionLedger.Proofs.Region.Refinement

/-!
# The accounts of a region map

The deltas that mutations return are the exact change of the byte counts of every tag.  A count from
scratch gives the byte counts themselves, up to the longest span; so as long as no tag holds more
than that, the returned deltas add up to the count from scratch.

* `Mutation.sums`, `RegionMap.Represents.apply_books` — a mutation forms only numbers that fit, and
  books the change.
* `RegionMap.Represents.amount_tally` — the count from scratch.
* `RegionMap.returned`, `RegionMap.booked` — the deltas returned along a run, and their sum.
* `RegionMap.run_books_exactly` — deltas, count from scratch and sums, for every run.
-/

namespace RegionLedger

variable {μ : Type} [Metadata μ]

section Mutations

/-! ## Mutations -/

variable [DecidableEq μ]

/-- The numbers formed when the effect is carried out. -/
def Effect.sums (m : RegionMap μ) (a b : Address) : Effect μ → List ℤ
  | whole state data mode => m.assignSums a b state data mode
  | parts selects choose =>
      RegionMap.eachSums choose (∅, m) ((m.segments a b).filter fun r => selects r.side)

/-- The numbers formed when the mutation is carried out.  None are formed for a refused range. -/
def Mutation.sums (m : RegionMap μ) (c : Mutation μ) : List ℤ :=
  match c.checkedStop with
  | .ok b => c.effect.sums m c.first b
  | .error _ => []

namespace RegionMap

variable {m m' : RegionMap μ} {f : Bytes μ} {a b : Address} {d : Deltas}

/-- An effect on a range books the change exactly. -/
lemma Represents.effect_books (h : m.Represents f) (hab : a < b) (hspan : b - a ≤ maxSpan)
    {e : Effect μ} (hok : e.on m a b = .ok (d, m')) :
    (∀ z ∈ e.sums m a b, Fits z) ∧ ∃ g, m'.Represents g ∧ d.Books f g := by
  cases e with
  | whole state data mode =>
      obtain ⟨hsums, h', hbooks⟩ := h.assign_books hok
      exact ⟨hsums, _, h', hbooks⟩
  | parts selects choose =>
      have hshows := (h.tiles_segments hab).shows_filter fun r => selects r.side
      rw [Effect.on] at hok
      by_cases room : m.size +
          m.missing (ends ((m.segments a b).filter fun r => selects r.side)) ≤ Slots.limit
      · obtain ⟨d', m'', hassign, h', hbooks, hsums⟩ :=
          h.assignEach_ok hshows (toNat_sub_le hab hspan) choose room
        rw [hassign, Except.ok.injEq, Prod.mk.injEq] at hok
        obtain ⟨rfl, rfl⟩ := hok
        exact ⟨hsums, _, h', hbooks⟩
      · rw [h.assignEach_full choose (by omega)] at hok
        cases hok

/-- **A mutation books the change exactly**, and forms only numbers that fit. -/
theorem Represents.apply_books (h : m.Represents f) {c : Mutation μ}
    (hok : c.apply m = .ok (d, m')) :
    (∀ z ∈ c.sums m, Fits z) ∧ ∃ g, m'.Represents g ∧ d.Books f g := by
  obtain ⟨_, hvalid, _⟩ := h.of_apply_eq_ok hok
  obtain ⟨b, hb, hab, hspan⟩ := hvalid.exists_stop
  rw [Mutation.apply_valid hvalid m hb] at hok
  rw [Mutation.sums, hvalid.checkedStop_eq hb]
  exact h.effect_books hab hspan hok

end RegionMap

end Mutations

namespace RegionMap

variable {m : RegionMap μ} {f : Bytes μ}

/-! ## Counting from scratch -/

/-- Where there is no further jump, nothing counts. -/
lemma Represents.heldFrom_eq_zero (h : m.Represents f) {a : Address}
    (hnone : ∀ z, a < z → ¬ f.Jumps z) (c : Column) (t : Tag) : f.heldFrom a c t = 0 := by
  rw [Bytes.heldFrom, Set.ncard_eq_zero, Set.eq_empty_iff_forall_notMem]
  rintro x ⟨hax, hcounts⟩
  have hlast : f lastAddress = f x := by
    refine Bytes.eq_of_forall_not_jumps (le_lastAddress x) ?_
    intro z hz _
    exact hnone z (by grind)
  rw [← hlast, h.last_released] at hcounts
  exact Side.not_countsIn_released c t hcounts

/-- **The runs between boundaries, counted.**  The list has the boundaries after `cursor`, and the
counts stop at the longest span. -/
lemma Represents.amount_tally_go (h : m.Represents f) {cursor : Address}
    {pts : List (Address × Boundary μ)}
    (hmem : ∀ p, p ∈ pts ↔ cursor < p.1 ∧ f.Jumps p.1 ∧ p.2 = f.boundary p.1)
    (hsorted : pts.Pairwise fun p q => p.1 < q.1) {d : Deltas} (hd : ∀ c t, 0 ≤ d.amount c t)
    (c : Column) (t : Tag) :
    (tally.go d cursor (f cursor) pts).amount c t =
      min (d.amount c t + f.heldFrom cursor c t) (2 ^ 63 - 1) := by
  induction pts generalizing cursor d with
  | nil =>
      have hnone : ∀ z, cursor < z → ¬ f.Jumps z := by
        intro z hz hjump
        exact absurd ((hmem (z, f.boundary z)).mpr ⟨hz, hjump, rfl⟩) List.not_mem_nil
      have hfits := d.fits_amount c t
      rw [tally.go, h.heldFrom_eq_zero hnone]
      simp only [Fits] at hfits
      omega
  | cons p rest ih =>
      obtain ⟨k, b⟩ := p
      obtain ⟨hfirst, hrest⟩ := List.pairwise_cons.mp hsorted
      obtain ⟨hk, hjump, hb⟩ := (hmem (k, b)).mp List.mem_cons_self
      simp only at hk hjump hb
      subst hb
      have hsame : ∀ x, cursor ≤ x → x < k → f x = f cursor := by
        intro x hx hxk
        refine eq_of_lt_first hsorted ?_ hx hxk
        intro z hz _ hjump'
        exact (hmem (z, f.boundary z)).mpr ⟨hz, hjump', rfl⟩
      have hmem' : ∀ q, q ∈ rest ↔ k < q.1 ∧ f.Jumps q.1 ∧ q.2 = f.boundary q.1 := by
        intro q
        constructor
        · intro hq
          exact ⟨hfirst q hq, ((hmem q).mp (List.mem_cons_of_mem _ hq)).2⟩
        · rintro ⟨hkq, hq⟩
          rcases List.mem_cons.mp ((hmem q).mpr ⟨UInt64.lt_trans hk hkq, hq⟩) with rfl | hin
          · exact absurd hkq (UInt64.lt_irrefl _)
          · exact hin
      have hcharge : ∀ c t,
          (d.charge (f cursor).tag (f cursor).state (span (k - cursor))).amount c t =
            min (d.amount c t + f.heldIn cursor k c t) (2 ^ 63 - 1) := by
        intro c t
        have hnonneg := hd c t
        have hfits := d.fits_amount c t
        have hbooked := Deltas.amount_charge d (f cursor).tag (f cursor).state (span (k - cursor)) c t
        rw [toInt_span, UInt64.toNat_sub_of_le _ _ (UInt64.le_of_lt hk)] at hbooked
        rw [Bytes.heldIn_of_same hsame, Side.share]
        simp only [Fits] at hfits
        by_cases hs : (f cursor).CountsIn c t
        · rw [if_pos hs, hbooked.trans (if_pos hs)]
          omega
        · rw [if_neg hs, hbooked.trans (if_neg hs)]
          omega
      rw [tally.go]
      show (tally.go _ k (f k) rest).amount c t = _
      rw [ih hmem' hrest fun c t => by rw [hcharge]; have := hd c t; omega, hcharge,
        Bytes.heldFrom_add (UInt64.le_of_lt hk)]
      have hnonneg := hd c t
      omega

/-- **The count from scratch** gives the bytes of every tag, up to the longest span. -/
theorem Represents.amount_tally (h : m.Represents f) (c : Column) (t : Tag) :
    m.tally.amount c t = min (f.held c t : ℤ) (2 ^ 63 - 1) := by
  rw [Bytes.held_eq_heldFrom, tally]
  have hsorted := h.pairwise_points
  have hmem := h.mem_points_iff
  cases hpts : m.points with
  | nil =>
      rw [hpts] at hmem
      have hnone : ∀ z, ¬ f.Jumps z := fun z hjump =>
        absurd ((hmem (z, f.boundary z)).mpr ⟨hjump, rfl⟩) List.not_mem_nil
      rw [Deltas.amount_empty, h.heldFrom_eq_zero fun z _ => hnone z]
      rfl
  | cons p rest =>
      obtain ⟨first, b⟩ := p
      rw [hpts] at hmem hsorted
      obtain ⟨hfirst, hrest⟩ := List.pairwise_cons.mp hsorted
      obtain ⟨_, hb⟩ := (hmem (first, b)).mp List.mem_cons_self
      simp only at hb
      subst hb
      have hle : ∀ z, f.Jumps z → first ≤ z := by
        intro z hjump
        rcases List.mem_cons.mp ((hmem (z, f.boundary z)).mpr ⟨hjump, rfl⟩) with heq | hin
        · rw [(Prod.mk.inj heq).1]
          exact UInt64.le_refl _
        · exact UInt64.le_of_lt (hfirst _ hin)
      have hbefore : f.heldIn 0 first c t = 0 := by
        have hsame : ∀ x, 0 ≤ x → x < first → f x = .released := by
          intro x _ hx
          refine Bytes.eq_released_of_forall_not_jumps ?_
          intro z hzx hjump
          have hz := hle z hjump
          grind
        rw [Bytes.heldIn_of_same hsame, Side.share, if_neg (Side.not_countsIn_released c t)]
      have hmem' : ∀ q, q ∈ rest ↔ first < q.1 ∧ f.Jumps q.1 ∧ q.2 = f.boundary q.1 := by
        intro q
        constructor
        · intro hq
          exact ⟨hfirst q hq, (hmem q).mp (List.mem_cons_of_mem _ hq)⟩
        · rintro ⟨hq, hjump⟩
          rcases List.mem_cons.mp ((hmem q).mpr hjump) with rfl | hin
          · exact absurd hq (UInt64.lt_irrefl _)
          · exact hin
      have hgo := h.amount_tally_go hmem' hrest (d := ∅) (fun c t => by rw [Deltas.amount_empty]) c t
      rw [Bytes.heldFrom_add (k := first) (by grind), hbefore, Nat.zero_add]
      rw [Deltas.amount_empty, Int.zero_add] at hgo
      exact hgo

lemma distinct_tally (m : RegionMap μ) : m.tally.Distinct := by
  have hgo : ∀ (pts : List (Address × Boundary μ)) (d : Deltas) (cursor : Address) (s : Side μ),
      d.Distinct → (tally.go d cursor s pts).Distinct := by
    intro pts d cursor s hd
    induction pts generalizing d cursor s with
    | nil => exact hd
    | cons p rest ih => exact ih _ _ _ (hd.charge _ _ _)
  rw [tally]
  cases m.points with
  | nil => exact Deltas.distinct_empty
  | cons p rest => exact hgo rest ∅ _ _ Deltas.distinct_empty

/-! ## Adding up what was returned -/

variable [DecidableEq μ]

/-- **A mutation that is carried out writes the bytes of the model and books the change.** -/
theorem Represents.apply_writes (h : m.Represents f) {c : Mutation μ} {d : Deltas}
    {m' : RegionMap μ} (hok : c.apply m = .ok (d, m')) :
    c.Valid ∧ m'.Represents m'.sideAt ∧ m'.sideAt = c.write f ∧ d.Books f m'.sideAt := by
  obtain ⟨_, g, h', hbooks⟩ := h.apply_books hok
  obtain ⟨b, hvalid, hb, hwrites⟩ := h.of_apply_eq_ok hok
  rw [Mutation.write_eq hb] at hwrites
  refine ⟨hvalid, h'.sideAt, funext hwrites.sideAt_eq, ?_⟩
  rw [funext h'.sideAt_eq]
  exact hbooks

/-- The deltas returned by the mutations of a run that are carried out. -/
def returned (m : RegionMap μ) : List (Mutation μ) → List Deltas
  | [] => []
  | c :: cs =>
      match c.apply m with
      | .ok (d, m') => d :: returned m' cs
      | .error _ => returned m cs

/-- The sum of the deltas returned along a run. -/
def booked (m : RegionMap μ) (cs : List (Mutation μ)) : Except Overflow Deltas :=
  (m.returned cs).foldlM Deltas.plus ∅

/-- **The returned deltas add up**, as long as no tag holds more than the longest span. -/
lemma Represents.foldlM_returned_books (h : m.Represents f) {acc : Deltas}
    (hacc : acc.Books .untouched f) {cs : List (Mutation μ)}
    (hheld : ∀ cs', cs' <+: cs → ∀ t,
      Bytes.held (m.run cs').sideAt .reserved t ≤ 2 ^ 63 - 1) :
    ∃ g s, (m.run cs).Represents g ∧ (m.returned cs).foldlM Deltas.plus acc = .ok s ∧
      s.Books .untouched g := by
  induction cs generalizing m f acc with
  | nil => exact ⟨f, acc, h, rfl, hacc⟩
  | cons c cs ih =>
      have hnext : ∀ cs', cs' <+: cs → ∀ t,
          Bytes.held ((m.step c).run cs').sideAt .reserved t ≤ 2 ^ 63 - 1 := by
        intro cs' hcs'
        exact hheld (c :: cs') (List.cons_prefix_cons.mpr ⟨rfl, hcs'⟩)
      have hrun : m.run (c :: cs) = (m.step c).run cs := rfl
      rw [hrun, returned]
      cases happly : c.apply m with
      | error e =>
          have hstep : m.step c = m := by rw [RegionMap.step, happly]
          rw [hstep] at hnext ⊢
          exact ih h hacc hnext
      | ok answer =>
          obtain ⟨d, m'⟩ := answer
          have hstep : m.step c = m' := by rw [RegionMap.step, happly]
          rw [hstep] at hnext ⊢
          obtain ⟨_, g, h', hbooks⟩ := h.apply_books happly
          have hfits : ∀ k t, Fits ((g.held k t : ℤ) - (Bytes.untouched : Bytes μ).held k t) := by
            intro k t
            have hsmall := hnext [] List.nil_prefix t
            rw [RegionMap.run, List.foldl_nil, funext h'.sideAt_eq] at hsmall
            have hle := g.held_committed_le t
            rw [Bytes.held_untouched]
            simp only [Fits]
            cases k <;> omega
          obtain ⟨acc', hplus, hacc'⟩ := hacc.exists_plus hbooks hfits
          obtain ⟨g', s, hrun', hfold, hs⟩ := ih h' hacc' hnext
          refine ⟨g', s, hrun', ?_, hs⟩
          dsimp only
          rw [List.foldlM_cons, hplus]
          exact hfold

/-- **The accounts of a region map are exact.**  After any run of mutations of an empty map, a
mutation that is carried out returns for every tag the change in its bytes, and no number formed on
the way leaves the signed words; the count from scratch gives the bytes of every tag up to the
longest span; and as long as no tag held more than that, the deltas returned since the empty map add
up to the count from scratch. -/
theorem run_books_exactly (draws : Draws) (cs : List (Mutation μ)) :
    (∀ (c : Mutation μ) (d : Deltas) (m' : RegionMap μ),
      c.apply ((empty draws).run cs) = .ok (d, m') →
        (∀ z ∈ c.sums ((empty draws).run cs), Fits z) ∧
        ∀ k t, d.amount k t = (Bytes.held m'.sideAt k t : ℤ) -
          Bytes.held ((empty draws).run cs).sideAt k t) ∧
    (∀ k t, ((empty draws).run cs).tally.amount k t =
      min (Bytes.held ((empty draws).run cs).sideAt k t : ℤ) (2 ^ 63 - 1)) ∧
    ((∀ cs', cs' <+: cs → ∀ t,
        Bytes.held ((empty draws : RegionMap μ).run cs').sideAt .reserved t ≤ 2 ^ 63 - 1) →
      ∃ s, (empty draws).booked cs = .ok s ∧
        (∀ t, s.get t = ((empty draws).run cs).tally.get t) ∧
        (s == ((empty draws).run cs).tally) = true) := by
  have h := (represents_empty draws).run cs
  have hsides := funext h.sideAt_eq
  refine ⟨?_, ?_, ?_⟩
  · intro c d m' hok
    obtain ⟨hsums, g, h', hbooks⟩ := h.apply_books hok
    refine ⟨hsums, ?_⟩
    intro k t
    rw [hbooks.amount, hsides, funext h'.sideAt_eq]
  · intro k t
    rw [h.amount_tally, hsides]
  · intro hheld
    obtain ⟨g, s, h', hfold, hbooks⟩ := (represents_empty draws).foldlM_returned_books
      (Deltas.books_empty .untouched) hheld
    have hget : ∀ t, s.get t = ((empty draws).run cs).tally.get t := by
      intro t
      refine Deltas.get_eq_of_amount_eq ?_
      intro k
      have hsmall := hheld cs (List.prefix_refl cs) t
      rw [funext h'.sideAt_eq] at hsmall
      have hle := g.held_committed_le t
      rw [hbooks.amount, h'.amount_tally, Bytes.held_untouched]
      cases k <;> omega
    exact ⟨s, hfold, hget, hbooks.distinct.beq (distinct_tally _) hget⟩

end RegionMap

end RegionLedger
