import RegionLedger.Proofs.Report.Nesting
import RegionLedger.Report.Queue

/-!
# The nesting loop

The queue of the loop does not get shorter in every turn, but a turn that puts a remainder back is
followed by one that goes on to the next reservation.  So the loop takes at most one turn for each
commitment and two for each reservation, and what it has put together is the listing.

Over ascending reservations and commitments the orphans are described by themselves: each is a part of
a commitment that cannot be made longer without leaving the commitment or entering a reservation.

* `NestingPass.run_carve`, `NestingPass.run_nest` — the turns for one reservation, and all of them.
* `Commitment.Remains` — a maximal part of a commitment outside every reservation.
* `Listing.mem_outside_iff` — the orphans are these parts.
* `NestingPass.run_intersects` — the loop ends with the plain intersections.
-/

namespace RegionLedger

/-! ## The turns -/

/-- What a reservation takes depends on its range only. -/
lemma Reservation.carve_congr {r r' : Reservation} (hstart : r'.start = r.start)
    (hstop : r'.stop = r.stop) (cs : List Commitment) : r'.carve cs = r.carve cs := by
  induction cs with
  | nil => rfl
  | cons c rest ih => rw [carve, carve, hstart, hstop, ih]

namespace NestingPass

/-- **The turns for one reservation** take what it carves.  There is one turn for each commitment that
leaves the queue, one that goes on to the next reservation, and at most one that puts a remainder
back. -/
lemma run_carve (r : Reservation) (todo done : List Reservation) (cs orphans : List Commitment) :
    ∃ m, m + (r.carve cs).left.length ≤ cs.length + 2 ∧
      ∀ n, run (m + n) { todo := r :: todo, pending := cs, done, orphans } =
        run n { todo, pending := (r.carve cs).left,
                done := done ++ [{ r with committed := r.committed ++ (r.carve cs).inside }],
                orphans := orphans ++ (r.carve cs).before } := by
  induction cs generalizing r orphans with
  | nil =>
      refine ⟨1, by simp [Reservation.carve], ?_⟩
      intro n
      rw [Nat.add_comm 1 n, run, turn]
      simp [Reservation.carve]
  | cons c rest ih =>
      rw [Reservation.carve]
      by_cases hbefore : c.stop ≤ r.start
      · -- the commitment lies in front of the reservation
        obtain ⟨m, hm, hrun⟩ := ih r (orphans ++ [c])
        rw [if_pos hbefore]
        refine ⟨m + 1, by simp only [List.length_cons]; omega, ?_⟩
        intro n
        rw [Nat.add_right_comm, run, turn]
        simp only [if_pos hbefore]
        rw [hrun, List.append_assoc, List.singleton_append]
      rw [if_neg hbefore]
      by_cases hbehind : r.stop ≤ c.start
      · -- it lies behind, and stays in the queue
        rw [if_pos hbehind]
        refine ⟨1, by simp only [List.length_cons]; omega, ?_⟩
        intro n
        rw [Nat.add_comm 1 n, run, turn]
        simp [if_neg hbefore, if_pos hbehind]
      rw [if_neg hbehind]
      by_cases hbeyond : r.stop < c.stop
      · -- its remainder comes back to the front, and is found behind in the next turn
        have hremainder : ¬ c.stop ≤ r.start := hbefore
        rw [if_pos hbeyond]
        refine ⟨2, by simp only [List.length_cons]; omega, ?_⟩
        intro n
        rw [Nat.add_comm 2 n, run, turn]
        simp only [if_neg hbefore, if_neg hbehind, if_pos hbeyond]
        rw [run, turn]
        simp only [if_neg hremainder, if_pos (UInt64.le_refl r.stop)]
        split_ifs <;> simp
      · -- it ends inside
        let piece : Commitment := { c with start := max c.start r.start, stop := min c.stop r.stop }
        let taken : Reservation := { r with committed := r.committed ++ [piece] }
        have hcarve : taken.carve rest = r.carve rest :=
          Reservation.carve_congr (show taken.start = r.start from rfl) rfl rest
        obtain ⟨m, hm, hrun⟩ := ih taken
          (orphans ++ if c.start < r.start then [{ c with stop := r.start }] else [])
        rw [hcarve] at hm hrun
        rw [if_neg hbeyond]
        refine ⟨m + 1, by simp only [List.length_cons]; omega, ?_⟩
        intro n
        rw [Nat.add_right_comm, run, turn]
        simp only [if_neg hbefore, if_neg hbehind, if_neg hbeyond]
        split_ifs at hrun ⊢ <;> simp [taken, piece] at hrun ⊢ <;> exact hrun n

/-- **The loop comes to its end with the listing**, whatever the reservations and commitments, within
one turn for each commitment, two for each reservation and a last one. -/
theorem run_nest (rs done : List Reservation) (cs orphans : List Commitment) {n : ℕ}
    (hn : cs.length + 2 * rs.length < n) :
    run n { todo := rs, pending := cs, done, orphans } =
      some { reserved := done ++ (Listing.nest rs cs).reserved
             orphans := orphans ++ (Listing.nest rs cs).orphans } := by
  induction rs generalizing cs done orphans n with
  | nil =>
      obtain ⟨n, rfl⟩ := Nat.exists_eq_add_of_lt hn
      rw [run, turn, Listing.nest]
      simp
  | cons r rest ih =>
      obtain ⟨m, hm, hrun⟩ := run_carve r rest done cs orphans
      rw [List.length_cons] at hn
      obtain ⟨n, rfl⟩ := Nat.exists_eq_add_of_le (show m ≤ n by omega)
      rw [hrun, ih _ _ _ (by omega), Listing.nest]
      simp only [List.append_assoc, List.singleton_append]

end NestingPass

/-! ## Maximal parts -/

/-- `d` is a part of `c` outside every reservation, and it is maximal: no other range inside `c` that
comprises it is outside every reservation. -/
structure Commitment.Remains (rs : List Reservation) (c d : Commitment) : Prop where
  tag : d.tag = c.tag
  stack : d.stack = c.stack
  nonempty : d.start < d.stop
  within : c.start ≤ d.start ∧ d.stop ≤ c.stop
  apart : ∀ r ∈ rs, d.stop ≤ r.start ∨ r.stop ≤ d.start
  maximal : ∀ a b, c.start ≤ a → a ≤ d.start → d.stop ≤ b → b ≤ c.stop →
    (∀ r ∈ rs, b ≤ r.start ∨ r.stop ≤ a) → a = d.start ∧ b = d.stop

namespace Commitment

variable {a b : Address} {c d : Commitment} {r : Reservation} {rs : List Reservation}

/-- Without reservations there is the whole commitment. -/
lemma remains_nil : Remains [] c d ↔ c.start < c.stop ∧ d = c := by
  constructor
  · rintro ⟨htag, hstack, hlt, ⟨hstart, hstop⟩, -, hmax⟩
    obtain ⟨ha, hb⟩ := hmax c.start c.stop (UInt64.le_refl _) hstart hstop (UInt64.le_refl _)
      (fun r hr => absurd hr List.not_mem_nil)
    refine ⟨by rw [ha, hb]; exact hlt, ?_⟩
    cases c
    cases d
    simp_all
  · rintro ⟨hlt, rfl⟩
    refine ⟨rfl, rfl, hlt, ⟨UInt64.le_refl _, UInt64.le_refl _⟩,
      fun r hr => absurd hr List.not_mem_nil, ?_⟩
    intro a b ha ha' hb hb' _
    exact ⟨UInt64.le_antisymm ha' ha, UInt64.le_antisymm hb' hb⟩

/-- In front of the first reservation there is the part that ends with the commitment or there. -/
lemma remains_cons_before (hr : r.start < r.stop) (hrs : ∀ r' ∈ rs, r.stop ≤ r'.start)
    (hd : d.stop ≤ r.start) :
    Remains (r :: rs) c d ↔ Remains [] { c with stop := min c.stop r.start } d := by
  have hothers : ∀ b, b ≤ r.start → ∀ r' ∈ rs, b ≤ r'.start := fun b hb r' hr' =>
    UInt64.le_trans hb (UInt64.le_trans (UInt64.le_of_lt hr) (hrs r' hr'))
  constructor
  · intro h
    obtain ⟨hstart, hstop⟩ := h.within
    refine ⟨h.tag, h.stack, h.nonempty, ⟨hstart, by grind [min_address]⟩,
      fun r' hr' => absurd hr' List.not_mem_nil, ?_⟩
    intro a b ha ha' hb hb' _
    have hcut : b ≤ c.stop ∧ b ≤ r.start := by grind [min_address]
    refine h.maximal a b ha ha' hb hcut.1 ?_
    intro r' hr'
    rcases List.mem_cons.mp hr' with rfl | hr'
    · exact .inl hcut.2
    · exact .inl (hothers b hcut.2 r' hr')
  · intro h
    obtain ⟨hstart, hstop⟩ := h.within
    have hlt := h.nonempty
    refine ⟨h.tag, h.stack, hlt, ⟨hstart, by grind [min_address]⟩, ?_, ?_⟩
    · intro r' hr'
      rcases List.mem_cons.mp hr' with rfl | hr'
      · exact .inl hd
      · exact .inl (hothers d.stop hd r' hr')
    · intro a b ha ha' hb hb' hapart
      -- a range around `d` cannot lie behind the reservation
      have hfront : b ≤ r.start := (hapart r List.mem_cons_self).resolve_right (by grind)
      exact h.maximal a b ha ha' hb (by grind [min_address]) fun r' hr' => absurd hr' List.not_mem_nil

/-- Behind the first reservation it is as if the commitment began with the end of it. -/
lemma remains_cons_behind (hr : r.start < r.stop) (hd : r.stop ≤ d.start) :
    Remains (r :: rs) c d ↔ Remains rs { c with start := max c.start r.stop } d := by
  constructor
  · intro h
    obtain ⟨hstart, hstop⟩ := h.within
    refine ⟨h.tag, h.stack, h.nonempty, ⟨by grind [max_address], hstop⟩,
      fun r' hr' => h.apart r' (List.mem_cons_of_mem r hr'), ?_⟩
    intro a b ha ha' hb hb' hapart
    have hcut : c.start ≤ a ∧ r.stop ≤ a := by grind [max_address]
    refine h.maximal a b hcut.1 ha' hb hb' ?_
    intro r' hr'
    rcases List.mem_cons.mp hr' with rfl | hr'
    · exact .inr hcut.2
    · exact hapart r' hr'
  · intro h
    obtain ⟨hstart, hstop⟩ := h.within
    have hlt := h.nonempty
    refine ⟨h.tag, h.stack, hlt, ⟨by grind [max_address], hstop⟩, ?_, ?_⟩
    · intro r' hr'
      rcases List.mem_cons.mp hr' with rfl | hr'
      · exact .inr hd
      · exact h.apart r' hr'
    · intro a b ha ha' hb hb' hapart
      -- a range around `d` cannot lie in front of the reservation
      have hback : r.stop ≤ a := (hapart r List.mem_cons_self).resolve_left (by grind)
      exact h.maximal a b (by grind [max_address]) ha' hb hb' fun r' hr' =>
        hapart r' (List.mem_cons_of_mem r hr')

lemma mem_filterMap_clip_iff {cs : List Commitment} : d ∈ cs.filterMap (clip a b) ↔
    ∃ c ∈ cs, Remains [] { c with start := max c.start a, stop := min c.stop b } d := by
  simp only [List.mem_filterMap, clip_eq_some_iff, remains_nil]

end Commitment

namespace Listing

/-- **The orphans are the maximal parts** of the commitments outside every reservation. -/
theorem mem_outside_iff {a : Address} {rs : List Reservation} {cs : List Commitment} {d : Commitment}
    (hrs : Stretch.Ascending (rs.map Reservation.stretch)) (ha : ∀ r ∈ rs, a ≤ r.start) :
    d ∈ outside a rs cs ↔
      ∃ c ∈ cs, Commitment.Remains rs { c with start := max c.start a } d := by
  induction rs generalizing a with
  | nil =>
      have hlast : ∀ c : Commitment, min c.stop lastAddress = c.stop := fun c => by
        have hle := le_lastAddress c.stop
        grind [min_address]
      simp only [outside, Commitment.mem_filterMap_clip_iff, hlast]
  | cons r rest ih =>
      obtain ⟨hr, hrest⟩ := of_ascending_cons hrs
      have har := ha r List.mem_cons_self
      have hmax : ∀ c : Commitment, max (max c.start a) r.stop = max c.start r.stop := fun c => by
        grind [max_address]
      rw [outside, List.mem_append, Commitment.mem_filterMap_clip_iff, ih hrs.tail hrest]
      constructor
      · rintro (⟨c, hc, hd⟩ | ⟨c, hc, hd⟩)
        · have hstop := hd.within.2
          refine ⟨c, hc, (Commitment.remains_cons_before hr hrest (by grind [min_address])).mpr hd⟩
        · have hstart := hd.within.1
          refine ⟨c, hc, (Commitment.remains_cons_behind hr (by grind [max_address])).mpr ?_⟩
          simp only [hmax]
          exact hd
      · rintro ⟨c, hc, hd⟩
        rcases hd.apart r List.mem_cons_self with hbefore | hbehind
        · exact .inl ⟨c, hc, (Commitment.remains_cons_before hr hrest hbefore).mp hd⟩
        · refine .inr ⟨c, hc, ?_⟩
          have hcut := (Commitment.remains_cons_behind hr hbehind).mp hd
          simp only [hmax] at hcut
          exact hcut

end Listing

namespace NestingPass

/-- The commitments that reservations already had. -/
lemma count_shownAt_filled (rs : List Reservation) (cs : List Commitment) (x : Address)
    (k : Tag × StackRef) :
    (Commitment.shownAt ((rs.map (Listing.filled cs)).flatMap (·.committed)) x).count k =
      (Commitment.shownAt (rs.flatMap (·.committed)) x).count k +
        (Commitment.shownAt
          (rs.flatMap fun r => cs.filterMap (Commitment.clip r.start r.stop)) x).count k := by
  induction rs with
  | nil => rfl
  | cons r rest ih =>
      simp only [List.map_cons, List.flatMap_cons, Commitment.shownAt_append, List.count_append, ih,
        Listing.filled]
      omega

/-- **The loop ends, and it ends with plain intersections.**  Over ascending reservations and
commitments it takes at most one turn for each commitment and two for each reservation before the
last, and comes to the listing of the single pass.  Every reservation keeps its own fields and gets
the parts of the commitments inside it, in ascending order; the orphans are, in ascending order, the
maximal parts outside every reservation; and each byte shows every tag and call site as often as it
did before. -/
theorem run_intersects (rs : List Reservation) (cs : List Commitment)
    (hrs : Stretch.Ascending (rs.map Reservation.stretch))
    (hcs : Stretch.Ascending (cs.map Commitment.stretch)) :
    ∃ l, run (cs.length + 2 * rs.length + 1) { todo := rs, pending := cs } = some l ∧
      l = Listing.nest rs cs ∧
      l.reserved = rs.map (fun r =>
        { r with committed := r.committed ++ cs.filterMap (Commitment.clip r.start r.stop) }) ∧
      Stretch.Ascending (l.orphans.map Commitment.stretch) ∧
      (∀ d, d ∈ l.orphans ↔ ∃ c ∈ cs, Commitment.Remains rs c d) ∧
      ∀ x k, (Commitment.shownAt (l.reserved.flatMap (·.committed)) x).count k +
          (Commitment.shownAt l.orphans x).count k =
        (Commitment.shownAt (rs.flatMap (·.committed)) x).count k +
          (Commitment.shownAt cs x).count k := by
  have hrun := run_nest rs [] cs [] (Nat.lt_succ_self (cs.length + 2 * rs.length))
  have hnest := Listing.nest_eq hcs hrs
  rw [hnest, List.nil_append, List.nil_append] at hrun
  refine ⟨_, hrun, hnest.symm, rfl, Listing.ascending_outside hcs hrs, ?_, ?_⟩
  · intro d
    have hzero : ∀ c : Commitment, max c.start 0 = c.start := fun c => by grind [max_address]
    have hmem : d ∈ Listing.outside 0 rs cs ↔ _ :=
      Listing.mem_outside_iff hrs fun r _ => UInt64.zero_le
    simp only [hzero] at hmem
    exact hmem
  · intro x k
    have hcount : _ + (Commitment.shownAt (Listing.outside 0 rs cs) x).count k = _ :=
      Listing.count_shownAt hrs (fun r _ => UInt64.zero_le) x k
    rw [if_pos UInt64.zero_le] at hcount
    simp only [count_shownAt_filled]
    omega

/-- Two reservations with a gap between them. -/
def gapped : List Reservation :=
  [⟨100, 200, ⟨7⟩, {}, none, []⟩, ⟨300, 400, ⟨7⟩, {}, none, []⟩]

/-- Commitments that begin before the first reservation, reach over the gap, touch and lie behind. -/
def straddling : List Commitment :=
  [⟨50, 150, ⟨8⟩, {}⟩, ⟨180, 320, ⟨9⟩, {}⟩, ⟨400, 600, ⟨8⟩, {}⟩]

/-- The loop cuts the first two commitments, one of them twice. -/
theorem straddling_intersects : Stretch.Ascending (gapped.map Reservation.stretch) ∧
    Stretch.Ascending (straddling.map Commitment.stretch) ∧
    ∃ l, run 8 { todo := gapped, pending := straddling } = some l ∧
      l.reserved.map (·.committed) =
        [[⟨100, 150, ⟨8⟩, {}⟩, ⟨180, 200, ⟨9⟩, {}⟩], [⟨300, 320, ⟨9⟩, {}⟩]] ∧
      l.orphans = [⟨50, 100, ⟨8⟩, {}⟩, ⟨200, 300, ⟨9⟩, {}⟩, ⟨400, 600, ⟨8⟩, {}⟩] := by
  have hrs : Stretch.Ascending (gapped.map Reservation.stretch) := ⟨by decide, by decide⟩
  have hcs : Stretch.Ascending (straddling.map Commitment.stretch) := ⟨by decide, by decide⟩
  obtain ⟨l, hrun, hnest, hreserved, -⟩ := run_intersects gapped straddling hrs hcs
  exact ⟨hrs, hcs, l, hrun, hreserved ▸ rfl, hnest ▸ rfl⟩

end NestingPass

end RegionLedger
