import RegionLedger.Proofs.Region.CallSites
import RegionLedger.Proofs.Region.Stretches
import RegionLedger.Proofs.Treap.FiniteMap

/-!
# What the queries of a region map list

A query for the runs of a range lists the memory in use there in its longest runs of one side,
clipped to the range; a query for all runs lists them along the whole address line, and the run around
a byte is the one of these that the byte lies in.  None of it depends on where the boundaries of the
range lie between those of the map, or on which of the two addresses is given first.

* `Bytes.Lists` — the longest runs in use among some addresses.
* `Bytes.Lists.unique` — there is only one such list.
* `Bytes.Encloses` — the longest run around a byte.
* `Bound.From`, `Bound.UpTo` — the addresses that a bound admits.
* `RegionMap.run_queries` — all queries, after every run of mutations.
-/

namespace RegionLedger

variable {μ : Type}

lemma Run.contains_iff {r : Run μ} {x : Address} :
    r.contains x = true ↔ r.start ≤ x ∧ x < r.stop := by
  simp [contains]

lemma State.ne_released_iff {s : State} : s ≠ .released ↔ s.isReserved = true := by
  cases s <;> decide

namespace Bytes

/-- The runs are those in use among the addresses in `R`: ascending ranges of one side that cover just
the addresses in use there, and of two that touch the sides differ. -/
structure Lists (f : Bytes μ) (R : Address → Prop) (runs : List (Run μ)) : Prop where
  nonempty : ∀ r ∈ runs, r.start < r.stop
  ascending : runs.Pairwise fun r r' => r.stop ≤ r'.start
  covers : ∀ x, (∃ r ∈ runs, r.contains x = true) ↔ R x ∧ (f x).state ≠ .released
  same : ∀ r ∈ runs, ∀ x, r.contains x = true → f x = r.side
  apart : ∀ r ∈ runs, ∀ r' ∈ runs, r.stop = r'.start → r.side ≠ r'.side

/-- The run contains the byte at `x`, has one side, and no longer range around the byte has one. -/
structure Encloses (f : Bytes μ) (x : Address) (r : Run μ) : Prop where
  contains : r.contains x = true
  same : ∀ y, r.contains y = true → f y = r.side
  widest : ∀ a b, a ≤ x → x ≤ b → (∀ y, a ≤ y → y ≤ b → f y = r.side) → r.start ≤ a ∧ b < r.stop

variable {f : Bytes μ} {R S : Address → Prop} {runs runs' : List (Run μ)} {a b : Address}

/-! ## Lists of runs -/

/-- More addresses, if none of them is in use. -/
lemma Lists.widen (h : f.Lists R runs) (hR : ∀ x, R x → S x)
    (hout : ∀ x, ¬ R x → (f x).state = .released) : f.Lists S runs where
  nonempty := h.nonempty
  ascending := h.ascending
  covers x := by
    rw [h.covers]
    refine and_congr_left fun hx => ⟨hR x, fun _ => ?_⟩
    by_contra hnot
    exact hx (hout x hnot)
  same := h.same
  apart := h.apart

/-- Listed runs are stretches of what is in use. -/
lemma Lists.stretches (h : f.Lists R runs) [DecidablePred R] :
    Stretches (fun x => if R x ∧ (f x).state ≠ .released then some (f x) else none)
      (runs.map (Run.stretch id)) where
  nonempty q hq := by
    obtain ⟨r, hr, rfl⟩ := List.mem_map.mp hq
    exact h.nonempty r hr
  ascending := List.pairwise_map.mpr h.ascending
  shows_iff x k := by
    constructor
    · rintro ⟨q, hq, hx, rfl⟩
      obtain ⟨r, hr, rfl⟩ := List.mem_map.mp hq
      have hin : r.contains x = true := Run.contains_iff.mpr hx
      rw [if_pos ((h.covers x).mp ⟨r, hr, hin⟩), h.same r hr x hin]
      rfl
    · intro hk
      split_ifs at hk with hx
      obtain ⟨r, hr, hin⟩ := (h.covers x).mpr hx
      refine ⟨r.stretch id, List.mem_map_of_mem hr, Run.contains_iff.mp hin, ?_⟩
      rw [← Option.some.inj hk, h.same r hr x hin]
      rfl
  apart q hq q' hq' htouch := by
    obtain ⟨r, hr, rfl⟩ := List.mem_map.mp hq
    obtain ⟨r', hr', rfl⟩ := List.mem_map.mp hq'
    exact h.apart r hr r' hr' htouch

lemma stretch_injective : Function.Injective (Run.stretch (id : Side μ → Side μ)) := by
  rintro ⟨start, stop, side⟩ ⟨start', stop', side'⟩ h
  simpa [Run.stretch] using h

/-- **There is only one list** of the runs in use among some addresses. -/
theorem Lists.unique (h : f.Lists R runs) (h' : f.Lists R runs') : runs = runs' := by
  classical
  exact List.map_injective_iff.mpr stretch_injective (h.stretches.unique h'.stretches)

/-- The longest run around a byte in use is a longest range of what is in use. -/
lemma Encloses.longest {x : Address} {r : Run μ} (hr : f.Encloses x r)
    (hx : (f x).state ≠ .released) :
    (r.stretch id).Longest
      fun x => if True ∧ (f x).state ≠ .released then some (f x) else none := by
  obtain ⟨hstart, hstop⟩ := Run.contains_iff.mp hr.contains
  have hside : f x = r.side := hr.same x hr.contains
  have hinside : ∀ y, r.start ≤ y → y < r.stop → f y = r.side := fun y hy hystop =>
    hr.same y (Run.contains_iff.mpr ⟨hy, hystop⟩)
  refine ⟨?_, ?_, ?_, ?_⟩
  · show r.start < r.stop
    grind
  · intro y hy
    have hy' : f y = r.side := hinside y hy.1 hy.2
    rw [if_pos ⟨trivial, by rwa [hy', ← hside]⟩, hy']
    rfl
  · -- with the byte before it the run would be longer
    intro hzero hsame
    have hzero : r.start ≠ 0 := hzero
    split_ifs at hsame
    have hbefore : f (r.start - 1) = r.side := Option.some.inj hsame
    have hwide := (hr.widest (r.start - 1) x (by grind) (UInt64.le_refl x) ?_).1
    · grind
    · intro y hy hyx
      by_cases hys : y = r.start - 1
      · rw [hys, hbefore]
      · exact hinside y (by grind) (by grind)
  · -- and likewise with the byte after it
    intro hsame
    split_ifs at hsame
    have hafter : f r.stop = r.side := Option.some.inj hsame
    have hwide := (hr.widest x r.stop (UInt64.le_refl x) (by grind) ?_).2
    · exact UInt64.lt_irrefl _ hwide
    · intro y hy hystop
      by_cases hys : y = r.stop
      · rw [hys, hafter]
      · exact hinside y (by grind) (by grind)

/-- It is listed among the runs of the whole line. -/
lemma Lists.mem_of_encloses (h : f.Lists (fun _ => True) runs) {x : Address} {r : Run μ}
    (hr : f.Encloses x r) (hx : (f x).state ≠ .released) : r ∈ runs :=
  (List.mem_map_of_injective stretch_injective).mp (h.stretches.mem_iff.mpr (hr.longest hx))

variable [Metadata μ]

/-- The runs in use of a tiled range. -/
lemma Tiles.lists_filter (h : f.Tiles b a runs) :
    f.Lists (fun x => a ≤ x ∧ x < b) (runs.filter Run.isTracked) where
  nonempty r hr := (h.mem (List.mem_filter.mp hr).1).1.2.1
  ascending := List.pairwise_map.mp ((h.shows_filter Run.isTracked).ascending_map id).ascending
  covers x := by
    simp only [Run.contains_iff, State.ne_released_iff]
    exact h.exists_mem_filter_iff (·.state.isReserved) x
  same r hr x hx := by
    obtain ⟨hstart, hstop⟩ := Run.contains_iff.mp hx
    exact (h.mem (List.mem_filter.mp hr).1).2.1 x hstart hstop
  apart r hr r' hr' htouch := by
    obtain ⟨⟨ha, hlt, _⟩, hsame, _⟩ := h.mem (List.mem_filter.mp hr).1
    obtain ⟨⟨_, hlt', _⟩, hsame', hstart', _⟩ := h.mem (List.mem_filter.mp hr').1
    have hjump : f.Jumps r'.start := hstart'.resolve_left (by grind)
    rw [Jumps, before_of_ne f (by grind), hsame (r'.start - 1) (by grind) (by grind),
      hsame' r'.start (UInt64.le_refl _) hlt'] at hjump
    exact hjump

end Bytes

/-! ## Bounds -/

/-- The addresses from a bound on. -/
def Bound.From : Bound Address → Address → Prop
  | unbounded, _ => True
  | included k, x => k ≤ x
  | excluded k, x => k < x

/-- The addresses up to a bound. -/
def Bound.UpTo : Bound Address → Address → Prop
  | unbounded, _ => True
  | included k, x => x ≤ k
  | excluded k, x => x < k

lemma Bound.startsBy_iff (b : Bound Address) (x : Address) : b.startsBy x = true ↔ b.From x := by
  cases b <;> simp [startsBy, From]

lemma Bound.endsAfter_iff (b : Bound Address) (x : Address) : b.endsAfter x = true ↔ b.UpTo x := by
  cases b <;> simp [endsAfter, UpTo]

instance (b : Bound Address) : DecidablePred b.From := fun x => decidable_of_iff _ (b.startsBy_iff x)

instance (b : Bound Address) : DecidablePred b.UpTo := fun x => decidable_of_iff _ (b.endsAfter_iff x)

namespace RegionMap

variable [Metadata μ] {m : RegionMap μ} {f : Bytes μ} {x : Address}

namespace Represents

/-! ## Runs of a range -/

/-- **The runs of a range**, wherever its two ends lie. -/
theorem lists_runsIn (h : m.Represents f) (first last : Address) :
    f.Lists (fun x => first ≤ x ∧ x < last) (m.runsIn first last) := by
  rw [runsIn]
  by_cases hlt : first < last
  · exact (h.tiles_segments hlt).lists_filter
  · rw [segments, if_neg hlt]
    refine ⟨by simp, by simp, ?_, by simp, by simp⟩
    intro x
    simp only [List.filter_nil, List.not_mem_nil, false_and, exists_false, false_iff]
    grind

/-- **All runs of a map.** -/
theorem lists_runs (h : m.Represents f) : f.Lists (fun _ => True) m.runs := by
  obtain ⟨first, last, hruns, hout⟩ := h.exists_runs_eq
  rw [hruns]
  refine (h.lists_runsIn first last).widen (fun _ _ => trivial) ?_
  intro x hx
  rw [hout x hx]
  rfl

/-! ## The run around a byte -/

/-- What comes next is a jump, up to which the side stays. -/
lemma higher?_eq_some (h : m.Represents f) {q : Address × Boundary μ}
    (hq : m.boundaries.higher? x = some q) :
    x < q.1 ∧ f.Jumps q.1 ∧ ∀ z, x < z → z < q.1 → ¬ f.Jumps z := by
  rw [h.wellFormed.higher?_eq,
    head?_eq_some_iff (h.wellFormed.pairwise_toList.filter _)] at hq
  obtain ⟨hmem, hleast⟩ := hq
  obtain ⟨hmem, hlt⟩ := List.mem_filter.mp hmem
  refine ⟨of_decide_eq_true hlt, ((h.mem_points_iff q).mp hmem).1, ?_⟩
  intro z hz hzq hjump
  have hle := hleast _ (List.mem_filter.mpr ⟨h.mem_points_of_jumps hjump, decide_eq_true hz⟩)
  grind

/-- **The run around a byte** is the longest. -/
theorem encloses_of_enclosing? (h : m.Represents f) {r : Run μ} (hr : m.enclosing? x = some r) :
    f.Encloses x r := by
  have hside := h.side_of_enclosing? hr
  rw [enclosing?] at hr
  split at hr
  · next start c stop _ hfloor hhigher =>
      split_ifs at hr
      obtain rfl := Option.some.inj hr
      obtain ⟨hle, _, hbefore⟩ := h.floor?_eq_some hfloor
      obtain ⟨hlt, hstop, hafter⟩ := h.higher?_eq_some hhigher
      have hstart : f.Jumps start :=
        ((h.mem_points_iff _).mp (h.wellFormed.floor?_eq_some hfloor).1).1
      have hsame : ∀ y, start ≤ y → y < stop → f y = c.outgoing := by
        have hstay : ∀ y, start ≤ y → y < stop → f y = f start := by
          intro y hy hystop
          refine Bytes.eq_of_forall_not_jumps hy ?_
          intro z hz hzy
          by_cases hzx : z ≤ x
          · exact hbefore z hz hzx
          · exact hafter z (by grind) (by grind)
        intro y hy hystop
        rw [hstay y hy hystop, ← hstay x hle hlt, ← hside]
      refine ⟨Run.contains_iff.mpr ⟨hle, hlt⟩, ?_, ?_⟩
      · intro y hy
        obtain ⟨hy, hystop⟩ := Run.contains_iff.mp hy
        exact hsame y hy hystop
      · -- a longer range would hold one of the two jumps with the byte before it
        intro a b ha hb hone
        constructor
        · by_contra hlonger
          rw [Bytes.Jumps, Bytes.before_of_ne f (by grind), hone _ (by grind) (by grind),
            hone _ (by grind) (by grind)] at hstart
          exact hstart rfl
        · by_contra hlonger
          rw [Bytes.Jumps, Bytes.before_of_ne f (by grind), hsame _ (by grind) (by grind),
            hone _ (by grind) (by grind)] at hstop
          exact hstop rfl
  · cases hr

/-! ## Boundaries between two bounds -/

/-- **The boundaries between two bounds** are those at the addresses that both admit, in order. -/
theorem pointsIn_eq (h : m.Represents f) (first last : Bound Address) :
    m.pointsIn first last =
      m.points.filter fun p => decide (first.From p.1) && decide (last.UpTo p.1) := by
  rw [pointsIn, h.wellFormed.range_eq]
  refine List.filter_congr fun p _ => ?_
  rw [Bool.and_comm]
  simp only [← Bound.startsBy_iff, ← Bound.endsAfter_iff, Bool.decide_eq_true]

end Represents

/-! ## After every run -/

variable [DecidableEq μ]

/-- **The queries of a region map list the longest runs.**  Take any run of mutations of an empty map.
For any two addresses, in either order and whether or not there are boundaries at them, the runs from
the one to the other are the longest runs of memory in use between them, clipped to the range; all
runs are those of the whole address line.  There is a run around a byte exactly if the byte is not
released; then it is listed among all runs, and it is the longest range around the byte that has one
side.  The boundaries between two bounds of any kind are those at the addresses that the bounds admit,
in ascending order. -/
theorem run_queries (draws : Draws) (cs : List (Mutation μ)) :
    (∀ first last, Bytes.Lists ((empty draws).run cs).sideAt (fun x => first ≤ x ∧ x < last)
      (((empty draws).run cs).runsIn first last)) ∧
    Bytes.Lists ((empty draws).run cs).sideAt (fun _ => True) ((empty draws).run cs).runs ∧
    (∀ x, ((((empty draws).run cs).enclosing? x).isSome = true ↔
        (((empty draws).run cs).sideAt x).state ≠ .released) ∧
      ∀ r, ((empty draws).run cs).enclosing? x = some r →
        Bytes.Encloses ((empty draws).run cs).sideAt x r ∧ r ∈ ((empty draws).run cs).runs) ∧
    (((empty draws).run cs).points.Pairwise fun p q => p.1 < q.1) ∧
    ∀ first last, ((empty draws).run cs).pointsIn first last =
      ((empty draws).run cs).points.filter fun p =>
        decide (first.From p.1) && decide (last.UpTo p.1) := by
  have h := ((represents_empty draws).run cs).sideAt
  refine ⟨h.lists_runsIn, h.lists_runs, ?_, h.pairwise_points, h.pointsIn_eq⟩
  intro x
  have hused : (((empty draws).run cs).enclosing? x).isSome = true ↔
      (((empty draws).run cs).sideAt x).state ≠ .released := by
    rw [Option.isSome_iff_ne_none, ne_eq, ne_eq, h.enclosing?_eq_none_iff]
  refine ⟨hused, ?_⟩
  intro r hr
  have hencloses := h.encloses_of_enclosing? hr
  exact ⟨hencloses, h.lists_runs.mem_of_encloses hencloses (hused.mp (by rw [hr]; rfl))⟩

/-- The ends of a range may lie inside of runs, which are clipped, and the run around a byte is not. -/
example :
    let m : RegionMap Attribution := (empty (Draws.ofSeed 1)).run
      [.reserve 0x1000 0x3000 {}, .commit 0x2000 0x1000 {} .replace]
    (m.runsIn 0x1800 0x2800).map (fun r => (r.start, r.stop, r.side.state)) =
        [(0x1800, 0x2000, .reserved), (0x2000, 0x2800, .committed)] ∧
      m.runsIn 0x2800 0x1800 = [] ∧
      (m.enclosing? 0x2800).map (fun r => (r.start, r.stop)) = some (0x2000, 0x3000) := by
  decide +kernel

end RegionMap

end RegionLedger
