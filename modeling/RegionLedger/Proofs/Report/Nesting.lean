import RegionLedger.Proofs.Report.Gathering

/-!
# Nesting is intersection

One pass over ascending reservations cuts ascending commitments at their ends.  It comes to plain
intersection: a reservation gets the parts of the commitments inside it, the orphans are the parts
in the gaps between reservations.  A byte lies in exactly one reservation or gap, so no byte of a
commitment is lost and none is there twice.

* `Commitment.clip` — the part of a commitment in a range.
* `Reservation.carve_eq`, `Listing.nest_eq` — one step, and the whole pass, as intersections.
* `Listing.count_shownAt` — a byte has the tag and the call site that it had before.
-/

namespace RegionLedger

lemma max_address (a b : Address) : max a b = if a ≤ b then b else a := rfl

lemma min_address (a b : Address) : min a b = if a ≤ b then a else b := rfl

namespace Commitment

/-- The part of a commitment in the range from `a` to `b`, if there is one. -/
def clip (a b : Address) (c : Commitment) : Option Commitment :=
  if max c.start a < min c.stop b then
    some { c with start := max c.start a, stop := min c.stop b }
  else none

variable {a b a' b' x : Address} {c d : Commitment} {cs : List Commitment}

lemma clip_eq_some_iff : c.clip a b = some d ↔
    max c.start a < min c.stop b ∧
      d = { c with start := max c.start a, stop := min c.stop b } := by
  rw [clip]
  split_ifs with h <;> simp [h, eq_comm]

/-- A commitment that lies in the range stays as it is. -/
lemma clip_eq_self (ha : a ≤ c.start) (hb : c.stop ≤ b) (hc : c.start < c.stop) :
    c.clip a b = some c := by
  have hmax : max c.start a = c.start := by grind [max_address]
  have hmin : min c.stop b = c.stop := by grind [min_address]
  rw [clip, hmax, hmin, if_pos hc]

/-- Nothing of a commitment lies in front of its first byte or behind its last one. -/
lemma clip_eq_none (h : c.stop ≤ a ∨ b ≤ c.start) : c.clip a b = none := by
  rw [clip, if_neg]
  grind [max_address, min_address]

lemma filterMap_clip_cons (a b : Address) (c : Commitment) (cs : List Commitment) :
    (c :: cs).filterMap (clip a b) = (c.clip a b).toList ++ cs.filterMap (clip a b) := by
  rw [List.filterMap_cons]
  cases c.clip a b <;> rfl

/-- The part of a part. -/
lemma filterMap_clip_clip {a₁ b₁ : Address} (ha : max a a' = a₁) (hb : min b b' = b₁)
    (cs : List Commitment) :
    (cs.filterMap (clip a b)).filterMap (clip a' b') = cs.filterMap (clip a₁ b₁) := by
  rw [List.filterMap_filterMap]
  refine List.filterMap_congr ?_
  intro c _
  have hmax : max (max c.start a) a' = max c.start a₁ := by grind [max_address]
  have hmin : min (min c.stop b) b' = min c.stop b₁ := by grind [min_address]
  by_cases h : max c.start a < min c.stop b
  · rw [clip, if_pos h, Option.bind_some, clip, clip]
    simp only [hmax, hmin]
  · rw [clip, if_neg h, Option.bind_none, clip, if_neg]
    grind [max_address, min_address]

/-- Nothing of ascending commitments lies in a range that ends before the first of them. -/
lemma filterMap_clip_eq_nil (h : ∀ c ∈ cs, c.stop ≤ a ∨ b ≤ c.start) :
    cs.filterMap (clip a b) = [] :=
  List.filterMap_eq_nil_iff.mpr fun c hc => clip_eq_none (h c hc)

lemma filterMap_clip_eq_self (hcs : Stretch.Ascending (cs.map stretch))
    (h : ∀ c ∈ cs, a ≤ c.start ∧ c.stop ≤ b) : cs.filterMap (clip a b) = cs := by
  refine (List.filterMap_congr ?_).trans List.filterMap_some
  intro c hc
  exact clip_eq_self (h c hc).1 (h c hc).2 (hcs.nonempty _ (List.mem_map_of_mem hc))

lemma mem_filterMap_clip (hd : d ∈ cs.filterMap (clip a b)) :
    ∃ c ∈ cs, max c.start a < min c.stop b ∧
      d = { c with start := max c.start a, stop := min c.stop b } := by
  obtain ⟨c, hc, hclip⟩ := List.mem_filterMap.mp hd
  exact ⟨c, hc, clip_eq_some_iff.mp hclip⟩

/-- Parts of ascending commitments are ascending. -/
lemma ascending_filterMap_clip (hcs : Stretch.Ascending (cs.map stretch)) (a b : Address) :
    Stretch.Ascending ((cs.filterMap (clip a b)).map stretch) := by
  constructor
  · intro r hr
    obtain ⟨d, hd, rfl⟩ := List.mem_map.mp hr
    obtain ⟨c, _, hlt, rfl⟩ := mem_filterMap_clip hd
    exact hlt
  · rw [List.pairwise_map]
    refine (List.pairwise_map.mp hcs.ascending).filterMap _ ?_
    intro c c' hle d hd d' hd'
    obtain ⟨_, rfl⟩ := clip_eq_some_iff.mp hd
    obtain ⟨_, rfl⟩ := clip_eq_some_iff.mp hd'
    simp only [stretch] at hle ⊢
    grind [max_address, min_address]

/-! ## What the commitments show at a byte -/

/-- The tags and the call sites of the commitments that hold the byte at `x`. -/
def shownAt (cs : List Commitment) (x : Address) : List (Tag × StackRef) :=
  (Stretch.holding (cs.map stretch) x).map Stretch.shown

lemma shownAt_cons (c : Commitment) (cs : List Commitment) (x : Address) :
    shownAt (c :: cs) x =
      if c.start ≤ x ∧ x < c.stop then (c.tag, c.stack) :: shownAt cs x else shownAt cs x := by
  rw [shownAt, List.map_cons, Stretch.holding_cons, apply_ite (List.map Stretch.shown)]
  rfl

lemma shownAt_append (cs ds : List Commitment) (x : Address) :
    shownAt (cs ++ ds) x = shownAt cs x ++ shownAt ds x := by
  simp only [shownAt, Stretch.holding, List.map_append, List.filter_append]

/-- No range holds the last byte. -/
lemma shownAt_lastAddress (cs : List Commitment) : shownAt cs lastAddress = [] := by
  induction cs with
  | nil => rfl
  | cons c cs ih =>
      have hle := le_lastAddress c.stop
      rw [shownAt_cons, if_neg, ih]
      grind

/-- **What the parts show**: what was shown before, at the bytes of the range. -/
lemma shownAt_filterMap_clip (cs : List Commitment) (a b x : Address) :
    shownAt (cs.filterMap (clip a b)) x = if a ≤ x ∧ x < b then shownAt cs x else [] := by
  induction cs with
  | nil => split_ifs <;> rfl
  | cons c cs ih =>
      rw [List.filterMap_cons, shownAt_cons, clip]
      split
      · next hnone =>
          rw [ih]
          split_ifs at hnone ⊢
          all_goals first | rfl | grind [max_address, min_address]
      · next d hsome =>
          obtain ⟨hlt, rfl⟩ := clip_eq_some_iff.mp hsome
          rw [shownAt_cons, ih]
          split_ifs
          all_goals first | rfl | grind [max_address, min_address]

end Commitment

namespace Reservation

variable {r : Reservation} {cs : List Commitment}

/-- What an overlapping commitment leaves in front of a reservation. -/
lemma clip_before {c : Commitment} (hover : r.start < c.stop) :
    (if c.start < r.start then [{ c with stop := r.start }] else []) =
      (c.clip 0 r.start).toList := by
  have hmax : max c.start 0 = c.start := by grind [max_address]
  have hmin : min c.stop r.start = r.start := by grind [min_address]
  rw [Commitment.clip, hmax, hmin]
  split_ifs <;> rfl

/-- What an overlapping commitment has inside a reservation. -/
lemma clip_inside {c : Commitment} (hr : r.start < r.stop) (hc : c.start < c.stop)
    (hover : r.start < c.stop) (hstart : c.start < r.stop) :
    c.clip r.start r.stop =
      some { c with start := max c.start r.start, stop := min c.stop r.stop } :=
  if_pos (by grind [max_address, min_address])

/-- What a commitment leaves behind a reservation that it reaches beyond. -/
lemma clip_behind {c : Commitment} (hstart : c.start < r.stop) (hbeyond : r.stop < c.stop) :
    c.clip r.stop lastAddress = some { c with start := r.stop } := by
  have hlast := le_lastAddress c.stop
  have hmax : max c.start r.stop = r.stop := by grind [max_address]
  have hmin : min c.stop lastAddress = c.stop := by grind [min_address]
  rw [Commitment.clip, hmax, hmin, if_pos hbeyond]

/-- **One reservation** takes the parts inside it and leaves those behind it. -/
theorem carve_eq (hr : r.start < r.stop) (hcs : Stretch.Ascending (cs.map Commitment.stretch)) :
    r.carve cs =
      { inside := cs.filterMap (Commitment.clip r.start r.stop)
        before := cs.filterMap (Commitment.clip 0 r.start)
        left := cs.filterMap (Commitment.clip r.stop lastAddress) } := by
  induction cs with
  | nil => rfl
  | cons c rest ih =>
      have hc : c.start < c.stop := hcs.nonempty c.stretch List.mem_cons_self
      have hlast := le_lastAddress c.stop
      have hrest : ∀ c' ∈ rest, c.stop ≤ c'.start := fun c' hc' =>
        (List.pairwise_cons.mp hcs.ascending).1 _ (List.mem_map_of_mem hc')
      -- what follows a commitment that reaches the end of the reservation lies behind it
      have hleft : r.stop ≤ c.stop → rest.filterMap (Commitment.clip r.start r.stop) = [] ∧
          rest.filterMap (Commitment.clip 0 r.start) = [] ∧
          rest.filterMap (Commitment.clip r.stop lastAddress) = rest := by
        intro hstop
        have hbehind : ∀ c' ∈ rest, r.stop ≤ c'.start := fun c' hc' =>
          UInt64.le_trans hstop (hrest c' hc')
        exact ⟨Commitment.filterMap_clip_eq_nil fun c' hc' => .inr (hbehind c' hc'),
          Commitment.filterMap_clip_eq_nil fun c' hc' =>
            .inr (UInt64.le_trans (UInt64.le_of_lt hr) (hbehind c' hc')),
          Commitment.filterMap_clip_eq_self hcs.tail fun c' hc' =>
            ⟨hbehind c' hc', le_lastAddress _⟩⟩
      rw [carve, Commitment.filterMap_clip_cons, Commitment.filterMap_clip_cons,
        Commitment.filterMap_clip_cons]
      by_cases hbefore : c.stop ≤ r.start
      · have hstop : c.stop ≤ r.stop := UInt64.le_trans hbefore (UInt64.le_of_lt hr)
        rw [if_pos hbefore, ih hcs.tail, Commitment.clip_eq_none (.inl hbefore),
          Commitment.clip_eq_self UInt64.zero_le hbefore hc, Commitment.clip_eq_none (.inl hstop)]
        rfl
      · rw [if_neg hbefore]
        by_cases hbehind : r.stop ≤ c.start
        · have hstart : r.start ≤ c.start := UInt64.le_trans (UInt64.le_of_lt hr) hbehind
          obtain ⟨hinside, hhead, hall⟩ := hleft (UInt64.le_trans hbehind (UInt64.le_of_lt hc))
          rw [if_pos hbehind, hinside, hhead, hall, Commitment.clip_eq_none (.inr hbehind),
            Commitment.clip_eq_none (.inr hstart), Commitment.clip_eq_self hbehind hlast hc]
          rfl
        · have hover : r.start < c.stop := UInt64.not_le.mp hbefore
          have hpiece := clip_inside hr hc hover (UInt64.not_le.mp hbehind)
          rw [if_neg hbehind, clip_before hover, hpiece]
          by_cases hbeyond : r.stop < c.stop
          · obtain ⟨hinside, hhead, hall⟩ := hleft (UInt64.le_of_lt hbeyond)
            rw [if_pos hbeyond, hinside, hhead, hall, clip_behind (UInt64.not_le.mp hbehind) hbeyond]
            simp only [Option.toList_some, List.append_nil, List.singleton_append]
          · rw [if_neg hbeyond, ih hcs.tail,
              Commitment.clip_eq_none (.inl (UInt64.not_lt.mp hbeyond))]
            rfl

end Reservation

namespace Listing

variable {a : Address} {rs : List Reservation} {cs : List Commitment}

/-- The parts of the commitments from `a` on that lie in none of the reservations. -/
def outside (a : Address) : List Reservation → List Commitment → List Commitment
  | [], cs => cs.filterMap (Commitment.clip a lastAddress)
  | r :: rest, cs => cs.filterMap (Commitment.clip a r.start) ++ outside r.stop rest cs

/-- The reservation with the parts of the commitments inside it. -/
def filled (cs : List Commitment) (r : Reservation) : Reservation :=
  { r with committed := r.committed ++ cs.filterMap (Commitment.clip r.start r.stop) }

/-- The first of ascending reservations has bytes, and the others lie behind it. -/
lemma of_ascending_cons {r : Reservation} {rest : List Reservation}
    (h : Stretch.Ascending ((r :: rest).map Reservation.stretch)) :
    r.start < r.stop ∧ ∀ r' ∈ rest, r.stop ≤ r'.start := by
  refine ⟨h.nonempty r.stretch List.mem_cons_self, ?_⟩
  intro r' hr'
  exact (List.pairwise_cons.mp h.ascending).1 _ (List.mem_map_of_mem hr')

/-- The pass over the reservations from `a` on, with what was left of the commitments. -/
lemma nest_filterMap_clip (hcs : Stretch.Ascending (cs.map Commitment.stretch))
    (hrs : Stretch.Ascending (rs.map Reservation.stretch)) (ha : ∀ r ∈ rs, a ≤ r.start) :
    nest rs (cs.filterMap (Commitment.clip a lastAddress)) =
      { reserved := rs.map (filled cs), orphans := outside a rs cs } := by
  induction rs generalizing a with
  | nil => rfl
  | cons r rest ih =>
      obtain ⟨hr, hrest⟩ := of_ascending_cons hrs
      have har := ha r List.mem_cons_self
      have hstart := le_lastAddress r.start
      have hstop := le_lastAddress r.stop
      have hclip := Commitment.ascending_filterMap_clip hcs a lastAddress
      have hinside : (cs.filterMap (Commitment.clip a lastAddress)).filterMap
          (Commitment.clip r.start r.stop) = cs.filterMap (Commitment.clip r.start r.stop) :=
        Commitment.filterMap_clip_clip (by grind [max_address]) (by grind [min_address]) cs
      have hbefore : (cs.filterMap (Commitment.clip a lastAddress)).filterMap
          (Commitment.clip 0 r.start) = cs.filterMap (Commitment.clip a r.start) :=
        Commitment.filterMap_clip_clip (by grind [max_address]) (by grind [min_address]) cs
      have hleft : (cs.filterMap (Commitment.clip a lastAddress)).filterMap
          (Commitment.clip r.stop lastAddress) = cs.filterMap (Commitment.clip r.stop lastAddress) :=
        Commitment.filterMap_clip_clip (by grind [max_address]) (by grind [min_address]) cs
      rw [nest, Reservation.carve_eq hr hclip, hinside, hbefore, hleft, ih hrs.tail hrest]
      rfl

/-- **Nesting is intersection**: every reservation gets the parts of the commitments inside it, and
the orphans are the parts in the gaps. -/
theorem nest_eq (hcs : Stretch.Ascending (cs.map Commitment.stretch))
    (hrs : Stretch.Ascending (rs.map Reservation.stretch)) :
    nest rs cs = { reserved := rs.map (filled cs), orphans := outside 0 rs cs } := by
  have hall : cs.filterMap (Commitment.clip 0 lastAddress) = cs :=
    Commitment.filterMap_clip_eq_self hcs fun c _ => ⟨UInt64.zero_le, le_lastAddress _⟩
  have hnest := nest_filterMap_clip (a := 0) hcs hrs fun r _ => UInt64.zero_le
  rwa [hall] at hnest

/-! ## What is nested and what is left over -/

/-- What a byte shows in a part, as often as it showed it before. -/
lemma count_shownAt_clip (cs : List Commitment) (a b x : Address) (k : Tag × StackRef) :
    (Commitment.shownAt (cs.filterMap (Commitment.clip a b)) x).count k =
      if a ≤ x ∧ x < b then (Commitment.shownAt cs x).count k else 0 := by
  rw [Commitment.shownAt_filterMap_clip]
  split_ifs <;> rfl

/-- An orphan lies in a gap. -/
lemma mem_outside {c : Commitment} (hrs : Stretch.Ascending (rs.map Reservation.stretch))
    (ha : ∀ r ∈ rs, a ≤ r.start) (hc : c ∈ outside a rs cs) :
    a ≤ c.start ∧ ∀ r ∈ rs, c.stop ≤ r.start ∨ r.stop ≤ c.start := by
  induction rs generalizing a with
  | nil =>
      obtain ⟨d, _, _, rfl⟩ := Commitment.mem_filterMap_clip hc
      refine ⟨?_, fun r hr => absurd hr List.not_mem_nil⟩
      show a ≤ max d.start a
      grind [max_address]
  | cons r rest ih =>
      obtain ⟨hr, hrest⟩ := of_ascending_cons hrs
      have har := ha r List.mem_cons_self
      rcases List.mem_append.mp hc with hc | hc
      · obtain ⟨d, _, _, rfl⟩ := Commitment.mem_filterMap_clip hc
        have hstart : a ≤ max d.start a := by grind [max_address]
        have hstop : min d.stop r.start ≤ r.start := by grind [min_address]
        refine ⟨hstart, ?_⟩
        intro r' hr'
        rcases List.mem_cons.mp hr' with rfl | hr'
        · exact .inl hstop
        · exact .inl (UInt64.le_trans hstop (UInt64.le_trans (UInt64.le_of_lt hr) (hrest r' hr')))
      · obtain ⟨hle, hgaps⟩ := ih hrs.tail hrest hc
        refine ⟨UInt64.le_trans har (UInt64.le_trans (UInt64.le_of_lt hr) hle), ?_⟩
        intro r' hr'
        rcases List.mem_cons.mp hr' with rfl | hr'
        · exact .inr hle
        · exact hgaps r' hr'

/-- The orphans are ascending. -/
lemma ascending_outside (hcs : Stretch.Ascending (cs.map Commitment.stretch))
    (hrs : Stretch.Ascending (rs.map Reservation.stretch)) :
    Stretch.Ascending ((outside a rs cs).map Commitment.stretch) := by
  induction rs generalizing a with
  | nil => exact Commitment.ascending_filterMap_clip hcs a lastAddress
  | cons r rest ih =>
      obtain ⟨hr, hrest⟩ := of_ascending_cons hrs
      rw [outside, List.map_append]
      refine (Commitment.ascending_filterMap_clip hcs a r.start).append (ih hrs.tail) ?_
      intro p hp q hq
      obtain ⟨c, hc, rfl⟩ := List.mem_map.mp hp
      obtain ⟨d, hd, rfl⟩ := List.mem_map.mp hq
      obtain ⟨c', _, _, rfl⟩ := Commitment.mem_filterMap_clip hc
      have hle : r.stop ≤ d.start := (mem_outside hrs.tail hrest hd).1
      show min c'.stop r.start ≤ d.start
      grind [min_address]

/-- **No byte is lost or doubled**: reservations and gaps from `a` on hold every byte once. -/
lemma count_shownAt (hrs : Stretch.Ascending (rs.map Reservation.stretch))
    (ha : ∀ r ∈ rs, a ≤ r.start) (x : Address) (k : Tag × StackRef) :
    (Commitment.shownAt
        (rs.flatMap fun r => cs.filterMap (Commitment.clip r.start r.stop)) x).count k +
      (Commitment.shownAt (outside a rs cs) x).count k =
        if a ≤ x then (Commitment.shownAt cs x).count k else 0 := by
  induction rs generalizing a with
  | nil =>
      rw [outside, count_shownAt_clip]
      by_cases hx : x = lastAddress
      · simp [hx, Commitment.shownAt_lastAddress]
      · have hlt : x < lastAddress := by
          have hle := le_lastAddress x
          grind
        simp only [hlt, and_true]
        exact Nat.zero_add _
  | cons r rest ih =>
      obtain ⟨hr, hrest⟩ := of_ascending_cons hrs
      have har := ha r List.mem_cons_self
      have hnext := ih hrs.tail hrest
      rw [outside, List.flatMap_cons, Commitment.shownAt_append, Commitment.shownAt_append,
        List.count_append, List.count_append, count_shownAt_clip, count_shownAt_clip]
      generalize (Commitment.shownAt cs x).count k = n at hnext ⊢
      split_ifs at hnext ⊢ <;> grind

end Listing

end RegionLedger
