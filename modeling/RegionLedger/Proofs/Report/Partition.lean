import RegionLedger.Proofs.Report.Nesting
import RegionLedger.Proofs.Space.Writes

/-!
# Listings partition memory

The listing of a space shows every byte that is in use, and shows it once.  Its reservations are the
stretches of memory under one tag and one mapping; the commitments, nested or not, hold every
committed byte once with its own tag and call site.  So the sizes that it shows add up to the bytes
that the maps hold.

* `Listing.Divides` — what a listing says of its space.
* `Space.Maps.divides` — the listing of a space with sound maps.
* `Ledger.listing_divides` — the listing of every space, after every run.
-/

namespace RegionLedger

namespace Listing

/-- All commitments: the nested ones and the orphans. -/
def pieces (l : Listing) : List Commitment := l.reserved.flatMap (·.committed) ++ l.orphans

/-- The listing divides the memory of the space. -/
structure Divides (l : Listing) (s : Space) : Prop where
  /-- The reservations are non-empty, ascending and disjoint, they hold the bytes that are not
  released, with their tag and their mapping, and two that touch differ in one of these. -/
  reserved : Stretches s.bookingAt (l.reserved.map Reservation.stretch)
  /-- The call site of a reservation is that of its first byte that is reserved and not committed,
  or of its first byte if there is none. -/
  signed : ∀ r ∈ l.reserved, r.Signed s.reserved.sideAt
  /-- The commitments in a reservation are non-empty, ascending and disjoint. -/
  nested : ∀ r ∈ l.reserved, Stretch.Ascending (r.committed.map Commitment.stretch)
  /-- They lie inside it. -/
  inside : ∀ r ∈ l.reserved, ∀ c ∈ r.committed, r.start ≤ c.start ∧ c.stop ≤ r.stop
  /-- The orphans are non-empty, ascending and disjoint. -/
  orphaned : Stretch.Ascending (l.orphans.map Commitment.stretch)
  /-- Where an orphan lies nothing is reserved. -/
  free : ∀ c ∈ l.orphans, ∀ x, c.stretch.Holds x → (s.reserved.sideAt x).state = .released
  /-- A committed byte lies in one commitment, which has its tag and its call site; no other byte
  lies in any. -/
  once : ∀ x, Commitment.shownAt l.pieces x = (s.commitAt x).toList
  /-- The sizes of the reservations of a tag add up to its reserved bytes. -/
  reserved_bytes : ∀ t, ((l.reserved.filter (·.tag = t)).map (·.size.toNat)).sum =
    s.bytes .reserved t
  /-- The sizes of the commitments of a tag add up to its committed bytes. -/
  committed_bytes : ∀ t, ((l.pieces.filter (·.tag = t)).map (·.size.toNat)).sum =
    s.bytes .committed t
  /-- The committed size of a reservation is the sum of what is nested in it. -/
  committed_size : ∀ r ∈ l.reserved, r.committedSize.toNat = (r.committed.map (·.size.toNat)).sum

end Listing

/-! ## Sizes -/

lemma Commitment.toNat_size {c : Commitment} (hc : c.start < c.stop) :
    c.size.toNat = c.stretch.length :=
  UInt64.toNat_sub_of_le _ _ (UInt64.le_of_lt hc)

lemma Reservation.toNat_size {r : Reservation} (hr : r.start < r.stop) :
    r.size.toNat = r.stretch.length :=
  UInt64.toNat_sub_of_le _ _ (UInt64.le_of_lt hr)

/-- Words add up without a carry if their sum is a word. -/
lemma toNat_foldl_add (cs : List Commitment) (sum : UInt64)
    (h : sum.toNat + (cs.map (·.size.toNat)).sum < 2 ^ 64) :
    (cs.foldl (fun sum c => sum + c.size) sum).toNat =
      sum.toNat + (cs.map (·.size.toNat)).sum := by
  induction cs generalizing sum with
  | nil => rfl
  | cons c cs ih =>
      rw [List.map_cons, List.sum_cons] at h ⊢
      have hsum : (sum + c.size).toNat = sum.toNat + c.size.toNat := by
        rw [UInt64.toNat_add]
        exact Nat.mod_eq_of_lt (by omega)
      rw [List.foldl_cons, ih _ (by rw [hsum]; omega), hsum]
      omega

/-- The committed size of a reservation, if the commitments in it are ascending. -/
lemma Reservation.toNat_committedSize {r : Reservation}
    (hcs : Stretch.Ascending (r.committed.map Commitment.stretch)) :
    r.committedSize.toNat = (r.committed.map (·.size.toNat)).sum := by
  have hsizes : r.committed.map (·.size.toNat) =
      (r.committed.map Commitment.stretch).map Stretch.length := by
    rw [List.map_map]
    exact List.map_congr_left fun c hc =>
      Commitment.toNat_size (hcs.nonempty _ (List.mem_map_of_mem hc))
  have hlt : (r.committed.map (·.size.toNat)).sum < 2 ^ 64 := by
    rw [hsizes, Stretch.sum_length hcs.length_holding_le]
    have hsub : {x | ∃ q ∈ r.committed.map Commitment.stretch, q.Holds x} ⊆
        {x : Address | 0 ≤ x ∧ x < lastAddress} := by
      rintro x ⟨q, _, _, hx⟩
      have hle := le_lastAddress q.stop
      exact ⟨UInt64.zero_le, by grind⟩
    have hle := Set.ncard_le_ncard hsub
    rw [ncard_range] at hle
    exact Nat.lt_of_le_of_lt hle (by decide)
  have hfold := toNat_foldl_add r.committed 0 (by simpa using hlt)
  rw [committedSize, hfold]
  exact Nat.zero_add _

/-- The sizes of the reservations of a tag. -/
lemma Reservation.sum_size {rs : List Reservation}
    (hrs : ∀ r ∈ rs, r.start < r.stop) (t : Tag) :
    ((rs.filter (·.tag = t)).map (·.size.toNat)).sum =
      (((rs.map stretch).filter fun q => decide (q.shown.1 = t)).map Stretch.length).sum := by
  rw [List.filter_map, List.map_map]
  refine congrArg List.sum (List.map_congr_left ?_)
  intro r hr
  exact toNat_size (hrs r (List.mem_filter.mp hr).1)

/-- The sizes of the commitments of a tag. -/
lemma Commitment.sum_size {cs : List Commitment} (hcs : ∀ c ∈ cs, c.start < c.stop) (t : Tag) :
    ((cs.filter (·.tag = t)).map (·.size.toNat)).sum =
      (((cs.map stretch).filter fun q => decide (q.shown.1 = t)).map Stretch.length).sum := by
  rw [List.filter_map, List.map_map]
  refine congrArg List.sum (List.map_congr_left ?_)
  intro c hc
  exact toNat_size (hcs c (List.mem_filter.mp hc).1)

namespace Space

variable {s : Space}

/-- The bytes that show a tag are those that count for it. -/
lemma exists_mem_shows_iff {μ κ : Type} [Metadata μ] (c : Column) (g : Side μ → κ) (side : Side μ)
    (t : Tag) :
    (∃ k ∈ side.shows (fun s => c.counts s.state) (fun s => (s.tag, g s)),
      decide (k.1 = t) = true) ↔ side.CountsIn c t := by
  simp only [Option.mem_def, Side.shows_eq_some_iff, decide_eq_true_eq]
  constructor
  · rintro ⟨_, ⟨hstate, rfl⟩, rfl⟩
    exact ⟨rfl, hstate⟩
  · rintro ⟨rfl, hstate⟩
    exact ⟨_, ⟨hstate, rfl⟩, rfl⟩

/-- The bytes that show a tag among the reservations. -/
lemma ncard_bookingAt (s : Space) (t : Tag) :
    {x | ∃ k ∈ s.bookingAt x, decide (k.1 = t) = true}.ncard = s.bytes .reserved t :=
  congrArg Set.ncard (Set.ext fun x =>
    exists_mem_shows_iff .reserved (fun side : Side Placement => side.data.mapping) (s.reserved.sideAt x) t)

/-- The bytes that show a tag among the commits. -/
lemma ncard_commitAt (s : Space) (t : Tag) :
    {x | ∃ k ∈ s.commitAt x, decide (k.1 = t) = true}.ncard = s.bytes .committed t := by
  unfold commitAt bytes
  cases s.committed with
  | some m =>
      exact congrArg Set.ncard (Set.ext fun x =>
        exists_mem_shows_iff .committed (fun side : Side Attribution => side.data.stack) (m.sideAt x) t)
  | none =>
      exact congrArg Set.ncard (Set.ext fun x =>
        exists_mem_shows_iff .committed (fun side : Side Placement => side.data.stack) (s.reserved.sideAt x) t)

/-- In the process a committed byte is reserved. -/
lemma state_ne_released_of_commitAt (hs : s.committed = none) {x : Address} {k : Tag × StackRef}
    (hx : s.commitAt x = some k) : (s.reserved.sideAt x).state ≠ .released := by
  simp only [commitAt, hs, Side.shows_eq_some_iff] at hx
  intro hreleased
  rw [hreleased] at hx
  cases hx.1

namespace Maps

/-- The listing, as intersections. -/
lemma listing_eq (hs : s.Maps) : s.listing =
    { reserved := s.reservations.map (Listing.filled s.commitments)
      orphans := Listing.outside 0 s.reservations s.commitments } :=
  Listing.nest_eq hs.stretches_commitments.toAscending hs.stretches_reservations.toAscending

/-- Nesting leaves the ranges of the reservations alone. -/
lemma map_stretch_listing (hs : s.Maps) :
    s.listing.reserved.map Reservation.stretch = s.reservations.map Reservation.stretch := by
  rw [hs.listing_eq, List.map_map]
  rfl

/-- A reservation of the listing is one that was gathered, with what lies inside it. -/
lemma exists_of_mem_listing (hs : s.Maps) {r : Reservation} (hr : r ∈ s.listing.reserved) :
    ∃ r' ∈ s.reservations,
      r = { r' with committed := s.commitments.filterMap (Commitment.clip r'.start r'.stop) } := by
  rw [hs.listing_eq] at hr
  obtain ⟨r', hr', rfl⟩ := List.mem_map.mp hr
  refine ⟨r', hr', ?_⟩
  rw [Listing.filled, Reservation.committed_of_mem_ofRuns hr', List.nil_append]

lemma ascending_nested (hs : s.Maps) {r : Reservation} (hr : r ∈ s.listing.reserved) :
    Stretch.Ascending (r.committed.map Commitment.stretch) := by
  obtain ⟨r', _, rfl⟩ := hs.exists_of_mem_listing hr
  exact Commitment.ascending_filterMap_clip hs.stretches_commitments.toAscending _ _

lemma ascending_orphans (hs : s.Maps) :
    Stretch.Ascending (s.listing.orphans.map Commitment.stretch) := by
  rw [hs.listing_eq]
  exact Listing.ascending_outside hs.stretches_commitments.toAscending
    hs.stretches_reservations.toAscending

/-- Where an orphan lies nothing is reserved. -/
lemma released_of_mem_orphans (hs : s.Maps) {c : Commitment} (hc : c ∈ s.listing.orphans)
    {x : Address} (hx : c.stretch.Holds x) : (s.reserved.sideAt x).state = .released := by
  have hreserved := hs.stretches_reservations
  rw [hs.listing_eq] at hc
  have hgaps := (Listing.mem_outside hreserved.toAscending (fun _ _ => UInt64.zero_le) hc).2
  by_contra hstate
  obtain ⟨k, hk⟩ : ∃ k, s.bookingAt x = some k := by
    refine ⟨_, Side.shows_eq_some_iff.mpr ⟨?_, rfl⟩⟩
    cases hside : (s.reserved.sideAt x).state with
    | released => exact absurd hside hstate
    | _ => rfl
  obtain ⟨_, hq, ⟨hle, hlt⟩, _⟩ := hreserved.exists_mem hk
  obtain ⟨r, hr, rfl⟩ := List.mem_map.mp hq
  obtain ⟨hle', hlt'⟩ := hx
  rcases hgaps r hr with hgap | hgap
  · exact absurd (UInt64.lt_of_lt_of_le hlt' hgap) (UInt64.not_lt.mpr hle)
  · exact absurd (UInt64.lt_of_lt_of_le hlt hgap) (UInt64.not_lt.mpr hle')

/-- **Every committed byte lies in one commitment**, nested or not, and no other byte in any. -/
lemma shownAt_pieces (hs : s.Maps) (x : Address) :
    Commitment.shownAt s.listing.pieces x = (s.commitAt x).toList := by
  have hpieces : s.listing.pieces = (s.reservations.flatMap fun r =>
      s.commitments.filterMap (Commitment.clip r.start r.stop)) ++
        Listing.outside 0 s.reservations s.commitments := by
    rw [Listing.pieces, hs.listing_eq, List.flatMap_map]
    congr 1
    refine List.flatMap_congr ?_
    intro r hr
    rw [Listing.filled, Reservation.committed_of_mem_ofRuns hr, List.nil_append]
  have hshown : Commitment.shownAt s.commitments x = (s.commitAt x).toList :=
    hs.stretches_commitments.map_shown_holding x
  have hperm : (Commitment.shownAt s.listing.pieces x).Perm (s.commitAt x).toList := by
    rw [List.perm_iff_count]
    intro k
    rw [hpieces, Commitment.shownAt_append, List.count_append,
      Listing.count_shownAt hs.stretches_reservations.toAscending fun _ _ => UInt64.zero_le,
      if_pos UInt64.zero_le, hshown]
  cases hx : s.commitAt x with
  | none =>
      rw [hx] at hperm
      exact hperm.eq_nil
  | some k =>
      rw [hx] at hperm
      exact List.perm_singleton.mp hperm

/-- The process has no orphans. -/
lemma orphans_eq_nil (hs : s.Maps) (hprocess : s.committed = none) : s.listing.orphans = [] := by
  refine List.eq_nil_iff_forall_not_mem.mpr ?_
  intro c hc
  have hx := hs.ascending_orphans.holds_start (List.mem_map_of_mem hc)
  have hshown : (c.tag, c.stack) ∈ Commitment.shownAt s.listing.pieces c.start := by
    refine List.mem_map.mpr ⟨c.stretch, Stretch.mem_holding.mpr ⟨?_, hx⟩, rfl⟩
    exact List.mem_map_of_mem (List.mem_append_right _ hc)
  rw [hs.shownAt_pieces] at hshown
  exact state_ne_released_of_commitAt hprocess (Option.mem_toList.mp hshown)
    (hs.released_of_mem_orphans hc hx)

/-- **A listing divides the memory of its space.** -/
theorem divides (hs : s.Maps) : s.listing.Divides s where
  reserved := hs.map_stretch_listing ▸ hs.stretches_reservations
  signed r hr := by
    obtain ⟨r', hr', rfl⟩ := hs.exists_of_mem_listing hr
    have hsigned := hs.signed_reservations hr'
    exact ⟨hsigned.plain, hsigned.first⟩
  nested _ hr := hs.ascending_nested hr
  inside r hr c hc := by
    obtain ⟨r', _, rfl⟩ := hs.exists_of_mem_listing hr
    obtain ⟨d, _, _, rfl⟩ := Commitment.mem_filterMap_clip hc
    show r'.start ≤ max d.start r'.start ∧ min d.stop r'.stop ≤ r'.stop
    exact ⟨by grind [max_address], by grind [min_address]⟩
  orphaned := hs.ascending_orphans
  free _ hc _ hx := hs.released_of_mem_orphans hc hx
  once := hs.shownAt_pieces
  reserved_bytes t := by
    have hpositive : ∀ r ∈ s.listing.reserved, r.start < r.stop := by
      intro r hr
      refine hs.stretches_reservations.nonempty r.stretch ?_
      rw [← hs.map_stretch_listing]
      exact List.mem_map_of_mem hr
    rw [Reservation.sum_size hpositive, hs.map_stretch_listing,
      Stretch.sum_length_filter hs.stretches_reservations.map_shown_holding
        fun k => decide (k.1 = t),
      ncard_bookingAt]
  committed_bytes t := by
    have hpositive : ∀ c ∈ s.listing.pieces, c.start < c.stop := by
      intro c hc
      rcases List.mem_append.mp hc with hc | hc
      · obtain ⟨r, hr, hc⟩ := List.mem_flatMap.mp hc
        exact (hs.ascending_nested hr).nonempty _ (List.mem_map_of_mem hc)
      · exact hs.ascending_orphans.nonempty _ (List.mem_map_of_mem hc)
    rw [Commitment.sum_size hpositive,
      Stretch.sum_length_filter hs.shownAt_pieces fun k => decide (k.1 = t), ncard_commitAt]
  committed_size _ hr := Reservation.toNat_committedSize (hs.ascending_nested hr)

/-- **The count from scratch** is that of the bytes, up to the longest span. -/
lemma exists_tally (hs : s.Maps) :
    ∃ d, s.tally = .ok d ∧ ∀ c t, d.amount c t = min (s.bytes c t : ℤ) (2 ^ 63 - 1) := by
  unfold tally
  cases hcommitted : s.committed with
  | none =>
      refine ⟨_, rfl, ?_⟩
      intro c t
      have hreserved := hs.reserved.amount_tally c t
      unfold bytes
      rw [hcommitted]
      cases c <;> exact hreserved
  | some m =>
      have hm := hs.committed m hcommitted
      have hapart : ∀ t, Bytes.held s.reserved.sideAt .committed t = 0 :=
        Bytes.held_committed_eq_zero (hs.apart (by simp [hcommitted]))
      have hdistinct := Deltas.distinct_commitOnly (RegionMap.distinct_tally m)
      -- the reservations count in the one column, the commits in the other
      have hsum : ∀ c t, s.reserved.tally.amount c t + m.tally.commitOnly.amount c t =
          min (s.bytes c t : ℤ) (2 ^ 63 - 1) := by
        intro c t
        unfold bytes
        rw [hcommitted, hs.reserved.amount_tally,
          Deltas.amount_commitOnly (RegionMap.distinct_tally m), hm.amount_tally]
        cases c with
        | reserved => simp
        | committed => simp [hapart]
      have hfits : ∀ c t, Fits (s.reserved.tally.amount c t + m.tally.commitOnly.amount c t) := by
        intro c t
        rw [hsum]
        simp only [Fits]
        omega
      obtain ⟨d, hd⟩ := Deltas.exists_plus hdistinct hfits
      exact ⟨d, hd, fun c t => (Deltas.amount_of_plus hdistinct hd c t).trans (hsum c t)⟩

end Maps

end Space

namespace Ledger

/-- **Listings partition memory.**  After every run the listing of every space divides its memory: the
reservations are the stretches of what is not released, every committed byte lies in one commitment,
and the sizes add up to the bytes in the maps, which is what a count from scratch gives up to the
longest span.  In the process every commitment is nested. -/
theorem listing_divides (config : Config) (calls : List LedgerCall) (id : SpaceId) (s : Space)
    (hs : ((create config).run calls).space? id = some s) :
    s.listing.Divides s ∧ (id.isProcess → s.listing.orphans = []) ∧
      ∃ d, s.tally = .ok d ∧ ∀ c t, d.amount c t = min (s.bytes c t : ℤ) (2 ^ 63 - 1) := by
  have hcharted := charted_run config calls
  have hmaps := hcharted.maps id s hs
  refine ⟨hmaps.divides, ?_, hmaps.exists_tally⟩
  intro hprocess
  exact hmaps.orphans_eq_nil ((hcharted.kind id s hs).mpr hprocess)

/-- A commit of a device that reaches over two reservations and the gap between them. -/
def straddlingCalls : List LedgerCall :=
  [.register "device", .operation (.reserve ⟨1⟩ 0x1000 0x1000 ⟨7⟩ {}),
    .operation (.reserve ⟨1⟩ 0x3000 0x1000 ⟨7⟩ {}), .operation (.commit ⟨1⟩ 0x1800 0x2000 ⟨8⟩ {})]

/-- Each reservation has its part of the commit, and the part in the gap is an orphan. -/
theorem straddling_divides : ∃ s, ((create { level := .summary }).run straddlingCalls).space? ⟨1⟩ = some s ∧
    s.listing.Divides s ∧ s.listing.reserved.map (·.committed) =
      [[⟨0x1800, 0x2000, ⟨8⟩, {}⟩], [⟨0x3000, 0x3800, ⟨8⟩, {}⟩]] ∧
    s.listing.orphans = [⟨0x2000, 0x3000, ⟨8⟩, {}⟩] := by
  have hlisting : (((create { level := .summary }).run straddlingCalls).space? ⟨1⟩).map (fun s =>
      (s.listing.reserved.map (·.committed), s.listing.orphans)) =
      some ([[⟨0x1800, 0x2000, ⟨8⟩, {}⟩], [⟨0x3000, 0x3800, ⟨8⟩, {}⟩]],
        [⟨0x2000, 0x3000, ⟨8⟩, {}⟩]) := by decide +kernel
  obtain ⟨s, hs, heq⟩ := Option.map_eq_some_iff.mp hlisting
  obtain ⟨hnested, horphans⟩ := Prod.mk.inj heq
  exact ⟨s, hs, (listing_divides { level := .summary } straddlingCalls ⟨1⟩ s hs).1, hnested, horphans⟩

end Ledger

end RegionLedger
