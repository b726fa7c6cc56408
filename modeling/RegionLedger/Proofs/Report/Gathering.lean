import RegionLedger.Proofs.Region.Stretches
import RegionLedger.Proofs.Space.Sound
import RegionLedger.Report.Listing

/-!
# The regions of a space

The reservations of a space are the stretches of tracked memory under one tag and one mapping, the
commitments those of committed memory under one tag and one call site.  A reservation gathers runs of
several call sites and keeps one of them: that of its first byte that is reserved and not committed.

* `Space.bookingAt`, `Space.commitAt` — what a byte shows.
* `Reservation.Signed` — the call site of a reservation, by the bytes.
* `Space.Maps.stretches_reservations`, `Space.Maps.signed_reservations`,
  `Space.Maps.stretches_commitments` — what is gathered from the runs.
-/

namespace RegionLedger

/-! ## What a byte shows -/

namespace Space

/-- The tag and the mapping of a byte that is not released. -/
def bookingAt (s : Space) (x : Address) : Option (Tag × Option Mapping) :=
  (s.reserved.sideAt x).shows (·.state.isReserved) fun side => (side.data.tag, side.data.mapping)

/-- The tag and the call site of a committed byte, where the space keeps its commits. -/
def commitAt (s : Space) (x : Address) : Option (Tag × StackRef) :=
  match s.committed with
  | some m => (m.sideAt x).shows (·.state.isCommitted) fun side => (side.data.tag, side.data.stack)
  | none =>
    (s.reserved.sideAt x).shows (·.state.isCommitted) fun side => (side.data.tag, side.data.stack)

/-- The runs that the commitments are gathered from. -/
def commitRuns (s : Space) : List (Run Attribution) :=
  match s.committed with
  | some committed => committed.runs
  | none => s.reserved.runs.map Run.unmapped

/-- The commitments before they are nested. -/
def commitments (s : Space) : List Commitment := Commitment.ofRuns s.commitRuns

/-- The reservations before anything is nested in them. -/
def reservations (s : Space) : List Reservation := Reservation.ofRuns s.reserved.runs

end Space

/-! ## Commitments -/

namespace Commitment

/-- The range of a commitment, which shows its tag and its call site. -/
def stretch (c : Commitment) : Stretch (Tag × StackRef) := ⟨c.start, c.stop, (c.tag, c.stack)⟩

lemma map_stretch_gather (current : Commitment) (runs : List (Run Attribution)) :
    (gather current runs).map stretch = Stretch.gather current.stretch
      (runs.map (Run.stretch fun side => (side.data.tag, side.data.stack))) := by
  induction runs generalizing current with
  | nil => rfl
  | cons r rest ih =>
      rw [gather, List.map_cons, Stretch.gather]
      simp only [stretch, Run.stretch, Prod.mk.injEq]
      split_ifs
      · exact ih _
      · rw [List.map_cons, ih]
        rfl

lemma map_stretch_ofRuns (runs : List (Run Attribution)) :
    (ofRuns runs).map stretch = Stretch.gathered
      ((runs.filter fun r => r.side.state.isCommitted).map
        (Run.stretch fun side => (side.data.tag, side.data.stack))) := by
  rw [ofRuns]
  cases runs.filter fun r => r.side.state.isCommitted with
  | nil => rfl
  | cons first rest => exact map_stretch_gather _ rest

end Commitment

/-- **The commitments** are the stretches of committed memory under one tag and one call site. -/
theorem Space.Maps.stretches_commitments {s : Space} (hs : s.Maps) :
    Stretches s.commitAt (s.commitments.map Commitment.stretch) := by
  have hstate : ∀ state : State, state.isCommitted = true → state.isReserved = true := by
    rintro ⟨⟩ <;> decide
  rw [commitments, Commitment.map_stretch_ofRuns]
  refine Pieces.gathered ?_
  unfold commitAt commitRuns
  cases hcommitted : s.committed with
  | some m =>
      exact (hs.committed m hcommitted).pieces_runs (p := fun side => side.state.isCommitted)
        (fun side => hstate side.state) _
  | none =>
      have hpieces := hs.reserved.pieces_runs (p := fun side => side.state.isCommitted)
        (fun side => hstate side.state) fun side => (side.data.tag, side.data.stack)
      simp only [List.filter_map, List.map_map]
      exact hpieces

/-! ## Reservations -/

namespace Reservation

/-- The range of a reservation, which shows its tag and its mapping. -/
def stretch (r : Reservation) : Stretch (Tag × Option Mapping) :=
  ⟨r.start, r.stop, (r.tag, r.mapping)⟩

/-- The call site is that of the first byte that is reserved and not committed, or of the first byte
if there is none. -/
structure Signed (f : Bytes Placement) (r : Reservation) : Prop where
  plain : ∀ x, r.stretch.Holds x → (f x).state = .reserved →
    (∀ y, r.stretch.Holds y → y < x → (f y).state ≠ .reserved) → r.stack = (f x).data.stack
  first : (∀ x, r.stretch.Holds x → (f x).state ≠ .reserved) → r.stack = (f r.start).data.stack

/-- The reservation with a run joined to it. -/
def join (current : Reservation) (settled : Bool) (r : Run Placement) : Reservation :=
  { current with
    stop := r.stop
    stack := if !settled && r.side.state == .reserved then r.side.data.stack else current.stack }

lemma gather_cons (current : Reservation) (settled : Bool) (r : Run Placement)
    (rest : List (Run Placement)) : gather current settled (r :: rest) =
      if current.stop = r.start ∧ current.tag = r.side.data.tag
          ∧ current.mapping = r.side.data.mapping then
        gather (current.join settled r) (settled || r.side.state == .reserved) rest
      else current :: gather (ofRun r) (r.side.state == .reserved) rest := rfl

lemma map_stretch_gather (current : Reservation) (settled : Bool) (runs : List (Run Placement)) :
    (gather current settled runs).map stretch = Stretch.gather current.stretch
      (runs.map (Run.stretch fun side => (side.data.tag, side.data.mapping))) := by
  induction runs generalizing current settled with
  | nil => rfl
  | cons r rest ih =>
      rw [gather_cons, List.map_cons, Stretch.gather]
      simp only [stretch, Run.stretch, Prod.mk.injEq]
      split_ifs
      · exact ih _ _
      · rw [List.map_cons, ih]
        rfl

lemma map_stretch_ofRuns (runs : List (Run Placement)) :
    (ofRuns runs).map stretch = Stretch.gathered
      (runs.map (Run.stretch fun side => (side.data.tag, side.data.mapping))) := by
  cases runs with
  | nil => rfl
  | cons first rest => exact map_stretch_gather _ _ rest

/-- Nothing is nested in what is gathered. -/
lemma committed_of_mem_gather {current r : Reservation} {settled : Bool}
    {runs : List (Run Placement)} (hcurrent : current.committed = [])
    (hr : r ∈ gather current settled runs) : r.committed = [] := by
  induction runs generalizing current settled with
  | nil => rwa [List.mem_singleton.mp hr]
  | cons run rest ih =>
      rw [gather_cons] at hr
      split_ifs at hr
      · have hjoined : (current.join settled run).committed = [] := hcurrent
        exact ih hjoined hr
      · rcases List.mem_cons.mp hr with rfl | hr
        · exact hcurrent
        · exact ih rfl hr

lemma committed_of_mem_ofRuns {r : Reservation} {runs : List (Run Placement)}
    (hr : r ∈ ofRuns runs) : r.committed = [] := by
  cases runs with
  | nil => cases hr
  | cons first rest => exact committed_of_mem_gather rfl hr

variable {f : Bytes Placement} {b : Address}

/-- The call site of what is gathered so far, where `settled` says whether a byte was met that is
reserved and not committed. -/
structure Signing (f : Bytes Placement) (r : Reservation) (settled : Bool) : Prop
    extends r.Signed f where
  nonempty : r.start < r.stop
  settled_iff : settled = true ↔ ∃ x, r.stretch.Holds x ∧ (f x).state = .reserved

/-- The reservation of one run. -/
lemma signing_ofRun {r : Run Placement} (hlt : r.start < r.stop)
    (same : ∀ x, r.start ≤ x → x < r.stop → f x = r.side) :
    (ofRun r).Signing f (r.side.state == .reserved) := by
  have hstart := same r.start (UInt64.le_refl _) hlt
  refine ⟨⟨?_, ?_⟩, hlt, ?_⟩
  · intro x hx _ _
    rw [same x hx.1 hx.2]
    rfl
  · intro _
    show r.side.data.stack = (f r.start).data.stack
    rw [hstart]
  · rw [beq_iff_eq]
    constructor
    · intro hplain
      exact ⟨r.start, ⟨UInt64.le_refl _, hlt⟩, by rw [hstart, hplain]⟩
    · rintro ⟨x, hx, hplain⟩
      rwa [same x hx.1 hx.2] at hplain

/-- A run is joined: the call site of its bytes counts if none counted before. -/
lemma Signing.join {current : Reservation} {settled : Bool} (h : current.Signing f settled)
    {r : Run Placement} (hlt : r.start < r.stop)
    (same : ∀ x, r.start ≤ x → x < r.stop → f x = r.side) (htouch : current.stop = r.start) :
    (current.join settled r).Signing f (settled || r.side.state == .reserved) := by
  have hpos := h.nonempty
  have hholds : ∀ x, current.start ≤ x ∧ x < r.stop ↔
      current.stretch.Holds x ∨ (r.start ≤ x ∧ x < r.stop) := by
    intro x
    simp only [stretch, Stretch.Holds]
    grind
  have hleft : ∀ x, current.stretch.Holds x → x < r.start := fun x hx => htouch ▸ hx.2
  have hstart : current.stretch.Holds current.start := ⟨UInt64.le_refl _, h.nonempty⟩
  have hrun := same r.start (UInt64.le_refl _) hlt
  refine ⟨⟨?_, ?_⟩, ?_, ?_⟩
  · intro x hx hplain hfirst
    show (if _ then _ else _) = _
    rcases (hholds x).mp hx with hx | hx
    · have hsettled := h.settled_iff.mpr ⟨x, hx, hplain⟩
      rw [hsettled, if_neg (by simp)]
      exact h.plain x hx hplain fun y hy => hfirst y ((hholds y).mpr (.inl hy))
    · -- the first such byte lies in the run, so there was none before
      have hnone : settled = false := by
        refine Bool.eq_false_iff.mpr fun hsettled => ?_
        obtain ⟨y, hy, hyplain⟩ := h.settled_iff.mp hsettled
        exact hfirst y ((hholds y).mpr (.inl hy)) (by have := hleft y hy; grind) hyplain
      rw [same x hx.1 hx.2] at hplain ⊢
      rw [hnone, hplain, if_pos (by decide)]
  · intro hnone
    have hplain : (r.side.state == .reserved) = false := by
      refine Bool.eq_false_iff.mpr fun hplain => ?_
      refine hnone r.start ((hholds r.start).mpr (.inr ⟨UInt64.le_refl _, hlt⟩)) ?_
      rw [hrun]
      exact beq_iff_eq.mp hplain
    show (if _ then _ else _) = (f current.start).data.stack
    rw [hplain, Bool.and_false, if_neg Bool.false_ne_true]
    exact h.first fun x hx => hnone x ((hholds x).mpr (.inl hx))
  · show current.start < r.stop
    grind
  · rw [Bool.or_eq_true, h.settled_iff, beq_iff_eq]
    constructor
    · rintro (⟨x, hx, hplain⟩ | hplain)
      · exact ⟨x, (hholds x).mpr (.inl hx), hplain⟩
      · exact ⟨r.start, (hholds _).mpr (.inr ⟨UInt64.le_refl _, hlt⟩), by rw [hrun, hplain]⟩
    · rintro ⟨x, hx, hplain⟩
      rcases (hholds x).mp hx with hx | hx
      · exact .inl ⟨x, hx, hplain⟩
      · rw [same x hx.1 hx.2] at hplain
        exact .inr hplain

/-- Every reservation that is gathered carries its call site. -/
lemma Signing.of_mem_gather {current r : Reservation} {settled : Bool}
    {runs : List (Run Placement)} (h : current.Signing f settled)
    (hruns : f.Shows b current.stop runs) (hr : r ∈ gather current settled runs) : r.Signed f := by
  induction runs generalizing current settled with
  | nil =>
      rw [List.mem_singleton.mp hr]
      exact h.toSigned
  | cons run rest ih =>
      cases hruns with
      | cons _ hlt _ same tail =>
          rw [gather_cons] at hr
          split_ifs at hr with hjoin
          · exact ih (h.join hlt same hjoin.1) tail hr
          · rcases List.mem_cons.mp hr with rfl | hr
            · exact h.toSigned
            · exact ih (signing_ofRun hlt same) tail hr

end Reservation

namespace Space.Maps

variable {s : Space}

/-- **The reservations** are the stretches of tracked memory under one tag and one mapping. -/
theorem stretches_reservations (hs : s.Maps) :
    Stretches s.bookingAt (s.reservations.map Reservation.stretch) := by
  obtain ⟨⟨_, _, hshows⟩, hcover⟩ := hs.reserved.shows_runs
  rw [reservations, Reservation.map_stretch_ofRuns]
  exact (hshows.pieces (p := fun side => side.state.isReserved) _ hcover).gathered

/-- **The call site of a reservation.** -/
theorem signed_reservations (hs : s.Maps) {r : Reservation} (hr : r ∈ s.reservations) :
    r.Signed s.reserved.sideAt := by
  obtain ⟨⟨_, _, hshows⟩, _⟩ := hs.reserved.shows_runs
  rw [reservations] at hr
  cases hruns : s.reserved.runs with
  | nil =>
      rw [hruns] at hr
      cases hr
  | cons first rest =>
      rw [hruns] at hr hshows
      cases hshows with
      | cons _ hlt _ same tail => exact (Reservation.signing_ofRun hlt same).of_mem_gather tail hr

end Space.Maps

end RegionLedger
