import RegionLedger.Proofs.Report.Gathering
import RegionLedger.Proofs.Space.Twins
import RegionLedger.Report.Render

/-!
# Reports do not show references

The listing of a space names call sites by their references, and gathers runs by them.  Twins have
the same listing up to the references, since different references stay different.  A report prints
the frames of a call site and never its reference, so twins have the same reports, byte for byte.

With this the seed of the priorities and the size of the stack chunks cannot be told from anything a
ledger answers, shows or prints.

* `Commitment.relabel`, `Reservation.relabel`, `Listing.relabel` — listings with other references.
* `Space.Twins.listing_eq`, `Space.Twins.uses_listing` — the listings of twins.
* `Ledger.Twins.summary_eq`, `Ledger.Twins.detail_eq` — the reports of twins.
* `Ledger.Alike`, `Ledger.parameters_unobservable` — the parameters do not show.
-/

namespace RegionLedger

variable {σ : StackRef → StackRef} {refs : Set StackRef}

/-! ## Commitments -/

namespace Commitment

/-- The commitment with its reference replaced. -/
def relabel (σ : StackRef → StackRef) (c : Commitment) : Commitment :=
  { c with stack := σ c.stack }

/-- The runs are not released, and their references are in the set. -/
def Within (refs : Set StackRef) (runs : List (Run Attribution)) : Prop :=
  ∀ r ∈ runs, r.side.state ≠ .released ∧ r.side.data.stack ∈ refs

lemma ofRun_relabel {r : Run Attribution} (h : r.side.state ≠ .released) :
    ofRun (r.relabel σ) = (ofRun r).relabel σ := by
  rw [ofRun, Run.relabel]
  simp only [Side.relabel_of_ne_released σ h]
  rfl

lemma gather_relabel (hσ : Set.InjOn σ refs) {current : Commitment} (hcurrent : current.stack ∈ refs)
    {runs : List (Run Attribution)} (hruns : Within refs runs) :
    gather (current.relabel σ) (runs.map (Run.relabel σ)) =
      (gather current runs).map (relabel σ) := by
  induction runs generalizing current with
  | nil => rfl
  | cons r rest ih =>
      obtain ⟨hne, hr⟩ := hruns r List.mem_cons_self
      have hrest : Within refs rest := fun r' hr' => hruns r' (List.mem_cons_of_mem _ hr')
      have htag : (r.relabel σ).side.data.tag = r.side.data.tag := Side.tag_relabel σ r.side
      have hstack : (r.relabel σ).side.data.stack = σ r.side.data.stack := by
        rw [Run.relabel, Side.relabel_of_ne_released σ hne]
        rfl
      have hsame : σ current.stack = σ r.side.data.stack ↔ current.stack = r.side.data.stack :=
        hσ.eq_iff hcurrent hr
      rw [List.map_cons, gather, gather, htag, hstack, ofRun_relabel hne]
      simp only [relabel, Run.relabel, hsame]
      split_ifs
      · have hlonger : ({ current with stop := r.stop } : Commitment).stack ∈ refs := hcurrent
        exact ih hlonger hrest
      · rw [List.map_cons]
        exact congrArg _ (ih hr hrest)

lemma ofRuns_relabel (hσ : Set.InjOn σ refs) {runs : List (Run Attribution)}
    (hruns : Within refs runs) :
    ofRuns (runs.map (Run.relabel σ)) = (ofRuns runs).map (relabel σ) := by
  have hfilter : (runs.map (Run.relabel σ)).filter (fun r => r.side.state.isCommitted) =
      (runs.filter fun r => r.side.state.isCommitted).map (Run.relabel σ) := by
    rw [List.filter_map]
    congr 1
    refine List.filter_congr ?_
    intro r _
    show (r.side.relabel σ).state.isCommitted = _
    rw [Side.state_relabel]
  have hwithin : Within refs (runs.filter fun r => r.side.state.isCommitted) :=
    fun r hr => hruns r (List.mem_of_mem_filter hr)
  rw [ofRuns, ofRuns, hfilter]
  generalize runs.filter (fun r => r.side.state.isCommitted) = committed at hwithin
  cases committed with
  | nil => rfl
  | cons first rest =>
      obtain ⟨hne, hfirst⟩ := hwithin first List.mem_cons_self
      have hcurrent : (ofRun first).stack ∈ refs := hfirst
      have hgather := gather_relabel hσ hcurrent fun r hr => hwithin r (List.mem_cons_of_mem _ hr)
      rwa [← ofRun_relabel hne] at hgather

/-- A commitment carries a reference of one of its runs. -/
lemma stack_of_mem_gather {current c : Commitment} (hcurrent : current.stack ∈ refs)
    {runs : List (Run Attribution)} (hruns : Within refs runs) (hc : c ∈ gather current runs) :
    c.stack ∈ refs := by
  induction runs generalizing current with
  | nil =>
      rw [List.mem_singleton.mp hc]
      exact hcurrent
  | cons r rest ih =>
      have hrest : Within refs rest := fun r' hr' => hruns r' (List.mem_cons_of_mem _ hr')
      rw [gather] at hc
      split_ifs at hc
      · have hlonger : ({ current with stop := r.stop } : Commitment).stack ∈ refs := hcurrent
        exact ih hlonger hrest hc
      · rcases List.mem_cons.mp hc with rfl | hc
        · exact hcurrent
        · have hrun : (ofRun r).stack ∈ refs := (hruns r List.mem_cons_self).2
          exact ih hrun hrest hc

lemma stack_of_mem_ofRuns {c : Commitment} {runs : List (Run Attribution)}
    (hruns : Within refs runs) (hc : c ∈ ofRuns runs) : c.stack ∈ refs := by
  have hwithin : Within refs (runs.filter fun r => r.side.state.isCommitted) :=
    fun r hr => hruns r (List.mem_of_mem_filter hr)
  rw [ofRuns] at hc
  generalize runs.filter (fun r => r.side.state.isCommitted) = committed at hc hwithin
  cases committed with
  | nil => cases hc
  | cons first rest =>
      exact stack_of_mem_gather (hwithin first List.mem_cons_self).2
        (fun r hr => hwithin r (List.mem_cons_of_mem _ hr)) hc

end Commitment

/-! ## Reservations -/

namespace Reservation

/-- The reservation with its references replaced, those of the commitments in it included. -/
def relabel (σ : StackRef → StackRef) (r : Reservation) : Reservation :=
  { r with stack := σ r.stack, committed := r.committed.map (Commitment.relabel σ) }

lemma ofRun_relabel {r : Run Placement} (h : r.side.state ≠ .released) :
    ofRun (r.relabel σ) = (ofRun r).relabel σ := by
  rw [ofRun, Run.relabel]
  simp only [Side.relabel_of_ne_released σ h]
  rfl

/-- A joined run, with the references replaced. -/
lemma join_relabel {r : Run Placement} (h : r.side.state ≠ .released) (current : Reservation)
    (settled : Bool) :
    (current.relabel σ).join settled (r.relabel σ) = (current.join settled r).relabel σ := by
  rw [join, join, Run.relabel, relabel]
  simp only [Side.relabel_of_ne_released σ h, relabel, apply_ite σ]
  rfl

lemma gather_relabel (current : Reservation) (settled : Bool) {runs : List (Run Placement)}
    (hruns : ∀ r ∈ runs, r.side.state ≠ .released) :
    gather (current.relabel σ) settled (runs.map (Run.relabel σ)) =
      (gather current settled runs).map (relabel σ) := by
  induction runs generalizing current settled with
  | nil => rfl
  | cons r rest ih =>
      have hne := hruns r List.mem_cons_self
      have hrest : ∀ r' ∈ rest, r'.side.state ≠ .released := fun r' hr' =>
        hruns r' (List.mem_cons_of_mem _ hr')
      have htag : (r.relabel σ).side.data.tag = r.side.data.tag := Side.tag_relabel σ r.side
      have hmapping : (r.relabel σ).side.data.mapping = r.side.data.mapping := by
        rw [Run.relabel, Side.relabel_of_ne_released σ hne]
        rfl
      have hstate : (r.relabel σ).side.state = r.side.state := Side.state_relabel σ r.side
      rw [List.map_cons, gather_cons, gather_cons, htag, hmapping, hstate, ofRun_relabel hne,
        join_relabel hne, ih _ _ hrest, ih _ _ hrest, apply_ite (List.map (relabel σ))]
      rfl

lemma ofRuns_relabel {runs : List (Run Placement)} (hruns : ∀ r ∈ runs, r.side.state ≠ .released) :
    ofRuns (runs.map (Run.relabel σ)) = (ofRuns runs).map (relabel σ) := by
  cases runs with
  | nil => rfl
  | cons first rest =>
      have hne := hruns first List.mem_cons_self
      have hstate : (first.relabel σ).side.state = first.side.state := Side.state_relabel σ first.side
      have hgather := gather_relabel (σ := σ) (ofRun first) (first.side.state == .reserved)
        fun r hr => hruns r (List.mem_cons_of_mem _ hr)
      rw [List.map_cons, ofRuns, ofRuns, hstate, ofRun_relabel hne, hgather]

/-- A reservation carries a reference of one of its runs. -/
lemma stack_of_mem_gather {current r : Reservation} {settled : Bool} (hcurrent : current.stack ∈ refs)
    {runs : List (Run Placement)} (hruns : ∀ r ∈ runs, r.side.data.stack ∈ refs)
    (hr : r ∈ gather current settled runs) : r.stack ∈ refs := by
  induction runs generalizing current settled with
  | nil =>
      rw [List.mem_singleton.mp hr]
      exact hcurrent
  | cons run rest ih =>
      have hrun := hruns run List.mem_cons_self
      have hrest : ∀ r' ∈ rest, r'.side.data.stack ∈ refs := fun r' hr' =>
        hruns r' (List.mem_cons_of_mem _ hr')
      rw [gather_cons] at hr
      split_ifs at hr
      · have hjoined : (current.join settled run).stack ∈ refs := by
          rw [join]
          dsimp only
          split_ifs
          · exact hrun
          · exact hcurrent
        exact ih hjoined hrest hr
      · rcases List.mem_cons.mp hr with rfl | hr
        · exact hcurrent
        · have hstart : (ofRun run).stack ∈ refs := hrun
          exact ih hstart hrest hr

lemma stack_of_mem_ofRuns {r : Reservation} {runs : List (Run Placement)}
    (hruns : ∀ r ∈ runs, r.side.data.stack ∈ refs) (hr : r ∈ ofRuns runs) : r.stack ∈ refs := by
  cases runs with
  | nil => cases hr
  | cons first rest =>
      exact stack_of_mem_gather (hruns first List.mem_cons_self)
        (fun r hr => hruns r (List.mem_cons_of_mem _ hr)) hr

end Reservation

/-! ## Nesting -/

/-- The commitments around a reservation with their references replaced. -/
def Carving.relabel (σ : StackRef → StackRef) (c : Carving) : Carving where
  inside := c.inside.map (Commitment.relabel σ)
  before := c.before.map (Commitment.relabel σ)
  left := c.left.map (Commitment.relabel σ)

/-- The references of the commitments around a reservation are in the set. -/
structure Carving.Uses (refs : Set StackRef) (carved : Carving) : Prop where
  inside : ∀ c ∈ carved.inside, c.stack ∈ refs
  before : ∀ c ∈ carved.before, c.stack ∈ refs
  left : ∀ c ∈ carved.left, c.stack ∈ refs

namespace Reservation

/-- Where commitments are cut does not depend on their references. -/
lemma carve_relabel (σ : StackRef → StackRef) (r : Reservation) (cs : List Commitment) :
    (r.relabel σ).carve (cs.map (Commitment.relabel σ)) = (r.carve cs).relabel σ := by
  induction cs with
  | nil => rfl
  | cons c rest ih =>
      have hhead : (if (c.relabel σ).start < (r.relabel σ).start then
            [{ c.relabel σ with stop := (r.relabel σ).start }] else []) =
          (if c.start < r.start then [{ c with stop := r.start }] else []).map
            (Commitment.relabel σ) := by
        show (if c.start < r.start then _ else _) = _
        split_ifs <;> rfl
      rw [List.map_cons, carve, carve, ih, hhead]
      show (if c.stop ≤ r.start then _ else if r.stop ≤ c.start then _ else
        if r.stop < c.stop then _ else _) = _
      split_ifs <;> rfl

/-- A part carries the reference of the whole. -/
lemma uses_carve (r : Reservation) {cs : List Commitment} (hcs : ∀ c ∈ cs, c.stack ∈ refs) :
    (r.carve cs).Uses refs := by
  have hnil : ∀ d ∈ ([] : List Commitment), d.stack ∈ refs := fun _ h => (List.not_mem_nil h).elim
  induction cs with
  | nil => exact ⟨hnil, hnil, hnil⟩
  | cons c rest ih =>
      obtain ⟨hinside, hbefore, hleft⟩ := ih fun d hd => hcs d (List.mem_cons_of_mem _ hd)
      have hc := hcs c List.mem_cons_self
      have hrest : ∀ d ∈ rest, d.stack ∈ refs := fun d hd => hcs d (List.mem_cons_of_mem _ hd)
      have hpart : ∀ a b, ∀ d ∈ [{ c with start := a, stop := b }], d.stack ∈ refs := fun a b =>
        List.forall_mem_singleton.mpr hc
      rw [carve]
      split_ifs
      · exact ⟨hinside, List.forall_mem_cons.mpr ⟨hc, hbefore⟩, hleft⟩
      · exact ⟨hnil, hnil, hcs⟩
      · exact ⟨hpart _ _, hpart _ _, List.forall_mem_cons.mpr ⟨hc, hrest⟩⟩
      · exact ⟨List.forall_mem_cons.mpr ⟨hc, hinside⟩, List.forall_mem_cons.mpr ⟨hc, hbefore⟩, hleft⟩
      · exact ⟨hpart _ _, hnil, List.forall_mem_cons.mpr ⟨hc, hrest⟩⟩
      · exact ⟨List.forall_mem_cons.mpr ⟨hc, hinside⟩, hbefore, hleft⟩

end Reservation

namespace Listing

/-- The listing with all references replaced. -/
def relabel (σ : StackRef → StackRef) (l : Listing) : Listing where
  reserved := l.reserved.map (Reservation.relabel σ)
  orphans := l.orphans.map (Commitment.relabel σ)

/-- All references of a listing are in the set. -/
structure Uses (refs : Set StackRef) (l : Listing) : Prop where
  reserved : ∀ r ∈ l.reserved, r.stack ∈ refs ∧ ∀ c ∈ r.committed, c.stack ∈ refs
  orphans : ∀ c ∈ l.orphans, c.stack ∈ refs

lemma nest_relabel (σ : StackRef → StackRef) (rs : List Reservation) (cs : List Commitment) :
    nest (rs.map (Reservation.relabel σ)) (cs.map (Commitment.relabel σ)) =
      (nest rs cs).relabel σ := by
  induction rs generalizing cs with
  | nil => rfl
  | cons r rest ih =>
      rw [List.map_cons, nest, nest, Reservation.carve_relabel]
      simp only [Carving.relabel, ih, relabel, Reservation.relabel, List.map_cons, List.map_append]

lemma uses_nest {rs : List Reservation} {cs : List Commitment}
    (hrs : ∀ r ∈ rs, r.stack ∈ refs ∧ ∀ c ∈ r.committed, c.stack ∈ refs)
    (hcs : ∀ c ∈ cs, c.stack ∈ refs) : (nest rs cs).Uses refs := by
  induction rs generalizing cs with
  | nil => exact ⟨fun _ h => (List.not_mem_nil h).elim, hcs⟩
  | cons r rest ih =>
      obtain ⟨hinside, hbefore, hleft⟩ := r.uses_carve hcs
      obtain ⟨hreserved, horphans⟩ := ih (fun r' hr' => hrs r' (List.mem_cons_of_mem _ hr')) hleft
      obtain ⟨hstack, hcommitted⟩ := hrs r List.mem_cons_self
      refine ⟨?_, ?_⟩
      · intro r' hr'
        rcases List.mem_cons.mp hr' with rfl | hr'
        · exact ⟨hstack, List.forall_mem_append.mpr ⟨hcommitted, hinside⟩⟩
        · exact hreserved r' hr'
      · exact List.forall_mem_append.mpr ⟨hbefore, horphans⟩

end Listing

/-! ## The listings of twins -/

lemma Run.unmapped_relabel (σ : StackRef → StackRef) (r : Run Placement) :
    (r.relabel σ).unmapped = r.unmapped.relabel σ := by
  by_cases h : r.side.state = .released
  · rw [relabel, relabel, Side.relabel, Side.relabel, if_pos h,
      if_pos (c := r.unmapped.side.state = .released) h]
  · have hside : (r.side.relabel σ) = { r.side with data := Metadata.relabel σ r.side.data } :=
      Side.relabel_of_ne_released σ h
    rw [relabel, relabel, Side.relabel_of_ne_released σ (s := r.unmapped.side) h, unmapped, hside]
    rfl

namespace Space

variable {s t : Space}

lemma listing_eq_nest (s : Space) : s.listing = .nest s.reservations s.commitments := rfl

namespace Twins

lemma commitRuns_eq (h : Twins σ refs s t) : t.commitRuns = s.commitRuns.map (Run.relabel σ) := by
  rw [commitRuns, commitRuns]
  rcases h.committed with ⟨hs, ht⟩ | ⟨m, n, hs, ht, hmn⟩
  · rw [hs, ht]
    show t.reserved.runs.map Run.unmapped = (s.reserved.runs.map Run.unmapped).map (Run.relabel σ)
    rw [h.reserved.runs_eq, List.map_map, List.map_map]
    exact List.map_congr_left fun r _ => r.unmapped_relabel σ
  · rw [hs, ht]
    exact hmn.runs_eq

lemma within_commitRuns (h : Twins σ refs s t) : Commitment.Within refs s.commitRuns := by
  intro r hr
  rw [commitRuns] at hr
  rcases h.committed with ⟨hs, _⟩ | ⟨m, n, hs, _, hmn⟩
  · rw [hs] at hr
    obtain ⟨q, hq, rfl⟩ := List.mem_map.mp hr
    exact h.reserved.mem_runs hq
  · rw [hs] at hr
    exact hmn.mem_runs hr

lemma commitments_eq (h : Twins σ refs s t) :
    t.commitments = s.commitments.map (Commitment.relabel σ) := by
  rw [commitments, commitments, h.commitRuns_eq,
    Commitment.ofRuns_relabel h.reserved.injOn h.within_commitRuns]

lemma reservations_eq (h : Twins σ refs s t) :
    t.reservations = s.reservations.map (Reservation.relabel σ) := by
  rw [reservations, reservations, h.reserved.runs_eq]
  exact Reservation.ofRuns_relabel fun r hr => (h.reserved.mem_runs hr).1

/-- **The listing of a twin** is the listing with the references replaced. -/
theorem listing_eq (h : Twins σ refs s t) : t.listing = s.listing.relabel σ := by
  rw [listing_eq_nest, listing_eq_nest, h.commitments_eq, h.reservations_eq, Listing.nest_relabel]

/-- The references of a listing are in use. -/
theorem uses_listing (h : Twins σ refs s t) : s.listing.Uses refs := by
  rw [listing_eq_nest]
  refine Listing.uses_nest ?_ ?_
  · intro r hr
    refine ⟨Reservation.stack_of_mem_ofRuns (fun run hrun => (h.reserved.mem_runs hrun).2) hr, ?_⟩
    have hnone : r.committed = [] := Reservation.committed_of_mem_ofRuns hr
    rw [hnone]
    exact fun _ hc => (List.not_mem_nil hc).elim
  · intro c hc
    exact Commitment.stack_of_mem_ofRuns h.within_commitRuns hc

end Twins

end Space

/-! ## The reports of twins -/

namespace Ledger.Twins

variable {v w : Ledger}

/-- The call site of a reference, as printed. -/
lemma stackLines_eq (h : Twins σ refs v w) (depth : ℕ) {ref : StackRef} (href : ref ∈ refs) :
    Report.stackLines w depth (σ ref) = Report.stackLines v depth ref := by
  rw [Report.stackLines, Report.stackLines, h.stores.detailed_eq, h.stores.get_eq href]

lemma mappingText_eq (h : Twins σ refs v w) (start : Address) (m : Mapping) :
    Report.mappingText w start m = Report.mappingText v start m := by
  have hname : (w.space? m.space).map (·.name) = (v.space? m.space).map (·.name) := by
    rcases h.spaces.cases_space? m.space with ⟨hv, hw⟩ | ⟨s, t, hv, hw, hst⟩
    · rw [hv, hw]
    · rw [hv, hw]
      exact congrArg some hst.name.symm
  delta Report.mappingText
  rw [hname]

variable (r : Report)

lemma commitmentLines_eq (h : Twins σ refs v w) {c : Commitment} (hc : c.stack ∈ refs) :
    r.commitmentLines w (c.relabel σ) = r.commitmentLines v c :=
  congrArg _ (h.stackLines_eq 10 hc)

lemma commitmentsLines_eq (h : Twins σ refs v w) {cs : List Commitment}
    (hcs : ∀ c ∈ cs, c.stack ∈ refs) :
    (cs.map (Commitment.relabel σ)).flatMap (r.commitmentLines w) =
      cs.flatMap (r.commitmentLines v) := by
  rw [List.flatMap_map]
  exact List.flatMap_congr fun c hc => h.commitmentLines_eq r (hcs c hc)

lemma reservationLines_eq (h : Twins σ refs v w) {region : Reservation}
    (hstack : region.stack ∈ refs) (hcommitted : ∀ c ∈ region.committed, c.stack ∈ refs) :
    r.reservationLines w (region.relabel σ) = r.reservationLines v region := by
  have hmapped : region.mapping.map (Report.mappingText w region.start) =
      region.mapping.map (Report.mappingText v region.start) :=
    congrArg (region.mapping.map ·) (funext fun m => h.mappingText_eq region.start m)
  have hstacks := h.stackLines_eq 6 hstack
  have hinside := h.commitmentsLines_eq r hcommitted
  simp only [Report.reservationLines, Reservation.relabel, hmapped, hstacks, hinside]
  rfl

lemma regionLines_eq (h : Twins σ refs v w) {s t : Space} (hst : Space.Twins σ refs s t) :
    r.regionLines w t = r.regionLines v s := by
  have huses := hst.uses_listing
  have hreserved : (s.listing.reserved.map (Reservation.relabel σ)).flatMap
      (r.reservationLines w) = s.listing.reserved.flatMap (r.reservationLines v) := by
    rw [List.flatMap_map]
    exact List.flatMap_congr fun region hregion =>
      h.reservationLines_eq r (huses.reserved region hregion).1 (huses.reserved region hregion).2
  have horphans := h.commitmentsLines_eq r huses.orphans
  rw [Report.regionLines, Report.regionLines, hst.listing_eq]
  simp only [hreserved, Listing.relabel, List.isEmpty_map, horphans]

lemma totalsLines_eq {s t : Space} (hst : Space.Twins σ refs s t) (id : SpaceId) :
    r.totalsLines id t = r.totalsLines id s := by
  rw [Report.totalsLines, Report.totalsLines, hst.name, hst.totals]

/-- **The totals are printed alike.** -/
theorem summary_eq (h : Twins σ refs v w) : r.summary v = r.summary w := by
  have hblocks := h.spaces.mapM_toList_eq (f := fun p => r.totalsLines p.1 p.2)
    (g := fun p => r.totalsLines p.1 p.2) fun id s t hst => (totalsLines_eq r hst id).symm
  exact congrArg (·.map fun blocks => Report.unlines (r.heading ++ blocks.flatten)) hblocks

/-- **Every region is printed alike.** -/
theorem detail_eq (h : Twins σ refs v w) : r.detail v = r.detail w := by
  have hblocks := h.spaces.mapM_toList_eq
    (f := fun p => (r.totalsLines p.1 p.2).map (· ++ r.regionLines v p.2))
    (g := fun p => (r.totalsLines p.1 p.2).map (· ++ r.regionLines w p.2)) fun id s t hst => by
      rw [totalsLines_eq r hst id, h.regionLines_eq r hst]
  exact congrArg (·.map fun blocks => Report.unlines (r.heading ++ blocks.flatten)) hblocks

end Ledger.Twins

/-! ## What can be seen -/

/-- Two maps show the same: their boundaries stand at the same addresses, and every byte has the same
state and tag and the same frames in its call site.  Released memory has no call site. -/
structure RegionMap.Alike {μ : Type} [Metadata μ] [Sited μ] (a b : StackStore) (m n : RegionMap μ) :
    Prop where
  boundaries : m.points.map Prod.fst = n.points.map Prod.fst
  state : ∀ x, (m.sideAt x).state = (n.sideAt x).state
  tag : ∀ x, (m.sideAt x).tag = (n.sideAt x).tag
  frames : ∀ x, (m.sideAt x).site?.map a.get = (n.sideAt x).site?.map b.get

/-- Two spaces show the same: totals with their peaks, and the maps. -/
structure Space.Alike (a b : StackStore) (s t : Space) : Prop where
  name : s.name = t.name
  totals : s.totals = t.totals
  reserved : s.reserved.Alike a b t.reserved
  mapping : ∀ x, (s.reserved.sideAt x).data.mapping = (t.reserved.sideAt x).data.mapping
  committed : Option.Rel (RegionMap.Alike a b) s.committed t.committed

/-- Two ledgers show the same: their spaces, and their reports byte for byte. -/
structure Ledger.Alike (v w : Ledger) : Prop where
  spaces : Beside (Space.Alike v.callStacks w.callStacks) v w
  summary : ∀ r : Report, r.summary v = r.summary w
  detail : ∀ r : Report, r.detail v = r.detail w

lemma RegionMap.Twins.alike {μ : Type} [Metadata μ] [Sited μ] [Signs μ] {m n : RegionMap μ}
    (h : Twins σ refs m n) {a b : StackStore} (hget : ∀ ref ∈ refs, b.get (σ ref) = a.get ref) :
    m.Alike a b n := by
  refine ⟨?_, ?_, ?_, ?_⟩
  · rw [h.points_eq, List.map_map]
    rfl
  · intro x
    rw [h.sideAt_eq, Side.state_relabel]
  · intro x
    rw [h.sideAt_eq, Side.tag_relabel]
  · intro x
    have huses := h.uses x
    rw [h.sideAt_eq, Side.site?_relabel, Option.map_map]
    exact (Option.map_congr fun ref href => hget ref (huses ref href)).symm

lemma Space.Twins.alike {s t : Space} (h : Twins σ refs s t) {a b : StackStore}
    (hget : ∀ ref ∈ refs, b.get (σ ref) = a.get ref) : s.Alike a b t := by
  refine ⟨h.name, h.totals, h.reserved.alike hget, ?_, ?_⟩
  · intro x
    rw [h.reserved.sideAt_eq, Side.mapping_relabel]
  · rcases h.committed with ⟨hs, ht⟩ | ⟨m, n, hs, ht, hmn⟩
    · rw [hs, ht]
      exact .none
    · rw [hs, ht]
      exact .some (hmn.alike hget)

lemma Ledger.Twins.alike {v w : Ledger} (h : Twins σ refs v w) : v.Alike w :=
  ⟨h.spaces.mono fun _ _ hst => hst.alike fun _ href => h.stores.get_eq href, h.summary_eq,
    h.detail_eq⟩

namespace Ledger

/-- **Internal parameters are not observable.**  Two configurations that differ in the seed of the
priorities and in the size of the stack chunks give the same answer to every call of a run in which
every call stack finds its place, and show the same afterwards. -/
theorem parameters_unobservable (config : Config) (seed : UInt64) (slots : ℕ)
    (calls : List LedgerCall) (hleft : (create config).storesAll calls = true)
    (hright : (create { config with seed, chunkSlots := slots }).storesAll calls = true) :
    (create config).answers calls =
        (create { config with seed, chunkSlots := slots }).answers calls ∧
      ((create config).run calls).Alike
        ((create { config with seed, chunkSlots := slots }).run calls) := by
  obtain ⟨σ, refs, htwins⟩ := Twins.create config seed slots
  obtain ⟨hanswers, σ', refs', hrun⟩ := htwins.run (charted_create config) calls hleft hright
  exact ⟨hanswers, hrun.alike⟩

/-- Reservations and commits of three call sites, of which one is used twice. -/
def sitedCalls : List LedgerCall :=
  [.register "device", .operation (.reserve .process 0x1000 0x4000 ⟨7⟩ ⟨[0xa1]⟩),
    .operation (.commit .process 0x2000 0x1000 ⟨7⟩ ⟨[0xb2, 0xa1]⟩),
    .operation (.commit ⟨1⟩ 0x3000 0x1000 ⟨7⟩ ⟨[0xa1]⟩),
    .operation (.uncommit .process 0x2800 0x400 ⟨[0xc3]⟩)]

/-- Chunks of one slot give other references, which do not show. -/
theorem chunks_unobservable :
    ((create {}).run sitedCalls).site? .process .reserved 0x2000 ≠
        ((create { seed := 7, chunkSlots := 1 }).run sitedCalls).site? .process .reserved 0x2000 ∧
      (create {}).answers sitedCalls = (create { seed := 7, chunkSlots := 1 }).answers sitedCalls ∧
      ((create {}).run sitedCalls).Alike
        ((create { seed := 7, chunkSlots := 1 }).run sitedCalls) :=
  ⟨by decide +kernel, parameters_unobservable {} 7 1 sitedCalls (by decide +kernel)
    (by decide +kernel)⟩

end Ledger

end RegionLedger
