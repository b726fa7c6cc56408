import RegionLedger.Proofs.Report.Partition
import RegionLedger.Proofs.Space.Coarsening
import RegionLedger.Proofs.Space.Provenance

/-!
# Levels of detail

A ledger that keeps call stacks has maps with more boundaries than one that does not, since runs of
different call sites stay apart.  Nothing else that it shows is different: calls get the same
answers, totals and peaks are the same, and every byte has the same state, tag and mapping.

* `RegionMap.Outlines`, `Space.Outlines`, `Ledger.Outlines` — what is seen without call sites.
* `Ledger.AccountAlike` — equal answers, and an outline at the end.
* `Ledger.createSummary` — the ledger without call stacks.
* `Ledger.levels_account_alike` — a run of both.
-/

namespace RegionLedger

/-! ## What can be seen without call sites -/

/-- The second map is the outline of the first: every byte has the same state and tag, and its
boundaries are among those of the first. -/
structure RegionMap.Outlines {μ : Type} [Metadata μ] (m n : RegionMap μ) : Prop where
  boundaries : n.points.map Prod.fst ⊆ m.points.map Prod.fst
  state : ∀ x, (m.sideAt x).state = (n.sideAt x).state
  tag : ∀ x, (m.sideAt x).tag = (n.sideAt x).tag

/-- The second space is the outline of the first: totals with their peaks, the maps, and the
reservations of the listing, each with its range, its tag and its mapping. -/
structure Space.Outlines (s t : Space) : Prop where
  name : s.name = t.name
  totals : s.totals = t.totals
  reserved : s.reserved.Outlines t.reserved
  mapping : ∀ x, (s.reserved.sideAt x).data.mapping = (t.reserved.sideAt x).data.mapping
  committed : Option.Rel RegionMap.Outlines s.committed t.committed
  reservations : s.listing.reserved.map Reservation.stretch =
    t.listing.reserved.map Reservation.stretch

/-- The second ledger is the outline of the first: the spaces of the same number are. -/
def Ledger.Outlines (v w : Ledger) : Prop :=
  ∀ id, Option.Rel Space.Outlines (v.space? id) (w.space? id)

/-- The calls get answers that cannot be told apart, and then the second ledger is the outline of the
first. -/
def Ledger.AccountAlike (v w : Ledger) (calls : List LedgerCall) : Prop :=
  v.readings calls = w.readings calls ∧ (v.run calls).Outlines (w.run calls)

lemma RegionMap.Relabels.outlines {μ : Type} [Metadata μ] [Sited μ] [Signs μ]
    {σ : StackRef → StackRef} {m n : RegionMap μ} (h : Relabels σ m n) : m.Outlines n := by
  refine ⟨h.boundaries_subset, ?_, ?_⟩
  · intro x
    rw [h.sideAt_eq, Side.state_relabel]
  · intro x
    rw [h.sideAt_eq, Side.tag_relabel]

namespace Space

variable {s t : Space}

/-- A byte shows the same tag and the same mapping with other references. -/
lemma Coarsens.bookingAt_eq (h : Coarsens s t) : s.bookingAt = t.bookingAt := by
  funext x
  have hstate := Side.state_relabel anonymous (s.reserved.sideAt x)
  have htag := Side.tag_relabel anonymous (s.reserved.sideAt x)
  have hmapping := Side.mapping_relabel anonymous (s.reserved.sideAt x)
  rw [← h.reserved.sideAt_eq] at hstate htag hmapping
  rw [bookingAt, bookingAt, Side.shows, Side.shows, hstate, hmapping]
  exact if_congr Iff.rfl (congrArg (fun tag => some (tag, _)) htag.symm) rfl

/-- **The same memory is listed as reserved.** -/
lemma Coarsens.reservations_eq (h : Coarsens s t) (hs : s.Maps) (ht : t.Maps) :
    s.listing.reserved.map Reservation.stretch = t.listing.reserved.map Reservation.stretch := by
  have hleft := hs.divides.reserved
  rw [h.bookingAt_eq] at hleft
  exact hleft.unique ht.divides.reserved

lemma Coarsens.outlines (h : Coarsens s t) (hs : s.Maps) (ht : t.Maps) : s.Outlines t := by
  refine ⟨h.name, h.totals, h.reserved.outlines, ?_, ?_, h.reservations_eq hs ht⟩
  · intro x
    rw [h.reserved.sideAt_eq, Side.mapping_relabel]
  · rcases h.committed with ⟨hs, ht⟩ | ⟨m, n, hs, ht, hmn⟩
    · rw [hs, ht]
      exact .none
    · rw [hs, ht]
      exact .some hmn.outlines

end Space

namespace Ledger

variable {v w : Ledger}

lemma Coarsens.outlines (h : Coarsens v w) (hv : v.Charted) (hw : w.Charted) : v.Outlines w := by
  intro id
  rcases h.spaces.cases_space? id with ⟨hnone, hnone'⟩ | ⟨s, t, hs, ht, hst⟩
  · rw [hnone, hnone']
    exact .none
  · rw [hs, ht]
    exact .some (hst.outlines (hv.maps id s hs) (hw.maps id t ht))

/-- The ledger that keeps no call stacks and knows only the process. -/
def createSummary (config : Config) : Ledger := create { config with level := .summary }

/-- New ledgers differ in their call sites only. -/
lemma coarsens_create (config other : Config) :
    Coarsens (createDetailed config) (createSummary other) := by
  refine ⟨?_, rfl⟩
  intro i
  cases i with
  | zero => exact .some (.create (.empty anonymous) (.empty anonymous) _ _ _ _)
  | succ i => exact .none

lemma CoarsensAfter.accountAlike {calls : List LedgerCall} (h : CoarsensAfter v w calls)
    (hv : (v.run calls).Charted) (hw : (w.run calls).Charted) : v.AccountAlike w calls :=
  ⟨h.1, h.2.outlines hv hw⟩

/-- **The level of detail does not change the accounting.**  A ledger that keeps call stacks and one
that does not, whatever their seeds, give the same answers to the calls of a run in which every call
stack finds its place, and show the same afterwards but for the call sites and the boundaries between
them.  The one exception is a run in which the slots of a map run out, after two billion calls at
least; up to there the same holds. -/
theorem levels_account_alike (config other : Config) (calls : List LedgerCall)
    (hspans : SpansFit calls) (hstores : (createDetailed config).storesAll calls = true) :
    (∃ before op, before ++ [.operation op] <+: calls ∧
      (createDetailed config).AccountAlike (createSummary other) before ∧
      (((createDetailed config).run before).OutOfSlots op ∨
        ((createSummary other).run before).OutOfSlots op) ∧
      Slots.limit < 2 * before.length + 4) ∨
    (createDetailed config).AccountAlike (createSummary other) calls := by
  have hleft : ∀ calls, ((createDetailed config).run calls).Charted := charted_run _
  have hright : ∀ calls, ((createSummary other).run calls).Charted := charted_run _
  rcases (coarsens_create config other).run (hleft []) (hright []) hspans hstores with
    ⟨before, op, hstart, hafter, hfull⟩ | hafter
  · have halike := hafter.accountAlike (hleft before) (hright before)
    have hbefore : SpansFit before := hspans.mono ((List.prefix_append _ _).trans hstart)
    rcases hfull with ⟨hfull, hcrowded⟩ | ⟨hfull, hcrowded⟩
    · exact .inl ⟨before, op, hstart, halike, .inl hfull, lt_of_crowded _ hbefore hcrowded⟩
    · exact .inl ⟨before, op, hstart, halike, .inr hfull, lt_of_crowded _ hbefore hcrowded⟩
  · exact .inr (hafter.accountAlike (hleft calls) (hright calls))

/-- Two mappings that touch, made at two call sites; a retagging that reaches over both, and a removal
that takes a part of the first. -/
def adjoiningCalls : List LedgerCall :=
  [.register "device", .operation (.map ⟨1⟩ 0x1000 0x1000 0 ⟨7⟩ ⟨[0xa1]⟩),
    .operation (.map ⟨1⟩ 0x2000 0x1000 0x1000 ⟨7⟩ ⟨[0xb2]⟩),
    .operation (.retag .process 0x1800 0x1000 ⟨8⟩), .operation (.unmap ⟨1⟩ 0x1000 0x400)]

/-- The boundary between the call sites is only in the map that knows them. -/
theorem adjoining_account_alike :
    SpansFit adjoiningCalls ∧ (createDetailed {}).storesAll adjoiningCalls = true ∧
      (((createDetailed {}).run adjoiningCalls).space? .process).map
          (·.reserved.points.map Prod.fst) = some [0x1400, 0x1800, 0x2000, 0x2800, 0x3000] ∧
      (((createSummary {}).run adjoiningCalls).space? .process).map
          (·.reserved.points.map Prod.fst) = some [0x1400, 0x1800, 0x2800, 0x3000] ∧
      (createDetailed {}).AccountAlike (createSummary {}) adjoiningCalls := by
  have hspans : SpansFit adjoiningCalls := by decide
  have hstores : (createDetailed {}).storesAll adjoiningCalls = true := by decide +kernel
  refine ⟨hspans, hstores, by decide +kernel, by decide +kernel, ?_⟩
  rcases levels_account_alike {} {} adjoiningCalls hspans hstores with
    ⟨before, op, hstart, _, _, hlimit⟩ | halike
  · -- so few calls do not use up the slots
    have hle := hstart.length_le
    rw [List.length_append] at hle
    have hlength : adjoiningCalls.length = 5 := rfl
    have hslots : Slots.limit = 4294967296 := rfl
    omega
  · exact halike

end Ledger

end RegionLedger
