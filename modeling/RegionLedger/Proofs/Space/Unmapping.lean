import RegionLedger.Proofs.Space.Atomicity
import RegionLedger.Proofs.Space.Provenance

/-!
# What a removal of mappings releases and books

A removal of mappings releases the bytes of its range that are mapped onto the given space, and no
others, however long the range is.  The runs are released one after the other, and what was booked for
them is added up in signed words.  An answer, if there is one, is therefore exact; but of a range
longer than the longest span more than `2 ^ 63` bytes of one tag can be released, which no signed word
holds, and then the program stops, with the bytes released and nothing booked.

An exact decrease also moves the totals of the process exactly, since these are never below the
counts of its map.  They can be above, once a removal of mappings stopped midway; that no operation
changes.

* `Space.Covered` — the totals are at least the counts; `Ledger.covered_run` for the process.
* `Space.MappedOnto`, `Space.unmapped` — the bytes that a removal of mappings should release, and
  their number.
* `Ledger.unmap_releases_and_books` — what a removal of mappings does, after any run of calls.
-/

namespace RegionLedger

namespace Space

variable {s : Space} {d : Deltas}

/-! ## Totals that cover the memory -/

/-- The space keeps its commits among its reservations, and its totals are at least what these
hold. -/
structure Covered (s : Space) : Prop extends s.Maps where
  lone : s.committed = none
  sorted : s.totals.Sorted
  held_le : ∀ c t, Bytes.held s.reserved.sideAt c t ≤ s.totals.amount c t

/-- **Booking no less than the change** leaves the totals at least what is held. -/
lemma Covered.account (hs : s.Covered) {m : RegionMap Placement} (hm : m.Represents m.sideAt)
    (hd : d.Distinct)
    (hle : ∀ c t, (Bytes.held m.sideAt c t : ℤ) - Bytes.held s.reserved.sideAt c t ≤ d.amount c t) :
    Covered (Space.account { s with reserved := m } d) where
  reserved := hm
  committed := hs.committed
  apart h := absurd hs.lone h
  lone := hs.lone
  sorted := hs.sorted.apply hd
  held_le c t := by
    have hbefore := hs.held_le c t
    have hchange := hle c t
    have hword := (Bytes.held_le_inUse m.sideAt c t).trans_lt (Bytes.inUse_lt hm.last_released c)
    have htotals := Totals.amount_apply_clamped hs.sorted hd c t
    show Bytes.held m.sideAt c t ≤ (s.totals.apply d).amount c t
    omega

/-- In a space that keeps its commits among its reservations, an operation on both maps is one on the
reservations. -/
lemma takeBoth_eq_takeReserved (hlone : s.committed = none)
    (step : Except RegionError (Deltas × RegionMap Placement))
    (f : RegionMap Attribution → Except RegionError (Deltas × RegionMap Attribution)) :
    s.takeBoth step f = s.takeReserved step := by
  cases step with
  | error e => rfl
  | ok answer => exact takeBoth_of_none hlone

/-- **In such a space every operation but a removal of mappings is one mutation.** -/
lemma act_eq_takeReserved (hlone : s.committed = none) {op : Operation} (ref : StackRef)
    (hop : ∀ id base size, op ≠ .unmap id base size) :
    ∃ c : Mutation Placement, op.act ref s = s.takeReserved (c.apply s.reserved) := by
  cases op with
  | reserve id start size tag stack => exact ⟨.reserve start size { stack := ref, tag }, rfl⟩
  | commit id start size tag stack =>
      refine ⟨.commit start size { stack := ref, tag } .adopt, ?_⟩
      show s.commit start size ref tag = _
      rw [Space.commit, hlone]
      rfl
  | uncommit id start size stack =>
      refine ⟨.uncommit start size { stack := ref }, ?_⟩
      show s.uncommit start size ref = _
      rw [Space.uncommit, hlone]
      rfl
  | release id start size =>
      exact ⟨.release start size, takeBoth_eq_takeReserved hlone _ _⟩
  | map id base size offset tag stack =>
      exact ⟨.reserve base size
        { stack := ref, tag, mapping := some (.ofBase id base offset) }, rfl⟩
  | unmap id base size => exact absurd rfl (hop id base size)
  | retag id start size tag =>
      exact ⟨.retag start size tag, takeBoth_eq_takeReserved hlone _ _⟩

lemma Covered.takeReserved (hs : s.Covered) (c : Mutation Placement) :
    (s.takeReserved (c.apply s.reserved)).2.Covered := by
  cases happly : c.apply s.reserved with
  | error e => exact hs
  | ok answer =>
      obtain ⟨d, m⟩ := answer
      obtain ⟨_, hm, _, hbooks⟩ := hs.reserved.apply_writes happly
      exact hs.account hm hbooks.distinct fun c t => (hbooks.amount c t).ge

/-- A removal of mappings that stops midway releases memory and books nothing; else the exact change
is booked. -/
lemma Covered.unmap (hs : s.Covered) (target : SpaceId) (first last : Address) :
    (s.unmap target first last).2.Covered := by
  obtain ⟨_, _, m, _, hm, hsides, _, hanswer⟩ := hs.unmap_cases target first last
  have hkeep := released_or_same hsides
  rcases hanswer with ⟨d, _, hbooks, hunmap⟩ | ⟨e, hunmap, _⟩
  · rw [hunmap]
    exact hs.account hm hbooks.distinct fun c t => (hbooks.amount c t).ge
  · rw [hunmap]
    exact {
      toMaps := hs.toMaps.of_released hm hkeep
      lone := hs.lone
      sorted := hs.sorted
      held_le := fun c t => (Bytes.held_le_of_released hkeep c t).trans (hs.held_le c t) }

/-- **Every operation leaves the totals at least what is held.** -/
theorem Covered.act (hs : s.Covered) (op : Operation) (ref : StackRef) :
    (op.act ref s).2.Covered := by
  by_cases hop : ∀ id base size, op ≠ .unmap id base size
  · obtain ⟨c, hact⟩ := act_eq_takeReserved hs.lone ref hop
    rw [hact]
    exact hs.takeReserved c
  · simp only [not_forall, not_not] at hop
    obtain ⟨id, base, size, rfl⟩ := hop
    exact hs.unmap id base (base + size)

/-! ## Removals of mappings -/

variable {id : SpaceId} {base : Address} {size : UInt64}

/-- The byte at `x` is one of the `size` bytes from `base` and is mapped onto the space `id`. -/
def MappedOnto (s : Space) (id : SpaceId) (base : Address) (size : UInt64) (x : Address) : Prop :=
  InRange base size x ∧ (s.reserved.sideAt x).data.mapping.map (·.space) = some id

/-- The number of such bytes that count toward a column of a tag. -/
noncomputable def unmapped (s : Space) (id : SpaceId) (base : Address) (size : UInt64) (c : Column)
    (t : Tag) : ℕ :=
  {x | s.MappedOnto id base size x ∧ (s.reserved.sideAt x).CountsIn c t}.ncard

/-- Released memory is not mapped. -/
lemma Maps.mappedOnto_iff (hs : s.Maps) (hend : base.toNat + size.toNat < 2 ^ 64) (x : Address) :
    s.MappedOnto id base size x ↔ (base ≤ x ∧ x < base + size) ∧
      (s.reserved.sideAt x).state.isReserved ∧
        (s.reserved.sideAt x).data.mapping.map (·.space) = some id := by
  rw [MappedOnto, inRange_iff hend]
  refine and_congr_right fun _ => ⟨fun hmapping => ⟨?_, hmapping⟩, fun h => h.2⟩
  cases hstate : (s.reserved.sideAt x).state with
  | released =>
      rw [hs.reserved.clean x hstate] at hmapping
      cases hmapping
  | _ => rfl

/-- The bytes that are released no longer count, and the others count as before. -/
lemma held_add_unmapped {f : Bytes Placement}
    (hf : ∀ x, (s.MappedOnto id base size x → f x = .released) ∧
      (¬ s.MappedOnto id base size x → f x = s.reserved.sideAt x)) (c : Column) (t : Tag) :
    f.held c t + s.unmapped id base size c t = Bytes.held s.reserved.sideAt c t := by
  have hnone : {x | s.MappedOnto id base size x ∧ (f x).CountsIn c t} = ∅ := by
    rw [Set.eq_empty_iff_forall_notMem]
    rintro x ⟨hx, hcounts⟩
    rw [(hf x).1 hx] at hcounts
    exact Side.not_countsIn_released c t hcounts
  have hrest : {x | ¬ s.MappedOnto id base size x ∧ (f x).CountsIn c t} =
      {x | ¬ s.MappedOnto id base size x ∧ (s.reserved.sideAt x).CountsIn c t} := by
    ext x
    simp only [Set.mem_ofPred_eq]
    exact and_congr_right fun hx => by rw [(hf x).2 hx]
  rw [Bytes.held, Bytes.held, Bytes.ncard_add (s.MappedOnto id base size),
    Bytes.ncard_add (s.MappedOnto id base size) fun x => (s.reserved.sideAt x).CountsIn c t, hnone,
    hrest, unmapped, Set.ncard_empty]
  omega

/-- The space after a removal of mappings that is carried out: which bytes are released, what is
answered, and what is booked. -/
lemma Covered.unmap_of_eq_ok (hs : s.Covered) (hpos : 0 < size.toNat)
    (hend : base.toNat + size.toNat < 2 ^ 64) {d : Deltas} {s' : Space}
    (h : s.unmap id base (base + size) = (.ok d, s')) :
    s'.committed = s.committed ∧ s'.totals = s.totals.apply d ∧
      (∀ x, (s.MappedOnto id base size x → s'.reserved.sideAt x = .released) ∧
        (¬ s.MappedOnto id base size x → s'.reserved.sideAt x = s.reserved.sideAt x)) ∧
      d.Books s.reserved.sideAt s'.reserved.sideAt := by
  have hcover := (hs.mapped_spec id (base_lt_end hpos hend)).2
  obtain ⟨short, rest, m, hsplit, _, hsides, _, hanswer⟩ := hs.unmap_cases id base (base + size)
  rcases hanswer with ⟨d', rfl, hbooks, hunmap⟩ | ⟨e, hunmap, _⟩
  · rw [hunmap, Prod.mk.injEq, Except.ok.injEq] at h
    obtain ⟨rfl, rfl⟩ := h
    refine ⟨rfl, rfl, ?_, hbooks⟩
    intro x
    rw [hs.mappedOnto_iff hend, ← hcover x, hsplit, List.append_nil]
    exact ⟨fun hx => (hsides x).trans (if_pos hx), fun hx => (hsides x).trans (if_neg hx)⟩
  · rw [hunmap] at h
    cases h

end Space

namespace Ledger

variable {v : Ledger}

lemma covered_step (hv : v.Charted) (hcovered : ∀ s, v.space? .process = some s → s.Covered)
    (call : LedgerCall) {s : Space} (hs : (v.step call).space? .process = some s) : s.Covered := by
  cases call with
  | register name =>
      rcases v.register_cases name with hstep | ⟨new, hraw, hspace, _⟩
      · rw [hstep] at hs
        exact hcovered s hs
      · have hnew : SpaceId.process ≠ new := by
          rintro rfl
          have hpos := hv.pos
          rw [← hraw] at hpos
          exact absurd hpos (by decide)
        rw [hspace, if_neg hnew] at hs
        exact hcovered s hs
  | operation op =>
      rcases Ledger.apply_cases hv.pos op with ⟨e, happly⟩ | ⟨ref, store, s₀, _, hs₀, _, happly⟩
      · rw [show v.step (.operation op) = v from congrArg Prod.snd happly] at hs
        exact hcovered s hs
      · have hspace := space?_set hs₀ (op.act ref s₀).2 .process
        have hstep : (v.step (.operation op)).space? .process = _ :=
          (congrArg (space? · .process) (congrArg Prod.snd happly)).trans hspace
        rw [hstep] at hs
        split_ifs at hs with htarget
        · rw [← htarget] at hs₀
          exact Option.some.inj hs ▸ (hcovered s₀ hs₀).act op ref
        · exact hcovered s hs

/-- **The totals of the process cover its memory** after every run. -/
theorem covered_run (config : Config) (calls : List LedgerCall) {s : Space}
    (hs : ((create config).run calls).space? .process = some s) : s.Covered := by
  induction calls using List.reverseRecOn generalizing s with
  | nil =>
      have hsound := (sound_create config).sound .process s hs
      have hlone := ((sound_create config).kind .process s hs).mpr rfl
      refine ⟨hsound.toMaps, hlone, hsound.sorted, ?_⟩
      intro c t
      cases c <;> simp [hsound.amount, Space.bytes, hlone]
  | append_singleton calls call ih =>
      rw [run_concat] at hs
      exact covered_step (charted_run config calls) (fun s hs => ih hs) call hs

/-- **What a removal of mappings does.**  Take any run of calls and a removal of mappings after it
that is carried out, of whatever length.  Just the bytes of the process in its range that are mapped
onto the given space are released; no other byte changes, nor does any other space.  For every tag
and each column at most `2 ^ 63` bytes are released, the answer is minus their number, and the totals of
the process go down by it. -/
theorem unmap_releases_and_books (config : Config) (calls : List LedgerCall) (id : SpaceId)
    (base : Address) (size : UInt64) (d : Deltas) (v' : Ledger)
    (h : ((create config).run calls).apply (.unmap id base size) = (.ok d, v')) :
    ∃ s s', ((create config).run calls).space? .process = some s ∧ v'.space? .process = some s' ∧
      (∀ x, (s.MappedOnto id base size x → s'.reserved.sideAt x = .released) ∧
        (¬ s.MappedOnto id base size x → s'.reserved.sideAt x = s.reserved.sideAt x)) ∧
      s'.committed = s.committed ∧
      (∀ id', id' ≠ .process → v'.space? id' = ((create config).run calls).space? id') ∧
      ∀ c t, s.unmapped id base size c t ≤ 2 ^ 63 ∧ d.amount c t = -s.unmapped id base size c t ∧
        s'.totals.amount c t + s.unmapped id base size c t = s.totals.amount c t := by
  have hv := charted_run config calls
  obtain ⟨ref, s, s', hop, hact, hs, hs', helsewhere⟩ := acts_of_apply_ok hv.pos h
  have hcovered := covered_run config calls hs
  obtain ⟨hpos, hend⟩ := hop id base size rfl
  obtain ⟨hlone, htotals, hsides, hbooks⟩ := hcovered.unmap_of_eq_ok hpos hend hact
  refine ⟨s, s', hs, hs', hsides, hlone, helsewhere, ?_⟩
  intro c t
  have hsplit := Space.held_add_unmapped hsides c t
  have hheld := hcovered.held_le c t
  have hword : s.totals.amount c t < 2 ^ 64 := UInt64.toNat_lt _
  have hanswer := hbooks.amount c t
  have hfits := d.fits_amount c t
  have hmoved := Totals.amount_apply_clamped hcovered.sorted hbooks.distinct c t
  rw [← htotals] at hmoved
  simp only [Fits] at hfits
  omega

/-- Two ranges mapped onto a device under two tags, longer together than the longest span. -/
def vastCalls (first second : Tag) : List LedgerCall :=
  [.register "device", .operation (.map ⟨1⟩ 0 maxSpan 0 first {}),
    .operation (.map ⟨1⟩ maxSpan 0x1000 0 second {})]

/-- One removal of mappings releases both ranges, and the totals of each tag go down by its range. -/
theorem vast_unmapped : ∃ d v' s s',
    ((create {}).run (vastCalls ⟨1⟩ ⟨2⟩)).apply (.unmap ⟨1⟩ 0 (maxSpan + 0x1000)) = (.ok d, v') ∧
      ((create {}).run (vastCalls ⟨1⟩ ⟨2⟩)).space? .process = some s ∧
      v'.space? .process = some s' ∧
      s.unmapped ⟨1⟩ 0 (maxSpan + 0x1000) .reserved ⟨1⟩ = 2 ^ 63 - 1 ∧
      s.unmapped ⟨1⟩ 0 (maxSpan + 0x1000) .reserved ⟨2⟩ = 0x1000 ∧
      s'.totals.amount .reserved ⟨1⟩ + (2 ^ 63 - 1) = s.totals.amount .reserved ⟨1⟩ ∧
      s'.totals.amount .reserved ⟨2⟩ + 0x1000 = s.totals.amount .reserved ⟨2⟩ := by
  have hanswer : (((create {}).run (vastCalls ⟨1⟩ ⟨2⟩)).apply
      (.unmap ⟨1⟩ 0 (maxSpan + 0x1000))).1.toOption.map
        (fun d => (d.amount .reserved ⟨1⟩, d.amount .reserved ⟨2⟩)) =
        some (-(2 ^ 63 - 1), -0x1000) := by decide +kernel
  have hok : (((create {}).run (vastCalls ⟨1⟩ ⟨2⟩)).apply
      (.unmap ⟨1⟩ 0 (maxSpan + 0x1000))).1.toOption.isSome = true := by decide +kernel
  obtain ⟨d, happly⟩ := exists_apply_eq_ok hok
  obtain ⟨s, s', hs, hs', _, _, _, hbooks⟩ :=
    unmap_releases_and_books {} (vastCalls ⟨1⟩ ⟨2⟩) ⟨1⟩ _ _ d _ happly
  rw [happly] at hanswer
  obtain ⟨hfirst, hsecond⟩ := Prod.mk.inj (Option.some.inj hanswer)
  obtain ⟨_, hnumber, htotals⟩ := hbooks .reserved ⟨1⟩
  obtain ⟨_, hnumber', htotals'⟩ := hbooks .reserved ⟨2⟩
  exact ⟨d, _, s, s', happly, hs, hs', by omega, by omega, by omega, by omega⟩

/-- Under one tag they are more than a signed word can tell, and the program stops. -/
example : (((create {}).run (vastCalls ⟨1⟩ ⟨1⟩)).apply (.unmap ⟨1⟩ 0 (maxSpan + 0x1000))).1 =
    .error (.region (.overflow .add)) := by decide +kernel

end Ledger

end RegionLedger
