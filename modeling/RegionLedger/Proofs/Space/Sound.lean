import RegionLedger.Proofs.Accounting.Running
import RegionLedger.Proofs.Region.Accounting
import RegionLedger.Space.Basic

/-!
# The totals of a space

A space is sound if its maps are, its totals are the byte counts of its maps, and the reservations
of a space with commits of its own hold no committed memory.  Every operation on a sound space either
is refused and leaves it as it is, or returns the exact change of the counts and leaves it sound;
only an operation of several steps can also run out of memory on the way.

* `Space.bytes`, `Space.inUse` — the byte counts, of a tag and over all tags.
* `Space.Sound`, `Space.Answers` — sound spaces, and the answers they give.
* `Space.Sound.account` — booking the exact change.
* `Space.Sound.takeReserved`, `Space.Sound.takeCommitted`, `Space.Sound.takeBoth`,
  `Space.Sound.unmap` — the four forms of an operation.
-/

namespace RegionLedger

namespace Space

/-! ## Byte counts -/

/-- The bytes of a tag: reserved bytes are counted in the reservations, committed bytes where the
commits are kept. -/
noncomputable def bytes (s : Space) (c : Column) (t : Tag) : ℕ :=
  match c, s.committed with
  | .committed, some m => Bytes.held m.sideAt .committed t
  | _, _ => Bytes.held s.reserved.sideAt c t

/-- The bytes over all tags. -/
noncomputable def inUse (s : Space) (c : Column) : ℕ :=
  match c, s.committed with
  | .committed, some m => Bytes.inUse m.sideAt .committed
  | _, _ => Bytes.inUse s.reserved.sideAt c

/-- The boundaries of the larger map. -/
def boundaries (s : Space) : ℕ :=
  match s.committed with
  | none => s.reserved.size
  | some m => max s.reserved.size m.size

/-- The maps are sound, and reservations hold no committed memory if commits are apart. -/
structure Maps (s : Space) : Prop where
  reserved : s.reserved.Represents s.reserved.sideAt
  committed : ∀ m, s.committed = some m → m.Represents m.sideAt
  apart : s.committed ≠ none → ∀ x, (s.reserved.sideAt x).state ≠ .committed

/-- The maps are sound and the totals are their byte counts. -/
structure Sound (s : Space) : Prop extends s.Maps where
  sorted : s.totals.Sorted
  amount : ∀ c t, s.totals.amount c t = s.bytes c t
  committed_le_peak : ∀ t, s.bytes .committed t ≤ (s.totals.get t).peak.toNat

/-- Deltas are the exact change of the counts from one space to another. -/
structure Change (s s' : Space) (d : Deltas) : Prop where
  distinct : d.Distinct
  amount : ∀ c t, d.amount c t = (s'.bytes c t : ℤ) - s.bytes c t

/-- What becomes of a sound space: a refused operation leaves it as it is, another one returns the
exact change and leaves it sound, with the peak kept and with at most two more boundaries. -/
inductive Answers (s : Space) : Except RegionError Deltas × Space → Prop where
  | refused (e : RegionError) : Answers s (.error e, s)
  | done (d : Deltas) (s' : Space) (sound : s'.Sound) (change : s.Change s' d)
      (kind : s'.committed.isSome = s.committed.isSome)
      (peak : ∀ t, (s'.totals.get t).peak.toNat =
        max (s.totals.get t).peak.toNat (s'.bytes .committed t))
      (grown : s'.boundaries ≤ s.boundaries + 2) : Answers s (.ok d, s')

variable {s s' : Space}

lemma Maps.inUse_lt (hs : s.Maps) (c : Column) : s.inUse c < 2 ^ 64 := by
  unfold inUse
  split
  · next m hm => exact Bytes.inUse_lt (hs.committed m hm).last_released _
  · exact Bytes.inUse_lt hs.reserved.last_released _

lemma bytes_le_inUse (s : Space) (c : Column) (t : Tag) : s.bytes c t ≤ s.inUse c := by
  unfold inUse bytes
  split <;> exact Bytes.held_le_inUse _ _ _

/-! ## Booking a change -/

/-- **The totals stay exact when the exact change is booked.** -/
theorem Sound.account (hs : s.Sound) (hmaps : s'.Maps) (htotals : s'.totals = s.totals) {d : Deltas}
    (hd : s.Change s' d) :
    (s'.account d).Sound ∧ ∀ t, ((s'.account d).totals.get t).peak.toNat =
      max (s.totals.get t).peak.toNat ((s'.account d).bytes .committed t) := by
  have hbytes : ∀ c t, (s'.account d).bytes c t = s'.bytes c t := fun _ _ => rfl
  have hsum : ∀ c t, (s.totals.amount c t : ℤ) + d.amount c t = s'.bytes c t := by
    intro c t
    rw [hs.amount, hd.amount]
    omega
  have hamount : ∀ c t, (s'.account d).totals.amount c t = s'.bytes c t := by
    intro c t
    have hword : ∀ c, 0 ≤ s.totals.amount c t + d.amount c t ∧
        s.totals.amount c t + d.amount c t < 2 ^ 64 := by
      intro c
      have hle := s'.bytes_le_inUse c t
      have hlt := hmaps.inUse_lt c
      rw [hsum]
      omega
    have happly := Totals.amount_apply hs.sorted hd.distinct hword c
    rw [hsum] at happly
    rw [Space.account, htotals]
    exact_mod_cast happly
  have hpeak : ∀ t, ((s'.account d).totals.get t).peak.toNat =
      max (s.totals.get t).peak.toNat (s'.bytes .committed t) := by
    intro t
    have happly := Totals.peak_apply hs.sorted hd.distinct (t := t) (by
      rw [hs.amount]
      exact hs.committed_le_peak t)
    rw [← hamount, Space.account, htotals]
    exact happly
  refine ⟨⟨⟨hmaps.reserved, hmaps.committed, hmaps.apart⟩, ?_, hamount, ?_⟩, hpeak⟩
  · rw [Space.account, htotals]
    exact hs.sorted.apply hd.distinct
  · intro t
    rw [hpeak, hbytes]
    exact le_max_right _ _

/-! ## The forms of an operation -/

variable {d e : Deltas}

/-- Changes one after the other have a sum, if the whole change fits. -/
lemma Change.exists_plus {s₁ s₂ : Space} (hd : s.Change s₁ d) (he : s₁.Change s₂ e)
    (h : ∀ c t, Fits (d.amount c t + e.amount c t)) :
    ∃ sum, d.plus e = .ok sum ∧ s.Change s₂ sum := by
  obtain ⟨sum, hsum⟩ := Deltas.exists_plus he.distinct h
  refine ⟨sum, hsum, hd.distinct.plus hsum, ?_⟩
  intro c t
  rw [Deltas.amount_of_plus he.distinct hsum, hd.amount, he.amount]
  omega

/-- If the commits are kept apart, the reservations change no committed bytes, and the commits
nothing else. -/
lemma Change.fits_both {m : RegionMap Placement} (hd : s.Change { s with reserved := m } d)
    (hcommitted : s.committed ≠ none) (he : e.Distinct) (c : Column) (t : Tag) :
    Fits (d.amount c t + e.commitOnly.amount c t) := by
  rw [Deltas.amount_commitOnly he]
  cases c with
  | reserved =>
      simp only [reduceCtorEq, if_false, Int.add_zero]
      exact Deltas.fits_amount d .reserved t
  | committed =>
      obtain ⟨m', hm'⟩ := Option.ne_none_iff_exists'.mp hcommitted
      have hzero : d.amount .committed t = 0 := by
        rw [hd.amount]
        simp [bytes, hm']
      simp only [if_true, hzero, Int.zero_add]
      exact Deltas.fits_amount e .committed t

/-- Another map of the reservations. -/
lemma Maps.change_reserved (hs : s.Maps) {m : RegionMap Placement} (hm : m.Represents m.sideAt)
    (hapart : s.committed ≠ none → ∀ x, (m.sideAt x).state ≠ .committed)
    (hd : d.Books s.reserved.sideAt m.sideAt) :
    Maps { s with reserved := m } ∧ s.Change { s with reserved := m } d := by
  refine ⟨⟨hm, hs.committed, hapart⟩, hd.distinct, ?_⟩
  intro c t
  rw [hd.amount]
  unfold bytes
  cases hcommitted : s.committed with
  | none => simp only
  | some m' =>
      have hsome : s.committed ≠ none := by simp [hcommitted]
      cases c with
      | reserved => rfl
      | committed =>
          rw [Bytes.held_committed_eq_zero (hapart hsome),
            Bytes.held_committed_eq_zero (hs.apart hsome)]
          simp

/-- Another map of the commits. -/
lemma Maps.change_committed (hs : s.Maps) {m m' : RegionMap Attribution}
    (hcommitted : s.committed = some m) (hm : m'.Represents m'.sideAt)
    (hd : d.Books m.sideAt m'.sideAt) :
    Maps { s with committed := some m' } ∧
      s.Change { s with committed := some m' } d.commitOnly := by
  refine ⟨⟨hs.reserved, ?_, ?_⟩, Deltas.distinct_commitOnly hd.distinct, ?_⟩
  · intro m₁ h₁
    exact Option.some.inj h₁ ▸ hm
  · intro _
    refine hs.apart ?_
    simp [hcommitted]
  · intro c t
    rw [Deltas.amount_commitOnly hd.distinct]
    unfold bytes
    cases c with
    | reserved => simp
    | committed =>
        simp only [hcommitted, if_true]
        exact hd.amount .committed t

lemma Maps.apply_reserved (hs : s.Maps) {c : Mutation Placement}
    (hc : s.committed = none ∨ c.commits = false) {m : RegionMap Placement}
    (hok : c.apply s.reserved = .ok (d, m)) :
    c.Valid ∧ Maps { s with reserved := m } ∧ s.Change { s with reserved := m } d := by
  obtain ⟨hvalid, hm, hsides, hbooks⟩ := hs.reserved.apply_writes hok
  refine ⟨hvalid, hs.change_reserved hm ?_ hbooks⟩
  intro hsome
  rw [hsides]
  exact Mutation.write_state_ne_committed (hc.resolve_left hsome) (hs.apart hsome)

lemma boundaries_reserved_le {m : RegionMap Placement} (h : m.size ≤ s.reserved.size + 2) :
    boundaries { s with reserved := m } ≤ s.boundaries + 2 := by
  unfold boundaries
  cases s.committed with
  | none => exact h
  | some m₁ => simp only; omega

lemma reserved_size_le (s : Space) : s.reserved.size ≤ s.boundaries := by
  rw [boundaries]
  cases s.committed with
  | none => exact le_refl _
  | some m₁ => exact le_max_left _ _

lemma committed_size_le {m : RegionMap Attribution} (h : s.committed = some m) :
    m.size ≤ s.boundaries := by
  simp only [boundaries, h]
  exact le_max_right _ _

/-- Booking the change of the maps. -/
lemma Sound.done (hs : s.Sound) (hmaps : s'.Maps) (htotals : s'.totals = s.totals)
    (hkind : s'.committed.isSome = s.committed.isSome) (hd : s.Change s' d)
    (hgrown : s'.boundaries ≤ s.boundaries + 2) : s.Answers (.ok d, s'.account d) := by
  obtain ⟨hsound, hpeak⟩ := hs.account hmaps htotals hd
  exact .done d _ hsound ⟨hd.distinct, hd.amount⟩ hkind hpeak hgrown

/-- **An operation on the reservations.** -/
theorem Sound.takeReserved (hs : s.Sound) {c : Mutation Placement}
    (hc : s.committed = none ∨ c.commits = false) :
    s.Answers (s.takeReserved (c.apply s.reserved)) := by
  cases happly : c.apply s.reserved with
  | error e => exact .refused e
  | ok answer =>
      obtain ⟨d, m⟩ := answer
      obtain ⟨_, hmaps, hchange⟩ := hs.apply_reserved hc happly
      exact hs.done hmaps rfl rfl hchange
        (boundaries_reserved_le (hs.reserved.size_le_of_apply happly))

/-- **An operation on the commits.** -/
theorem Sound.takeCommitted (hs : s.Sound) {m : RegionMap Attribution}
    (hcommitted : s.committed = some m) (c : Mutation Attribution) :
    s.Answers (s.takeCommitted (c.apply m)) := by
  cases happly : c.apply m with
  | error e => exact .refused e
  | ok answer =>
      obtain ⟨d, m'⟩ := answer
      obtain ⟨_, hm', _, hbooks⟩ := (hs.committed m hcommitted).apply_writes happly
      obtain ⟨hmaps, hchange⟩ := hs.change_committed hcommitted hm' hbooks
      refine hs.done hmaps rfl (by simp [hcommitted]) hchange ?_
      have hgrown := (hs.committed m hcommitted).size_le_of_apply happly
      simp only [boundaries, hcommitted]
      omega

section TakeBoth

variable {m : RegionMap Placement} {m₁ m₂ : RegionMap Attribution}
  {f : RegionMap Attribution → Except RegionError (Deltas × RegionMap Attribution)}

lemma takeBoth_of_none (h : s.committed = none) :
    s.takeBoth (.ok (d, m)) f = (.ok d, account { s with reserved := m } d) := by
  cases s
  cases h
  rfl

lemma takeBoth_of_error {e : RegionError} (h : s.committed = some m₁) (hf : f m₁ = .error e) :
    s.takeBoth (.ok (d, m)) f = (.error e, { s with reserved := m }) := by
  cases s
  cases h
  rw [takeBoth]
  simp only [hf]

lemma takeBoth_of_ok {sum : Deltas} (h : s.committed = some m₁) (hf : f m₁ = .ok (e, m₂))
    (hsum : d.plus e.commitOnly = .ok sum) : s.takeBoth (.ok (d, m)) f =
      (.ok sum, account { s with reserved := m, committed := some m₂ } sum) := by
  cases s
  cases h
  rw [takeBoth]
  simp only [hf, hsum]

lemma takeBoth_of_overflow {o : Overflow} (h : s.committed = some m₁) (hf : f m₁ = .ok (e, m₂))
    (hsum : d.plus e.commitOnly = .error o) : s.takeBoth (.ok (d, m)) f =
      (.error (.overflow o), { s with reserved := m, committed := some m₂ }) := by
  cases s
  cases h
  rw [takeBoth]
  simp only [hf, hsum]

end TakeBoth

/-- **An operation on both maps.**  The second step can only fail for want of memory, since the range
of the first was valid. -/
theorem Sound.takeBoth (hs : s.Sound) (c : Mutation Placement) (c' : Mutation Attribution)
    (hc : c.commits = false) (hvalid : c.Valid → c'.Valid) :
    s.Answers (s.takeBoth (c.apply s.reserved) (c'.apply ·)) ∨
      (s.takeBoth (c.apply s.reserved) (c'.apply ·)).1 = .error (.outOfMemory .outOfSlots) ∧
        Slots.limit < s.boundaries + 2 := by
  cases happly : c.apply s.reserved with
  | error e => exact .inl (.refused e)
  | ok answer =>
      obtain ⟨d, m⟩ := answer
      obtain ⟨hvalid₁, hmaps, hchange⟩ := hs.apply_reserved (.inr hc) happly
      have hgrown := hs.reserved.size_le_of_apply happly
      cases hcommitted : s.committed with
      | none =>
          rw [takeBoth_of_none hcommitted]
          exact .inl (hs.done hmaps rfl rfl hchange (boundaries_reserved_le hgrown))
      | some m₁ =>
          have hm₁ := hs.committed m₁ hcommitted
          cases happly' : c'.apply m₁ with
          | error e =>
              rw [takeBoth_of_error hcommitted happly']
              rcases hm₁.apply_cases c' with ⟨hinvalid, _⟩ | ⟨_, _, _, _, _, _, _, hok, _⟩ |
                ⟨_, hfull, hlimit⟩
              · exact absurd (hvalid hvalid₁) hinvalid
              · rw [hok] at happly'
                cases happly'
              · rw [hfull, Except.error.injEq] at happly'
                have hle := committed_size_le hcommitted
                exact .inr ⟨congrArg Except.error happly'.symm, by omega⟩
          | ok answer =>
              obtain ⟨e, m₂⟩ := answer
              obtain ⟨_, hm₂, _, hbooks⟩ := hm₁.apply_writes happly'
              obtain ⟨hmaps', hchange'⟩ := hmaps.change_committed hcommitted hm₂ hbooks
              obtain ⟨sum, hsum, hboth⟩ := hchange.exists_plus hchange'
                (hchange.fits_both (by simp [hcommitted]) hbooks.distinct)
              have hgrown' := hm₁.size_le_of_apply happly'
              rw [takeBoth_of_ok hcommitted happly' hsum]
              refine .inl (hs.done hmaps' rfl (by simp [hcommitted]) hboth ?_)
              simp only [boundaries, hcommitted]
              omega

/-! ## The operations -/

variable (start : Address) (size : UInt64)

lemma Sound.reserve (hs : s.Sound) (data : Placement) : s.Answers (s.reserve start size data) :=
  hs.takeReserved (c := .reserve start size data) (.inr rfl)

lemma Sound.commit (hs : s.Sound) (stack : StackRef) (tag : Tag) :
    s.Answers (s.commit start size stack tag) := by
  rw [Space.commit]
  cases hcommitted : s.committed with
  | none => exact hs.takeReserved (c := .commit start size { stack, tag } .adopt) (.inl hcommitted)
  | some m => exact hs.takeCommitted hcommitted (.commit start size { stack, tag } .replace)

lemma Sound.uncommit (hs : s.Sound) (stack : StackRef) :
    s.Answers (s.uncommit start size stack) := by
  rw [Space.uncommit]
  cases hcommitted : s.committed with
  | none => exact hs.takeReserved (c := .uncommit start size { stack }) (.inr rfl)
  | some m => exact hs.takeCommitted hcommitted (.release start size)

lemma Sound.release (hs : s.Sound) : s.Answers (s.release start size) ∨
    (s.release start size).1 = .error (.outOfMemory .outOfSlots) ∧
      Slots.limit < s.boundaries + 2 :=
  hs.takeBoth (.release start size) (.release start size) rfl id

lemma Sound.retag (hs : s.Sound) (tag : Tag) : s.Answers (s.retag start size tag) ∨
    (s.retag start size tag).1 = .error (.outOfMemory .outOfSlots) ∧
      Slots.limit < s.boundaries + 2 :=
  hs.takeBoth (.retag start size tag) (.retag start size tag) rfl id

/-! ## Releasing mapped runs -/

/-- **A run is released** by writing over it, unless it is too long or no slot is left. -/
lemma release_run_cases {m : RegionMap Placement} {g : Bytes Placement} (h : m.Represents g)
    {r : Run Placement} (hlt : r.start < r.stop) :
    (maxSpan < r.size ∧ m.release r.start r.size = .error (.invalidRange r.start r.size)) ∨
    (∃ d m', m.release r.start r.size = .ok (d, m') ∧
      m'.Represents (g.overwrite r.start r.stop .released) ∧
      d.Books g (g.overwrite r.start r.stop .released)) ∨
    m.release r.start r.size = .error (.outOfMemory .outOfSlots) ∧ Slots.limit < m.size + 2 := by
  have happly : m.release r.start r.size = (Mutation.release r.start r.size).apply m := rfl
  have hsize : r.size.toNat = r.stop.toNat - r.start.toNat :=
    UInt64.toNat_sub_of_le _ _ (UInt64.le_of_lt hlt)
  have hstop := r.stop.toNat_lt
  rw [UInt64.lt_iff_toNat_lt] at hlt
  rw [happly]
  rcases h.apply_cases (.release r.start r.size) with ⟨hinvalid, herror⟩ |
    ⟨b, d, m', _, hb, _, _, hok, h'⟩ | ⟨_, hfull⟩
  · -- a run is never empty and ends at an address, so only its length can be refused
    refine .inl ⟨?_, herror⟩
    rw [UInt64.lt_iff_toNat_lt]
    simp only [Mutation.Valid, Mutation.first, Mutation.stop, Mutation.size] at hinvalid
    simp only [maxSpan, UInt64.reduceToNat]
    omega
  · have hb' : b = r.stop := by
      rw [← UInt64.toNat_inj, hb]
      simp only [Mutation.stop, Mutation.first, Mutation.size]
      omega
    rw [hb'] at h'
    have hwritten : m'.Represents (g.overwrite r.start r.stop .released) := h'
    obtain ⟨_, _, _, hbooks⟩ := h.apply_writes hok
    exact .inr (.inl ⟨d, m', hok, hwritten, funext hwritten.sideAt_eq ▸ hbooks⟩)
  · exact .inr (.inr hfull)

/-- **Runs released one after the other.**  The sum is the change from the bytes `f` that there were
at first.  The addresses in `keys` make up for all boundaries on the way; only if two more do not fit
memory can run out. -/
lemma releaseEach_books {m : RegionMap Placement} {f : Bytes Placement} {a b : Address}
    (hm : m.Represents m.sideAt) {runs : List (Run Placement)}
    (hruns : ∀ r ∈ runs, a ≤ r.start ∧ r.start < r.stop ∧ r.stop ≤ b)
    (hlen : b.toNat - a.toNat ≤ 2 ^ 63 - 1) (hout : ∀ x, ¬ (a ≤ x ∧ x < b) → m.sideAt x = f x)
    {sum : Deltas} (hsum : sum.Books f m.sideAt) {keys : Finset Address} (hkeys : m.keys ⊆ keys)
    (hends : ∀ r ∈ runs, r.start ∈ keys ∧ r.stop ∈ keys) :
    (∃ d m', releaseEach m sum runs = (.ok d, m') ∧ m'.Represents m'.sideAt ∧
      d.Books f m'.sideAt ∧ m'.keys ⊆ keys) ∨
    (releaseEach m sum runs).1 = .error (.outOfMemory .outOfSlots) ∧
      Slots.limit < keys.card + 2 := by
  induction runs generalizing m sum with
  | nil => exact .inl ⟨sum, m, rfl, hm, hsum, hkeys⟩
  | cons r rest ih =>
      obtain ⟨ha, hlt, hb⟩ := hruns r List.mem_cons_self
      rw [releaseEach]
      rcases release_run_cases hm hlt with ⟨hlong, _⟩ | ⟨d, m', hok, hover, hbooks⟩ |
        ⟨hfull, hlimit⟩
      · have hsize : r.size.toNat = r.stop.toNat - r.start.toNat :=
          UInt64.toNat_sub_of_le _ _ (UInt64.le_of_lt hlt)
        rw [UInt64.lt_iff_toNat_lt] at hlong
        rw [UInt64.le_iff_toNat_le] at ha hb
        simp only [maxSpan, UInt64.reduceToNat] at hlong
        omega
      · have hout' : ∀ x, ¬ (a ≤ x ∧ x < b) → m'.sideAt x = f x := by
          intro x hx
          rw [hover.sideAt_eq, Bytes.overwrite_of_not_mem (by grind), hout x hx]
        have hkeys' : m'.keys ⊆ keys := by
          refine (hm.keys_subset hover hlt).trans (Finset.union_subset hkeys ?_)
          have hr := hends r List.mem_cons_self
          simp only [Finset.insert_subset_iff, Finset.singleton_subset_iff]
          exact hr
        rw [← funext hover.sideAt_eq] at hbooks
        obtain ⟨sum', hplus, hsum'⟩ := hsum.exists_plus hbooks (RegionMap.fits_held_sub hlen hout')
        simp only [hok, hplus]
        refine ih hover.sideAt ?_ hout' hsum' hkeys' ?_
        · intro r hr
          exact hruns r (List.mem_cons_of_mem _ hr)
        · intro r hr
          exact hends r (List.mem_cons_of_mem _ hr)
      · have hcard := Finset.card_le_card hkeys
        rw [RegionMap.card_keys hm.wellFormed] at hcard
        rw [hfull]
        exact .inr ⟨rfl, by omega⟩

/-- The runs of a range that are mapped onto a space. -/
def mapped (s : Space) (target : SpaceId) (first last : Address) : List (Run Placement) :=
  (s.reserved.runsIn first last).filter fun r =>
    r.side.data.mapping.map (·.space) = some target

lemma unmap_of_ok {target : SpaceId} {first last : Address} {m : RegionMap Placement}
    (h : releaseEach s.reserved ∅ (s.mapped target first last) = (.ok d, m)) :
    s.unmap target first last = (.ok d, account { s with reserved := m } d) := by
  unfold mapped at h
  simp only [Space.unmap, h]

lemma unmap_of_error {target : SpaceId} {first last : Address} {e : RegionError}
    {m : RegionMap Placement}
    (h : releaseEach s.reserved ∅ (s.mapped target first last) = (.error e, m)) :
    s.unmap target first last = (.error e, { s with reserved := m }) := by
  unfold mapped at h
  simp only [Space.unmap, h]

/-- The mapped runs of a range are released one after the other.  Only the ends of the range are new
boundaries on the way. -/
lemma Maps.releaseEach_mapped (hs : s.Maps) (target : SpaceId) {first last : Address}
    (hlt : first < last) (hlen : last - first ≤ maxSpan) :
    (∃ d m, releaseEach s.reserved ∅ (s.mapped target first last) = (.ok d, m) ∧
      m.Represents m.sideAt ∧ d.Books s.reserved.sideAt m.sideAt ∧ m.size ≤ s.reserved.size + 2) ∨
    (releaseEach s.reserved ∅ (s.mapped target first last)).1 = .error (.outOfMemory .outOfSlots) ∧
      Slots.limit < s.reserved.size + 4 := by
  have hspan : last.toNat - first.toNat ≤ 2 ^ 63 - 1 := by
    rw [← UInt64.toNat_sub_of_le _ _ (UInt64.le_of_lt hlt)]
    exact UInt64.le_iff_toNat_le.mp hlen
  have hruns : ∀ r ∈ s.mapped target first last,
      (first ≤ r.start ∧ r.start < r.stop ∧ r.stop ≤ last) ∧
        r.start ∈ s.reserved.keys ∪ {first, last} ∧ r.stop ∈ s.reserved.keys ∪ {first, last} := by
    intro r hr
    have hmem := (List.mem_filter.mp (List.mem_filter.mp hr).1).1
    obtain ⟨hin, _, hstart, hstop⟩ := (hs.reserved.tiles_segments hlt).mem hmem
    simp only [Finset.mem_union, hs.reserved.mem_keys_iff, Finset.mem_insert,
      Finset.mem_singleton]
    refine ⟨hin, ?_, ?_⟩
    · rcases hstart with hstart | hstart
      · exact .inr (.inl hstart)
      · exact .inl hstart
    · rcases hstop with hstop | hstop
      · exact .inr (.inr hstop)
      · exact .inl hstop
  have hcard := RegionMap.card_union_pair_le hs.reserved.wellFormed first last
  rcases releaseEach_books hs.reserved (fun r hr => (hruns r hr).1) hspan (fun _ _ => rfl)
    (Deltas.books_empty _) Finset.subset_union_left fun r hr => (hruns r hr).2 with
    ⟨d, m, hok, hm, hbooks, hkeys⟩ | ⟨hfull, hlimit⟩
  · refine .inl ⟨d, m, hok, hm, hbooks, ?_⟩
    rw [← RegionMap.card_keys hm.wellFormed]
    exact (Finset.card_le_card hkeys).trans hcard
  · exact .inr ⟨hfull, by omega⟩

/-- **Releasing the mapped parts of a range of the process.** -/
theorem Sound.unmap (hs : s.Sound) (hcommitted : s.committed = none) (target : SpaceId)
    {first last : Address} (hlt : first < last) (hlen : last - first ≤ maxSpan) :
    s.Answers (s.unmap target first last) ∨
      (s.unmap target first last).1 = .error (.outOfMemory .outOfSlots) ∧
        Slots.limit < s.boundaries + 4 := by
  rcases hs.releaseEach_mapped target hlt hlen with ⟨d, m, hok, hm, hbooks, hgrown⟩ | ⟨hfull, hlimit⟩
  · obtain ⟨hmaps, hchange⟩ := hs.change_reserved hm (fun h => absurd hcommitted h) hbooks
    rw [unmap_of_ok hok]
    exact .inl (hs.done hmaps rfl rfl hchange (boundaries_reserved_le hgrown))
  · have hle := s.reserved_size_le
    exact .inr ⟨congrArg Prod.fst (unmap_of_error (Prod.ext hfull rfl)), by omega⟩

/-! ## All tags -/

/-- The totals are the byte counts of the maps, those of each tag and those over all tags; the
counters add up to the latter within the words. -/
structure TotalsExact (s : Space) : Prop where
  reserved : ∀ t, (s.totals.get t).reserved.toNat = s.bytes .reserved t
  committed : ∀ t, (s.totals.get t).committed.toNat = s.bytes .committed t
  all_reserved : ∃ n, s.totals.reserved = .ok n ∧ n.toNat = s.inUse .reserved
  all_committed : ∃ n, s.totals.committed = .ok n ∧ n.toNat = s.inUse .committed
  sum_eq : ∀ c, s.totals.sum c = s.inUse c
  sum_lt : ∀ c, s.totals.sum c < 2 ^ 64

/-- The bytes of different tags add up, if no other tag has any. -/
lemma sum_bytes (s : Space) {c : Column} {tags : List Tag} (hnodup : tags.Nodup)
    (hrest : ∀ t, t ∉ tags → s.bytes c t = 0) : (tags.map (s.bytes c)).sum = s.inUse c := by
  have hall : ∀ {μ : Type} [Metadata μ] (f : Bytes μ), s.bytes c = f.held c →
      s.inUse c = f.inUse c → (tags.map (s.bytes c)).sum = s.inUse c := by
    intro μ _ f hbytes huse
    rw [hbytes] at hrest ⊢
    rw [Bytes.sum_held hnodup hrest, huse]
  cases hcommitted : s.committed with
  | none =>
      refine hall s.reserved.sideAt ?_ ?_
      · funext t
        simp only [bytes, hcommitted]
      · simp only [inUse, hcommitted]
  | some m =>
      cases c with
      | reserved => exact hall s.reserved.sideAt rfl rfl
      | committed =>
          refine hall m.sideAt ?_ ?_
          · funext t
            simp only [bytes, hcommitted]
          · simp only [inUse, hcommitted]

/-- **The totals of a sound space add up to the bytes in use.**  A tag without an entry has no
bytes. -/
theorem Sound.sum_eq_inUse (hs : s.Sound) (c : Column) : s.totals.sum c = s.inUse c := by
  have hnodup : (s.totals.entries.map Prod.fst).Nodup := by
    refine List.pairwise_map.mpr (hs.sorted.imp ?_)
    intro p q hlt heq
    exact UInt16.lt_irrefl _ (heq ▸ hlt)
  have hrest : ∀ t, t ∉ s.totals.entries.map Prod.fst → s.bytes c t = 0 := by
    intro t ht
    have hget : s.totals.get t = {} := by
      refine Totals.lookup_of_forall_ne ?_
      intro p hp heq
      exact ht (heq ▸ List.mem_map_of_mem hp)
    rw [← hs.amount, Totals.amount, hget]
    cases c <;> rfl
  rw [← s.sum_bytes hnodup hrest, List.map_map, Totals.sum]
  refine congrArg List.sum (List.map_congr_left ?_)
  intro p hp
  rw [Function.comp_apply, ← hs.amount, Totals.amount, hs.sorted.get_of_mem hp]

lemma Sound.totalsExact (hs : s.Sound) : s.TotalsExact := by
  have hlt : ∀ c, s.totals.sum c < 2 ^ 64 := by
    intro c
    rw [hs.sum_eq_inUse]
    exact hs.inUse_lt c
  have htotal : ∀ c, ∃ n, s.totals.total c = .ok n ∧ n.toNat = s.inUse c := by
    intro c
    rw [← hs.sum_eq_inUse]
    exact Totals.exists_total (hlt c)
  exact ⟨hs.amount .reserved, hs.amount .committed, htotal .reserved, htotal .committed,
    hs.sum_eq_inUse, hlt⟩

/-! ## New spaces -/

lemma bytes_create (id : SpaceId) (name : String) (seed : UInt64) (c : Column) (t : Tag) :
    (create id name seed).bytes c t = 0 := by
  have hzero : ∀ {μ : Type} [Metadata μ] (draws : Draws),
      Bytes.held (RegionMap.empty draws : RegionMap μ).sideAt c t = 0 := by
    intro μ _ draws
    rw [funext (RegionMap.represents_empty draws).sideAt_eq, Bytes.held_untouched]
  unfold bytes create
  split
  · next m hm =>
      split_ifs at hm
      cases hm
      exact hzero _
  · exact hzero _

lemma boundaries_create (id : SpaceId) (name : String) (seed : UInt64) :
    (create id name seed).boundaries = 0 := by
  rw [boundaries, create]
  split
  · rfl
  · next m hm =>
      split_ifs at hm
      cases hm
      rfl

/-- **A new space is sound.** -/
theorem sound_create (id : SpaceId) (name : String) (seed : UInt64) :
    (create id name seed).Sound where
  reserved := (RegionMap.represents_empty _).sideAt
  committed m hm := by
    simp only [create] at hm
    split_ifs at hm
    cases hm
    exact (RegionMap.represents_empty _).sideAt
  apart _ x := by
    simp only [create]
    rw [(RegionMap.represents_empty _).sideAt_eq]
    exact State.noConfusion
  sorted := List.Pairwise.nil
  amount c t := by
    rw [bytes_create]
    cases c <;> rfl
  committed_le_peak t := by
    rw [bytes_create]
    exact Nat.zero_le _

end Space

end RegionLedger
