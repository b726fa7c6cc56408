import RegionLedger.Proofs.Space.Coarsening
import RegionLedger.Proofs.Space.Footprints

/-!
# What an operation moves

An operation on a range of at most the longest span has one of three outcomes.  The slots run out; or
the range is not valid, and the operation is refused with the range named and nothing changed; or it
is carried out: the bytes are written, the answer is the exact change of the counts, and the totals
are moved by it.  Whether the range is valid does not depend on the space.

Nothing is said of the totals before, so this holds of spaces whose totals have come apart from their
maps.

* `Space.Moves` — the second and the third outcome.
* `Space.Maps.act_moves` — there is no other.
-/

namespace RegionLedger

namespace Space

/-- What becomes of a space: a refused operation names its range and changes nothing, and one that is
carried out writes its bytes, returns the exact change and books it. -/
inductive Moves (s : Space) (op : Operation) (ref : StackRef) :
    Except RegionError Deltas × Space → Prop where
  | refused (invalid : ¬ op.RangeValid) :
      Moves s op ref (.error (.invalidRange op.start op.size), s)
  | done (d : Deltas) (s' : Space) (valid : op.RangeValid) (maps : s'.Maps) (name : s'.name = s.name)
      (kind : s'.committed.isSome = s.committed.isSome)
      (reserved : s'.reserved.sideAt =
        op.reservedWrite ref s.committed.isSome s.reserved.sideAt)
      (committed : ∀ m', s'.committed = some m' → ∃ m, s.committed = some m ∧
        m'.sideAt = op.committedWrite ref m.sideAt)
      (change : s.Change s' d) (totals : s'.totals = s.totals.apply d) : Moves s op ref (.ok d, s')

variable {s : Space} {op : Operation} {ref : StackRef}

/-- A mutation of the range of the operation, which checks it. -/
structure Checks {μ : Type} [Metadata μ] (op : Operation) (c : Mutation μ) : Prop where
  valid : c.Valid ↔ op.RangeValid
  first : c.first = op.start
  size : c.size = op.size

variable {m : RegionMap Attribution} {c : Mutation Placement} {k : Mutation Attribution}

/-- **An operation on the reservations.** -/
lemma Maps.moves_takeReserved (hs : s.Maps) (hchecks : Checks op c)
    (hc : s.committed = none ∨ c.commits = false)
    (hwrite : op.reservedWrite ref s.committed.isSome = c.write)
    (hkeep : ∀ m, s.committed = some m → op.committedWrite ref m.sideAt = m.sideAt) :
    s.Starves (s.takeReserved (c.apply s.reserved)) ∨
      s.Moves op ref (s.takeReserved (c.apply s.reserved)) := by
  rcases hs.reserved.apply_cases c with ⟨hinvalid, happly⟩ | ⟨_, d, m, _, _, _, _, happly, _⟩ |
    ⟨_, happly, hlimit⟩
  · rw [happly, hchecks.first, hchecks.size]
    exact .inr (.refused (fun h => hinvalid (hchecks.valid.mpr h)))
  · obtain ⟨hvalid, hmaps, hchange⟩ := hs.apply_reserved hc happly
    obtain ⟨_, _, hsides, _⟩ := hs.reserved.apply_writes happly
    rw [happly]
    refine .inr (.done d _ (hchecks.valid.mp hvalid) (hmaps.account d) rfl rfl
      (by rw [hwrite]; exact hsides) ?_ ⟨hchange.distinct, hchange.amount⟩ rfl)
    intro m' hm'
    exact ⟨m', hm', (hkeep m' hm').symm⟩
  · exact .inl (starves_takeReserved ⟨happly, hlimit⟩)

/-- **An operation on the commits.** -/
lemma Maps.moves_takeCommitted (hs : s.Maps) (hcommitted : s.committed = some m)
    (hchecks : Checks op k) (hwrite : op.committedWrite ref = k.write)
    (hkeep : op.reservedWrite ref true s.reserved.sideAt = s.reserved.sideAt) :
    s.Starves (s.takeCommitted (k.apply m)) ∨ s.Moves op ref (s.takeCommitted (k.apply m)) := by
  have hsome : s.committed.isSome = true := by rw [hcommitted]; rfl
  have hm := hs.committed m hcommitted
  rcases hm.apply_cases k with ⟨hinvalid, happly⟩ | ⟨_, d, m', _, _, _, _, happly, _⟩ |
    ⟨_, happly, hlimit⟩
  · rw [happly, hchecks.first, hchecks.size]
    exact .inr (.refused (fun h => hinvalid (hchecks.valid.mpr h)))
  · obtain ⟨hvalid, hm', hsides, hbooks⟩ := hm.apply_writes happly
    obtain ⟨hmaps, hchange⟩ := hs.change_committed hcommitted hm' hbooks
    rw [happly]
    refine .inr (.done _ _ (hchecks.valid.mp hvalid) (hmaps.account _) rfl hsome.symm
      (by rw [hsome, hkeep]; rfl) ?_ ⟨hchange.distinct, hchange.amount⟩ rfl)
    rintro _ ⟨⟩
    exact ⟨m, hcommitted, by rw [hwrite, hsides]⟩
  · exact .inl (starves_takeCommitted hcommitted ⟨happly, hlimit⟩)

/-- **An operation on both maps.**  The reservations change no committed bytes of a space that keeps
its commits apart, so the sum of both changes fits. -/
lemma Maps.moves_takeBoth (hs : s.Maps) (hchecks : Checks op c) (hchecks' : Checks op k)
    (hc : c.commits = false) (hwrite : op.reservedWrite ref s.committed.isSome = c.write)
    (hwrite' : op.committedWrite ref = k.write) :
    s.Starves (s.takeBoth (c.apply s.reserved) (k.apply ·)) ∨
      s.Moves op ref (s.takeBoth (c.apply s.reserved) (k.apply ·)) := by
  rcases hs.reserved.apply_cases c with ⟨hinvalid, happly⟩ | ⟨_, d, m₁, _, _, _, _, happly, _⟩ |
    ⟨_, happly, hlimit⟩
  · rw [happly, hchecks.first, hchecks.size]
    exact .inr (.refused (fun h => hinvalid (hchecks.valid.mpr h)))
  · obtain ⟨hvalid, hmaps, hchange⟩ := hs.apply_reserved (.inr hc) happly
    obtain ⟨_, _, hsides, _⟩ := hs.reserved.apply_writes happly
    have hrange := hchecks.valid.mp hvalid
    rw [happly]
    cases hcommitted : s.committed with
    | none =>
        rw [takeBoth_of_none hcommitted]
        refine .inr (.done d _ hrange (hmaps.account d) rfl rfl (by rw [hwrite]; exact hsides) ?_
          ⟨hchange.distinct, hchange.amount⟩ rfl)
        intro m' hm'
        rw [show s.committed = some m' from hm'] at hcommitted
        cases hcommitted
    | some m =>
        have hm := hs.committed m hcommitted
        rcases hm.apply_cases k with ⟨hinvalid, _⟩ | ⟨_, e, m', _, _, _, _, happly', _⟩ |
          ⟨_, happly', hlimit⟩
        · exact absurd (hchecks'.valid.mpr hrange) hinvalid
        · obtain ⟨_, hm', hsides', hbooks⟩ := hm.apply_writes happly'
          obtain ⟨hmaps', hchange'⟩ := hmaps.change_committed hcommitted hm' hbooks
          have hkind : (some m').isSome = s.committed.isSome := by rw [hcommitted]; rfl
          obtain ⟨sum, hplus, hsum⟩ := hchange.exists_plus hchange'
            (hchange.fits_both (by simp [hcommitted]) hbooks.distinct)
          rw [takeBoth_of_ok hcommitted happly' hplus]
          refine .inr (.done _ _ hrange (hmaps'.account _) rfl hkind
            (by rw [hwrite]; exact hsides) ?_ ⟨hsum.distinct, hsum.amount⟩ rfl)
          rintro _ ⟨⟩
          exact ⟨m, hcommitted, by rw [hwrite', hsides']⟩
        · exact .inl (starves_takeBoth_of_ok hcommitted ⟨happly', hlimit⟩ d m₁)
  · exact .inl (starves_takeBoth ⟨happly, hlimit⟩ _)

/-- **A removal of mappings** comes to no run that is too long, if its range is not. -/
lemma Maps.moves_unmap (hs : s.Maps) (id : SpaceId) {base : Address} {size : UInt64}
    (hpos : 0 < size.toNat) (hend : base.toNat + size.toNat < 2 ^ 64) (hlen : size ≤ maxSpan)
    (hcommitted : s.committed = none) :
    s.Starves (s.unmap id base (base + size)) ∨
      s.Moves (.unmap id base size) ref (s.unmap id base (base + size)) := by
  rcases hs.unmap_answers id hpos hend hlen with hfull | ⟨d, m, hunmap, hm, hbooks, hsides⟩
  · exact .inl hfull
  · obtain ⟨hmaps, hchange⟩ := hs.change_reserved hm (fun h => absurd hcommitted h) hbooks
    have hvalid : (Operation.unmap id base size).RangeValid := ⟨hpos, hlen, hend⟩
    rw [hunmap]
    refine .inr (.done d _ hvalid (hmaps.account d) rfl rfl hsides ?_
      ⟨hchange.distinct, hchange.amount⟩ rfl)
    intro m' hm'
    rw [show s.committed = some m' from hm'] at hcommitted
    cases hcommitted

/-- The mutations of operations check the same range. -/
lemma checks_of_range {μ : Type} [Metadata μ] {c : Mutation μ} (hfirst : c.first = op.start)
    (hsize : c.size = op.size) (hstop : c.stop = c.first.toNat + c.size.toNat) : Checks op c := by
  refine ⟨?_, hfirst, hsize⟩
  rw [Mutation.Valid, hstop, hfirst, hsize, Operation.RangeValid]
  omega

/-- **What a space makes of an operation** on a range of at most the longest span. -/
theorem Maps.act_moves (hs : s.Maps) (hkind : s.committed = none ↔ op.target.isProcess)
    (hop : op.Checked) (hlen : op.size ≤ maxSpan) (ref : StackRef) :
    s.Starves (op.act ref s) ∨ s.Moves op ref (op.act ref s) := by
  cases op with
  | reserve id start size tag stack =>
      exact hs.moves_takeReserved (c := .reserve start size { stack := ref, tag })
        (checks_of_range rfl rfl rfl) (.inr rfl) rfl fun _ _ => rfl
  | commit id start size tag stack =>
      show s.Starves (s.commit start size ref tag) ∨ s.Moves _ ref (s.commit start size ref tag)
      rw [Space.commit]
      cases hcommitted : s.committed with
      | none =>
          refine hs.moves_takeReserved (c := .commit start size { stack := ref, tag } .adopt)
            (checks_of_range rfl rfl rfl) (.inl hcommitted) (by rw [hcommitted]; rfl) ?_
          intro m hm
          rw [hcommitted] at hm
          cases hm
      | some m =>
          exact hs.moves_takeCommitted hcommitted
            (k := .commit start size { stack := ref, tag } .replace)
            (checks_of_range rfl rfl rfl) rfl rfl
  | uncommit id start size stack =>
      show s.Starves (s.uncommit start size ref) ∨ s.Moves _ ref (s.uncommit start size ref)
      rw [Space.uncommit]
      cases hcommitted : s.committed with
      | none =>
          refine hs.moves_takeReserved (c := .uncommit start size { stack := ref })
            (checks_of_range rfl rfl rfl) (.inr rfl) (by rw [hcommitted]; rfl) ?_
          intro m hm
          rw [hcommitted] at hm
          cases hm
      | some m =>
          exact hs.moves_takeCommitted hcommitted (k := .release start size)
            (checks_of_range rfl rfl rfl) rfl rfl
  | release id start size =>
      exact hs.moves_takeBoth (c := .release start size) (k := .release start size)
        (checks_of_range rfl rfl rfl) (checks_of_range rfl rfl rfl) rfl
        (by cases s.committed <;> rfl) rfl
  | retag id start size tag =>
      exact hs.moves_takeBoth (c := .retag start size tag) (k := .retag start size tag)
        (checks_of_range rfl rfl rfl) (checks_of_range rfl rfl rfl) rfl
        (by cases s.committed <;> rfl) rfl
  | map id base size offset tag stack =>
      exact hs.moves_takeReserved
        (c := .reserve base size { stack := ref, tag, mapping := some (.ofBase id base offset) })
        (checks_of_range rfl rfl rfl) (.inr rfl) rfl fun _ _ => rfl
  | unmap id base size =>
      obtain ⟨hpos, hend⟩ := hop id base size rfl
      exact hs.moves_unmap id hpos hend hlen (hkind.mpr rfl)

end Space

end RegionLedger
