import RegionLedger.Proofs.Region.Repeating
import RegionLedger.Proofs.Space.Commuting

/-!
# An operation carried out again

An operation that is carried out can be reported once more, and nothing happens.  Its call stack is
found in the store; each of its mutations writes what is there, in the process as in a space that
keeps its commits apart; and a removal of mappings finds none.  So it succeeds, it moves nothing, and
the totals stay as they are, whether they are exact or not.

* `StackStore.Numbers.pushBy_again`, `Ledger.Indexed.push_again` — a call stack stored again.
* `Space.Unchanged`, `Ledger.Unchanged` — a space and a ledger that are as they were.
* `Space.Maps.act_again` — an operation on a space.
* `Ledger.operations_repeat` — an operation on a ledger.
-/

namespace RegionLedger

/-! ## The call stack -/

namespace StackStore

variable {fp : CallStack → UInt64} {s s' : StackStore} {known : List CallStack} {x : CallStack}
  {r : StackRef}

/-- A stack stored again is where it was, and the store stays as it is. -/
lemma Numbers.pushBy_again (h : s.Numbers fp known) (hpush : s.pushBy fp x = .ok (r, s')) :
    s'.pushBy fp x = .ok (r, s') := by
  rcases h.pushBy_cases x with ⟨s₁, hok, hwidth, hnumbers⟩ | ⟨herror, -⟩
  · obtain ⟨rfl, rfl⟩ := Prod.mk.inj (Except.ok.inj (hok.symm.trans hpush))
    rw [hnumbers.pushBy_of_mem (mem_learn.mpr (.inr rfl)), home_of_learned hwidth]
  · cases herror.symm.trans hpush

end StackStore

/-- **A call stack stored again** is where it was, and the store stays as it is. -/
lemma Ledger.Indexed.push_again {v : Ledger} (hv : v.Indexed) {stack : CallStack} {ref : StackRef}
    {store : StackStore} (hpush : v.callStacks.push stack = .ok (ref, store)) :
    store.push stack = .ok (ref, store) := by
  cases hv with
  | plain blank =>
      have hplain := hpush
      rw [StackStore.push, StackStore.pushBy, if_neg (by simp [blank])] at hplain
      obtain ⟨-, rfl⟩ := Prod.mk.inj (Except.ok.inj hplain)
      exact hpush
  | numbered known numbers sites => exact numbers.pushBy_again hpush

/-- Zero deltas move no totals. -/
lemma Totals.apply_of_isZero (m : Totals) {d : Deltas} (h : d.isZero = true) : m.apply d = m := by
  rw [Totals.apply, Deltas.toList_of_isZero h]
  rfl

/-! ## The maps of a space -/

namespace Space

/-- The boundaries, the totals and the name are as they were. -/
structure Unchanged (s s' : Space) : Prop where
  name : s'.name = s.name
  reserved : s'.reserved.points = s.reserved.points
  committed : s'.committed.map RegionMap.points = s.committed.map RegionMap.points
  totals : s'.totals = s.totals

lemma Unchanged.refl (s : Space) : s.Unchanged s := ⟨rfl, rfl, rfl, rfl⟩

/-- The answer moves nothing and leaves the space as it is. -/
def Repeats (s : Space) (r : Except RegionError Deltas × Space) : Prop :=
  ∃ d s', r = (.ok d, s') ∧ d.isZero = true ∧ s.Unchanged s'

variable {s s' : Space} {d : Deltas} {op : Operation} {ref : StackRef}

/-- Zero deltas are booked without a change. -/
lemma Unchanged.account (h : s.Unchanged s') (hd : d.isZero = true) : s.Unchanged (s'.account d) :=
  ⟨h.name, h.reserved, h.committed, (Totals.apply_of_isZero _ hd).trans h.totals⟩

/-- **An operation on the reservations.** -/
lemma Maps.repeats_takeReserved (hs : s.Maps) {c : Mutation Placement}
    (hok : s.takeReserved (c.apply s.reserved) = (.ok d, s')) :
    s'.committed = s.committed ∧ s'.Repeats (s'.takeReserved (c.apply s'.reserved)) := by
  cases happly : c.apply s.reserved with
  | error e =>
      rw [happly] at hok
      cases hok
  | ok answer =>
      obtain ⟨d₁, m⟩ := answer
      obtain ⟨-, hm, -, -⟩ := hs.reserved.apply_writes happly
      obtain ⟨e, m', hagain, hm', hdistinct, hamount⟩ := hs.reserved.apply_again happly
      have hzero := Deltas.isZero_of_amount hdistinct hamount
      rw [happly] at hok
      cases hok
      refine ⟨rfl, ?_⟩
      show Repeats _ (takeReserved _ (c.apply m))
      rw [hagain]
      exact ⟨e, _, rfl, hzero, Unchanged.account ⟨rfl, hm'.points_unique hm, rfl, rfl⟩ hzero⟩

/-- **An operation on the commits.** -/
lemma Maps.repeats_takeCommitted (hs : s.Maps) {m : RegionMap Attribution}
    (hcommitted : s.committed = some m) {k : Mutation Attribution}
    (hok : s.takeCommitted (k.apply m) = (.ok d, s')) :
    ∃ m', s'.committed = some m' ∧ s'.Repeats (s'.takeCommitted (k.apply m')) := by
  cases happly : k.apply m with
  | error e =>
      rw [happly] at hok
      cases hok
  | ok answer =>
      obtain ⟨d₁, m'⟩ := answer
      obtain ⟨-, hm', -, -⟩ := (hs.committed m hcommitted).apply_writes happly
      obtain ⟨e, m'', hagain, hm'', hdistinct, hamount⟩ :=
        (hs.committed m hcommitted).apply_again happly
      have hzero : e.commitOnly.isZero = true := by
        refine Deltas.isZero_of_amount (Deltas.distinct_commitOnly hdistinct) ?_
        intro c t
        rw [Deltas.amount_commitOnly hdistinct, hamount, ite_self]
      rw [happly] at hok
      cases hok
      refine ⟨m', rfl, ?_⟩
      rw [hagain]
      exact ⟨e.commitOnly, _, rfl, hzero, Unchanged.account
        ⟨rfl, rfl, congrArg some (hm''.points_unique hm'), rfl⟩ hzero⟩

/-- **An operation on both maps.** -/
lemma Maps.repeats_takeBoth (hs : s.Maps) {c : Mutation Placement} {k : Mutation Attribution}
    (hok : s.takeBoth (c.apply s.reserved) (k.apply ·) = (.ok d, s')) :
    s'.Repeats (s'.takeBoth (c.apply s'.reserved) (k.apply ·)) := by
  cases happly : c.apply s.reserved with
  | error e =>
      rw [happly] at hok
      cases hok
  | ok answer =>
      obtain ⟨d₁, m⟩ := answer
      obtain ⟨-, hm, -, -⟩ := hs.reserved.apply_writes happly
      obtain ⟨e, m', hagain, hm', hdistinct, hamount⟩ := hs.reserved.apply_again happly
      rw [happly] at hok
      cases hcommitted : s.committed with
      | none =>
          have hzero := Deltas.isZero_of_amount hdistinct hamount
          rw [takeBoth_of_none hcommitted] at hok
          cases hok
          have hnone : (Space.account { s with reserved := m } d).committed = none := hcommitted
          show Repeats _ (takeBoth _ (c.apply m) _)
          rw [hagain, takeBoth_of_none hnone]
          exact ⟨e, _, rfl, hzero, Unchanged.account ⟨rfl, hm'.points_unique hm, rfl, rfl⟩ hzero⟩
      | some n =>
          cases happly' : k.apply n with
          | error e =>
              rw [takeBoth_of_error hcommitted happly'] at hok
              cases hok
          | ok answer =>
              obtain ⟨d₂, n'⟩ := answer
              obtain ⟨-, hn', -, -⟩ := (hs.committed n hcommitted).apply_writes happly'
              obtain ⟨e', n'', hagain', hn'', hdistinct', hamount'⟩ :=
                (hs.committed n hcommitted).apply_again happly'
              have hcommits : ∀ col t, e'.commitOnly.amount col t = 0 := by
                intro col t
                rw [Deltas.amount_commitOnly hdistinct', hamount', ite_self]
              have hdistinct'' := Deltas.distinct_commitOnly hdistinct'
              obtain ⟨sum, hsum⟩ := Deltas.exists_plus (d := e) hdistinct'' fun col t => by
                rw [hamount, hcommits]
                exact ⟨by decide, by decide⟩
              have hzero : sum.isZero = true := by
                refine Deltas.isZero_of_amount (hdistinct.plus hsum) ?_
                intro col t
                rw [Deltas.amount_of_plus hdistinct'' hsum, hamount, hcommits, Int.add_zero]
              cases hplus : d₁.plus d₂.commitOnly with
              | error o =>
                  rw [takeBoth_of_overflow hcommitted happly' hplus] at hok
                  cases hok
              | ok sum₁ =>
                  rw [takeBoth_of_ok hcommitted happly' hplus] at hok
                  cases hok
                  show Repeats _ (takeBoth _ (c.apply m) _)
                  rw [hagain, takeBoth_of_ok rfl hagain' hsum]
                  exact ⟨_, _, rfl, hzero, Unchanged.account ⟨rfl, hm'.points_unique hm,
                    congrArg some (hn''.points_unique hn'), rfl⟩ hzero⟩

/-- **A removal of mappings** leaves none to be removed. -/
lemma Maps.repeats_unmap (hs : s.Maps) (id : SpaceId) {base : Address} {size : UInt64}
    (hpos : 0 < size.toNat) (hend : base.toNat + size.toNat < 2 ^ 64)
    (hok : s.unmap id base (base + size) = (.ok d, s')) :
    s'.Repeats (s'.unmap id base (base + size)) := by
  have hlt := base_lt_end hpos hend
  have hyields : s.Yields (.unmap id base size) {} (s.unmap id base (base + size)) :=
    hs.yields_unmap id hpos hend
  rw [hok] at hyields
  cases hyields with
  | done d s' maps kind reserved committed =>
      -- a byte that is still mapped would have been released
      have hnone : s'.mapped id base (base + size) = [] := by
        refine List.eq_nil_iff_forall_not_mem.mpr ?_
        intro r hr
        obtain ⟨-, -, hne, -⟩ := maps.mem_mapped hr
        obtain ⟨hin, hreserved, hmapping⟩ := ((maps.mapped_spec id hlt).2 r.start).mp
          ⟨r, hr, UInt64.le_refl _, hne⟩
        have hbyte : s'.reserved.sideAt r.start =
            Bytes.unmap s.reserved.sideAt id base (base + size) r.start := congrFun reserved r.start
        rw [Bytes.unmap] at hbyte
        split_ifs at hbyte with hold
        · rw [hbyte] at hreserved
          cases hreserved
        · rw [hbyte] at hreserved hmapping
          exact hold ⟨hin, hreserved, hmapping⟩
      have hrun : releaseEach s'.reserved ∅ (s'.mapped id base (base + size)) =
          (.ok ∅, s'.reserved) := by rw [hnone, releaseEach]
      rw [unmap_of_ok hrun]
      exact ⟨∅, _, rfl, rfl, (Unchanged.refl s').account rfl⟩

/-- **An operation on a space carried out again** moves nothing and leaves the space as it is. -/
theorem Maps.act_again (hs : s.Maps) (hop : op.Checked) (hok : op.act ref s = (.ok d, s')) :
    s'.Repeats (op.act ref s') := by
  cases op with
  | reserve id start size tag stack =>
      exact (hs.repeats_takeReserved (c := .reserve start size { stack := ref, tag }) hok).2
  | commit id start size tag stack =>
      have hok : s.commit start size ref tag = (.ok d, s') := hok
      show s'.Repeats (s'.commit start size ref tag)
      rw [Space.commit] at hok ⊢
      cases hcommitted : s.committed with
      | none =>
          rw [hcommitted] at hok
          obtain ⟨hsame, hrepeats⟩ := hs.repeats_takeReserved
            (c := .commit start size { stack := ref, tag } .adopt) hok
          rw [hsame, hcommitted]
          exact hrepeats
      | some m =>
          rw [hcommitted] at hok
          obtain ⟨m', hsome, hrepeats⟩ := hs.repeats_takeCommitted hcommitted
            (k := .commit start size { stack := ref, tag } .replace) hok
          rw [hsome]
          exact hrepeats
  | uncommit id start size stack =>
      have hok : s.uncommit start size ref = (.ok d, s') := hok
      show s'.Repeats (s'.uncommit start size ref)
      rw [Space.uncommit] at hok ⊢
      cases hcommitted : s.committed with
      | none =>
          rw [hcommitted] at hok
          obtain ⟨hsame, hrepeats⟩ := hs.repeats_takeReserved
            (c := .uncommit start size { stack := ref }) hok
          rw [hsame, hcommitted]
          exact hrepeats
      | some m =>
          rw [hcommitted] at hok
          obtain ⟨m', hsome, hrepeats⟩ := hs.repeats_takeCommitted hcommitted
            (k := .release start size) hok
          rw [hsome]
          exact hrepeats
  | release id start size =>
      exact hs.repeats_takeBoth (c := .release start size) (k := .release start size) hok
  | retag id start size tag =>
      exact hs.repeats_takeBoth (c := .retag start size tag) (k := .retag start size tag) hok
  | map id base size offset tag stack =>
      have hreserved := hs.repeats_takeReserved (c := .reserve base size
        { stack := ref, tag, mapping := some (.ofBase id base offset) }) hok
      exact hreserved.2
  | unmap id base size =>
      obtain ⟨hpos, hend⟩ := hop id base size rfl
      exact hs.repeats_unmap id hpos hend hok

end Space

/-! ## The ledger -/

namespace Ledger

variable {v v' : Ledger} {op : Operation} {d : Deltas}

/-- **An operation that was carried out is left to its space again**, with the same call stack. -/
lemma Indexed.acts_again (hv : v.Indexed) (hpos : 0 < v.size) (hok : v.apply op = (.ok d, v')) :
    ∃ ref store s s', op.Checked ∧ v.space? op.target = some s ∧ op.act ref s = (.ok d, s') ∧
      v' = { v with
        callStacks := store
        spaces := v.spaces.setIfInBounds op.target.raw.toNat s' } ∧
      v'.apply op = v'.onSpace op.target (op.act ref) := by
  have hnone := unopposed_of_apply_ok hok
  have hnone' : op.objection? v'.knows = none := by
    have hsize := v.size_apply op
    rw [hok] at hsize
    rwa [knows_congr hsize]
  obtain ⟨ref, store, s, hacts, hagain⟩ : ∃ ref store s, v.Acts op ref store s ∧
      (v'.callStacks = store → v'.apply op = v'.onSpace op.target (op.act ref)) := by
    have hplaces : v.Places op := places_of_not_exhausts (by rw [exhausts, hok])
    obtain ⟨s, hs⟩ : ∃ s, v.space? op.target = some s := by
      obtain ⟨-, s, -, -, -, hs, -⟩ := acts_of_apply_ok hpos hok
      exact ⟨s, hs⟩
    cases hstack : op.stack? with
    | none =>
        refine ⟨{}, v.callStacks, s, ⟨hstack ▸ .nothing _, hs, ?_⟩, fun _ => ?_⟩
        · rw [apply_of_stackless hnone hstack, onSpace_eq hs]
        · exact apply_of_stackless hnone' hstack
    | some stack =>
        obtain ⟨ref, store, hpush⟩ := hplaces hnone stack hstack
        have hs' : space? { v with callStacks := store } op.target = some s := hs
        refine ⟨ref, store, s, ⟨hstack ▸ .stack hpush, hs, ?_⟩, fun hstore => ?_⟩
        · rw [apply_of_push hnone hstack hpush, onSpace_eq hs']
        · have hpush' : v'.callStacks.push stack = .ok (ref, v'.callStacks) := by
            rw [hstore]
            exact hv.push_again hpush
          exact apply_of_push hnone' hstack hpush'
  have happly := hacts.apply_eq
  cases hact : op.act ref s with
  | mk answer s' =>
      rw [hact, hok, Prod.mk.injEq] at happly
      obtain ⟨hanswer, rfl⟩ := happly
      cases answer with
      | error e => cases hanswer
      | ok d' =>
          obtain rfl : d = d' := Except.ok.inj hanswer
          exact ⟨ref, store, s, s', checked_of_objection? hnone, hacts.found, hact, rfl, hagain rfl⟩

/-- There are the same spaces with the same boundaries and totals, and the same call stacks. -/
structure Unchanged (v v' : Ledger) : Prop where
  size : v'.size = v.size
  seed : v'.seed = v.seed
  callStacks : v'.callStacks = v.callStacks
  space : ∀ id s, v.space? id = some s → ∃ s', v'.space? id = some s' ∧ s.Unchanged s'

/-- **Operations are idempotent.**  After every run, an operation that is carried out is carried out
again when it is repeated.  It moves nothing then, and it leaves the boundaries of every map, all
totals with their peaks, and the store of call stacks. -/
theorem operations_repeat (config : Config) (calls : List LedgerCall) (op : Operation) (d : Deltas)
    (v' : Ledger) (hok : ((create config).run calls).apply op = (.ok d, v')) :
    ∃ d' v'', v'.apply op = (.ok d', v'') ∧ d'.isZero = true ∧ v'.Unchanged v'' := by
  have hv := charted_run config calls
  have hindexed := indexed_run config calls
  generalize (create config).run calls = v at hv hindexed hok
  obtain ⟨ref, store, s, s', hop, hs, hact, rfl, hagain⟩ := hindexed.acts_again hv.pos hok
  obtain ⟨d', s'', hact', hzero, hsame⟩ := (hv.maps _ s hs).act_again hop hact
  -- the ledger that the first time left
  have hspaces := space?_set (v := { v with callStacks := store }) hs s'
  have hs' := (hspaces op.target).trans (if_pos rfl)
  have hspaces' := space?_set hs' s''
  rw [onSpace_eq hs', hact'] at hagain
  refine ⟨d', _, hagain, hzero, by simp [size], rfl, rfl, ?_⟩
  intro id t ht
  by_cases hid : id = op.target
  · obtain rfl : s' = t := by
      rw [hid] at ht
      exact Option.some.inj (hs'.symm.trans ht)
    exact ⟨s'', (hspaces' id).trans (if_pos hid), hsame⟩
  · exact ⟨t, ((hspaces' id).trans (if_neg hid)).trans ht, Space.Unchanged.refl t⟩

/-- A commit inside a reservation adopts its tag, and one that is reported twice counts once. -/
theorem commit_reported_twice :
    let v := (create {}).run roomyCalls
    let op := Operation.commit .process 0x2000 0x1000 ⟨8⟩ ⟨[0xb2]⟩
    ∃ d v', v.apply op = (.ok d, v') ∧ d.toList = [(⟨7⟩, { commit := 0x1000 })] ∧
      v'.callStacks.size = 2 ∧
      ∃ d' v'', v'.apply op = (.ok d', v'') ∧ d'.isZero = true ∧ v'.Unchanged v'' := by
  intro v op
  have hanswer : ((v.apply op).1.map Deltas.toList, (v.apply op).2.callStacks.size) =
      (.ok [(⟨7⟩, { commit := 0x1000 })], 2) := by decide +kernel
  cases happly : v.apply op with
  | mk answer v' =>
      rw [happly] at hanswer
      obtain ⟨htoList, hsize⟩ := Prod.mk.inj hanswer
      cases answer with
      | error e => cases htoList
      | ok d =>
          exact ⟨d, v', rfl, Except.ok.inj htoList, hsize,
            operations_repeat {} roomyCalls op d v' happly⟩

end Ledger

end RegionLedger
