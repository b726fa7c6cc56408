import RegionLedger.Proofs.Region.Coarsening
import RegionLedger.Proofs.Space.Beside

/-!
# Ledgers without call stacks

A ledger that keeps no call stacks signs all memory with one reference.  Beside a ledger that keeps
them it has coarser maps, and otherwise the same: operations move the same bytes and are refused for
the same causes, and totals and peaks are the same.  The two part only where the slots of a map run
out, or where a removal of mappings reaches over a run that is too long to be released.

* `anonymous`, `Space.Coarsens`, `Ledger.Coarsens` — the same without call sites.
* `Space.Starves`, `Ledger.OutOfSlots` — the slots run out.
* `Space.Coarsens.act` — an operation on two such spaces.
* `Ledger.Coarsens.apply`, `Ledger.Coarsens.run` — one call, and a run of calls.
-/

namespace RegionLedger

/-- One reference for every call site. -/
def anonymous : StackRef → StackRef := fun _ => {}

lemma Deltas.congruent_agree : Congruent Agree where
  apply d e h m := by
    rw [Totals.apply, Totals.apply, h.toList_eq]
  commitOnly _ _ := Agree.commitOnly
  plus _ _ _ _ _ := Agree.exists_plus
  plus_error _ _ _ _ _ := Agree.plus_error

/-- Released mappings do not depend on references. -/
lemma Bytes.unmap_relabel (σ : StackRef → StackRef) (f : Bytes Placement) (id : SpaceId)
    (first last : Address) :
    (f.relabel σ).unmap id first last = (f.unmap id first last).relabel σ := by
  funext x
  rw [unmap, relabel, relabel, unmap, Side.state_relabel, Side.mapping_relabel]
  split_ifs
  · exact (Side.relabel_released σ).symm
  · rfl

/-! ## Spaces -/

namespace Space

/-- The second space is the first without its call sites. -/
def Coarsens : Space → Space → Prop :=
  Beside (RegionMap.Relabels anonymous) (RegionMap.Relabels anonymous)

/-- The slots of a map run out. -/
def Starves (s : Space) (r : Except RegionError Deltas × Space) : Prop :=
  r.1 = .error (.outOfMemory .outOfSlots) ∧ Slots.limit < s.boundaries + 4

/-- Two operations move the same bytes and leave spaces that differ in their call sites only, unless
the slots run out in one of the spaces. -/
def Agree (s t : Space) (p q : Except RegionError Deltas × Space) : Prop :=
  s.Starves p ∨ t.Starves q ∨ SameOutcome Deltas.Agree Coarsens p q

variable {s t : Space}

/-! ### The forms of an operation -/

lemma starves_takeReserved {p : Except RegionError (Deltas × RegionMap Placement)}
    (h : s.reserved.Full p) : s.Starves (s.takeReserved p) := by
  obtain ⟨rfl, hlimit⟩ := h
  have hle := s.reserved_size_le
  exact ⟨rfl, by omega⟩

lemma starves_takeCommitted {m : RegionMap Attribution} (hs : s.committed = some m)
    {p : Except RegionError (Deltas × RegionMap Attribution)} (h : m.Full p) :
    s.Starves (s.takeCommitted p) := by
  obtain ⟨rfl, hlimit⟩ := h
  have hle := committed_size_le hs
  exact ⟨rfl, by omega⟩

lemma starves_takeBoth {p : Except RegionError (Deltas × RegionMap Placement)}
    (h : s.reserved.Full p)
    (f : RegionMap Attribution → Except RegionError (Deltas × RegionMap Attribution)) :
    s.Starves (s.takeBoth p f) := by
  obtain ⟨rfl, hlimit⟩ := h
  have hle := s.reserved_size_le
  exact ⟨rfl, by omega⟩

/-- The commits have no slots left after the reservations were changed. -/
lemma starves_takeBoth_of_ok {m : RegionMap Attribution} (hs : s.committed = some m)
    {f : RegionMap Attribution → Except RegionError (Deltas × RegionMap Attribution)}
    (h : m.Full (f m)) (d : Deltas) (m' : RegionMap Placement) :
    s.Starves (s.takeBoth (.ok (d, m')) f) := by
  obtain ⟨hf, hlimit⟩ := h
  have hle := committed_size_le hs
  rw [takeBoth_of_error hs hf]
  exact ⟨rfl, by omega⟩

namespace Coarsens

lemma takeReserved (h : Coarsens s t) (c : Mutation Placement) :
    Agree s t (s.takeReserved (c.apply s.reserved))
      (t.takeReserved ((c.relabel anonymous).apply t.reserved)) := by
  rcases h.reserved.apply c with hfull | hfull | hanswer
  · exact .inl (starves_takeReserved hfull)
  · exact .inr (.inl (starves_takeReserved hfull))
  · exact .inr (.inr (Beside.takeReserved h Deltas.congruent_agree hanswer))

lemma takeCommitted (h : Coarsens s t) {m n : RegionMap Attribution} (hs : s.committed = some m)
    (ht : t.committed = some n) (hmn : RegionMap.Relabels anonymous m n)
    (c : Mutation Attribution) :
    Agree s t (s.takeCommitted (c.apply m)) (t.takeCommitted ((c.relabel anonymous).apply n)) := by
  rcases hmn.apply c with hfull | hfull | hanswer
  · exact .inl (starves_takeCommitted hs hfull)
  · exact .inr (.inl (starves_takeCommitted ht hfull))
  · exact .inr (.inr (Beside.takeCommitted h Deltas.congruent_agree hanswer))

lemma takeBoth (h : Coarsens s t) (c : Mutation Placement) (c' : Mutation Attribution) :
    Agree s t (s.takeBoth (c.apply s.reserved) (c'.apply ·))
      (t.takeBoth ((c.relabel anonymous).apply t.reserved) ((c'.relabel anonymous).apply ·)) := by
  rcases h.reserved.apply c with hfull | hfull | hanswer
  · exact .inl (starves_takeBoth hfull _)
  · exact .inr (.inl (starves_takeBoth hfull _))
  · rcases h.committed with ⟨hs, ht⟩ | ⟨m, n, hs, ht, hmn⟩
    · refine .inr (.inr (Beside.takeBoth h Deltas.congruent_agree hanswer ?_))
      intro m n hs'
      rw [hs] at hs'
      cases hs'
    · -- a refused change of the reservations ends both, so only a change that is carried out is left
      have hdone : ∀ {p q}, SameAnswer Deltas.Agree (RegionMap.Relabels anonymous) p q →
          Agree s t (s.takeBoth p (c'.apply ·)) (t.takeBoth q ((c'.relabel anonymous).apply ·)) := by
        intro p q hpq
        rcases hmn.apply c' with hfull | hfull | hanswer'
        · cases hpq with
          | error e => exact .inr (.inr (.error e h))
          | ok deltas related => exact .inl (starves_takeBoth_of_ok hs hfull _ _)
        · cases hpq with
          | error e => exact .inr (.inr (.error e h))
          | ok deltas related => exact .inr (.inl (starves_takeBoth_of_ok ht hfull _ _))
        · refine .inr (.inr (Beside.takeBoth h Deltas.congruent_agree hpq ?_))
          intro m' n' hs' ht' _
          obtain rfl : m = m' := Option.some.inj (hs.symm.trans hs')
          obtain rfl : n = n' := Option.some.inj (ht.symm.trans ht')
          exact hanswer'
      exact hdone hanswer

end Coarsens

/-! ### Releasing mapped runs -/

/-- What a space answers to the removal of the mappings of a range. -/
lemma Maps.unmap_answers (hs : s.Maps) (id : SpaceId) {base : Address} {size : UInt64}
    (hpos : 0 < size.toNat) (hend : base.toNat + size.toNat < 2 ^ 64) (hlen : size ≤ maxSpan) :
    s.Starves (s.unmap id base (base + size)) ∨
      ∃ d m, s.unmap id base (base + size) = (.ok d, Space.account { s with reserved := m } d) ∧
        m.Represents m.sideAt ∧ d.Books s.reserved.sideAt m.sideAt ∧
        m.sideAt = Bytes.unmap s.reserved.sideAt id base (base + size) := by
  have hspan : base + size - base ≤ maxSpan := by rwa [UInt64.add_comm, UInt64.add_sub_cancel]
  rcases hs.releaseEach_mapped id (base_lt_end hpos hend) hspan with
    ⟨d, m, hok, hm, hbooks, _⟩ | ⟨hfull, hlimit⟩
  · have hunmap := unmap_of_ok hok
    have hyields : s.Yields (.unmap id base size) {} (s.unmap id base (base + size)) :=
      hs.yields_unmap id hpos hend
    rw [hunmap] at hyields
    refine .inr ⟨d, m, hunmap, hm, hbooks, ?_⟩
    cases hyields with
    | done _ _ _ _ reserved _ => exact reserved
  · have hle := s.reserved_size_le
    exact .inl ⟨congrArg Prod.fst (unmap_of_error (Prod.ext hfull rfl)), by omega⟩

namespace Coarsens

lemma unmap (h : Coarsens s t) (hs : s.Maps) (ht : t.Maps) (id : SpaceId) {base : Address}
    {size : UInt64} (hpos : 0 < size.toNat) (hend : base.toNat + size.toNat < 2 ^ 64)
    (hlen : size ≤ maxSpan) :
    Agree s t (s.unmap id base (base + size)) (t.unmap id base (base + size)) := by
  have hsides : t.reserved.sideAt = Bytes.relabel anonymous s.reserved.sideAt :=
    funext h.reserved.sideAt_eq
  rcases hs.unmap_answers id hpos hend hlen with hfull | ⟨d, m, hunmap, hm, hbooks, hwrites⟩
  · exact .inl hfull
  · rcases ht.unmap_answers id hpos hend hlen with hfull | ⟨e, n, hunmap', hn, hbooks', hwrites'⟩
    · exact .inr (.inl hfull)
    · rw [hsides, Bytes.unmap_relabel, ← hwrites] at hwrites'
      rw [hwrites'] at hn hbooks'
      rw [hsides] at hbooks'
      have hagree := hbooks.agree hbooks'
      rw [hunmap, hunmap']
      exact .inr (.inr (.ok hagree
        ((Beside.set_reserved h ⟨hm, hn⟩).account Deltas.congruent_agree hagree)))

/-! ### The operations -/

/-- **An operation on a space with call sites and on the same space without.** -/
theorem act (h : Coarsens s t) (hs : s.Maps) (ht : t.Maps) {op : Operation} (hop : op.Checked)
    (hspan : op.SpanFits) (ref : StackRef) : Agree s t (op.act ref s) (op.act {} t) := by
  cases op with
  | reserve id start size tag stack =>
      exact h.takeReserved (.reserve start size { stack := ref, tag })
  | commit id start size tag stack =>
      show Agree s t (s.commit start size ref tag) (t.commit start size {} tag)
      rw [Space.commit, Space.commit]
      rcases h.committed with ⟨hnone, hnone'⟩ | ⟨m, n, hm, hn, hmn⟩
      · rw [hnone, hnone']
        exact h.takeReserved (.commit start size { stack := ref, tag } .adopt)
      · rw [hm, hn]
        exact h.takeCommitted hm hn hmn (.commit start size { stack := ref, tag } .replace)
  | uncommit id start size stack =>
      show Agree s t (s.uncommit start size ref) (t.uncommit start size {})
      rw [Space.uncommit, Space.uncommit]
      rcases h.committed with ⟨hnone, hnone'⟩ | ⟨m, n, hm, hn, hmn⟩
      · rw [hnone, hnone']
        exact h.takeReserved (.uncommit start size { stack := ref })
      · rw [hm, hn]
        exact h.takeCommitted hm hn hmn (.release start size)
  | release id start size => exact h.takeBoth (.release start size) (.release start size)
  | map id base size offset tag stack =>
      exact h.takeReserved (.reserve base size
        { stack := ref, tag, mapping := some (.ofBase id base offset) })
  | unmap id base size =>
      obtain ⟨hpos, hend⟩ := hop id base size rfl
      exact h.unmap hs ht id hpos hend (hspan id base size rfl)
  | retag id start size tag => exact h.takeBoth (.retag start size tag) (.retag start size tag)

end Coarsens

end Space

/-! ## Ledgers -/

namespace Ledger

variable {v w : Ledger} {op : Operation} {ref : StackRef} {callStacks : StackStore}

/-- An operation is refused because the slots of a map ran out. -/
def OutOfSlots (v : Ledger) (op : Operation) : Prop :=
  (v.apply op).1 = .error (.region (.outOfMemory .outOfSlots))

/-- A ledger without call stacks has a place for every one. -/
lemma places_of_plain (hw : w.callStacks.detailed = false) : w.Places op := by
  intro _ stack _
  exact ⟨{}, w.callStacks, by rw [StackStore.push, StackStore.pushBy, hw]; rfl⟩

/-- It signs with the same reference always, and never changes its store. -/
lemma Stores.eq_of_plain (h : w.Stores op ref callStacks) (hw : w.callStacks.detailed = false) :
    ref = {} ∧ callStacks = w.callStacks := by
  rw [Stores] at h
  cases hstack : op.stack? with
  | none =>
      rw [hstack] at h
      exact h
  | some stack =>
      rw [hstack] at h
      have hpush : w.callStacks.push stack = .ok ({}, w.callStacks) := by
        rw [StackStore.push, StackStore.pushBy, hw]
        rfl
      have hstored := hpush.symm.trans h
      rw [Except.ok.injEq, Prod.mk.injEq] at hstored
      exact ⟨hstored.1.symm, hstored.2.symm⟩

/-- The second ledger is the first without its call stacks. -/
structure Coarsens (v w : Ledger) : Prop where
  spaces : Beside Space.Coarsens v w
  plain : w.callStacks.detailed = false

/-- An answer as far as it can be told apart from others: deltas by the tags that change. -/
def reading (r : Except LedgerError (SpaceId ⊕ Deltas)) :
    Except LedgerError (SpaceId ⊕ List (Tag × Delta)) := r.map (Sum.map id Deltas.toList)

lemma reading_inr (p : Except LedgerError Deltas) :
    reading (p.map .inr) = (p.map Deltas.toList).map .inr := by
  cases p <;> rfl

/-- What the answers to calls show. -/
def readings (v : Ledger) (calls : List LedgerCall) :
    List (Except LedgerError (SpaceId ⊕ List (Tag × Delta))) := (v.answers calls).map reading

/-- The calls get answers that cannot be told apart, and then the second ledger is the first without
its call stacks. -/
def CoarsensAfter (v w : Ledger) (calls : List LedgerCall) : Prop :=
  v.readings calls = w.readings calls ∧ Coarsens (v.run calls) (w.run calls)

lemma CoarsensAfter.cons {c : LedgerCall} {calls : List LedgerCall}
    (h : CoarsensAfter (v.step c) (w.step c) calls)
    (hanswer : reading (v.answer c) = reading (w.answer c)) : CoarsensAfter v w (c :: calls) :=
  ⟨congrArg₂ List.cons hanswer h.1, h.2⟩

namespace Coarsens

/-- **An operation of both ledgers.** -/
theorem apply (h : Coarsens v w) (hv : v.Charted) (hw : w.Charted) (hspan : op.SpanFits)
    (hplace : v.Places op) :
    (v.OutOfSlots op ∧ v.Crowded) ∨ (w.OutOfSlots op ∧ w.Crowded) ∨
      SameOutcome Deltas.Agree Coarsens (v.apply op) (w.apply op) := by
  rcases h.spaces.apply_cases hplace (places_of_plain h.plain) with
    ⟨e, happly, happly'⟩ | ⟨ref, ref', a, b, hop, _, hstores, happly, happly'⟩
  · rw [happly, happly']
    exact .inr (.inr (.error e h))
  · obtain ⟨rfl, rfl⟩ := hstores.eq_of_plain h.plain
    have hspaces : Beside Space.Coarsens { v with callStacks := a } w := h.spaces
    have hdone : (∀ s t, v.space? op.target = some s → w.space? op.target = some t →
        Space.Coarsens s t → SameOutcome Deltas.Agree Space.Coarsens (op.act ref s) (op.act {} t)) →
        SameOutcome Deltas.Agree Coarsens (v.apply op) (w.apply op) := by
      intro hact
      rw [happly, happly']
      refine (hspaces.onSpace op.target hact).imp fun hrelated => ⟨hrelated, ?_⟩
      rw [callStacks_onSpace]
      exact h.plain
    rcases h.spaces.cases_space? op.target with ⟨hnone, _⟩ | ⟨s, t, hs, ht, hst⟩
    · refine .inr (.inr (hdone ?_))
      intro s t hs
      rw [hnone] at hs
      cases hs
    · have hs' : space? { v with callStacks := a } op.target = some s := hs
      rcases hst.act (hv.maps _ s hs) (hw.maps _ t ht) hop hspan ref with
        ⟨hfull, hlimit⟩ | ⟨hfull, hlimit⟩ | hanswer
      · refine .inl ⟨?_, op.target, s, hs, hlimit⟩
        rw [OutOfSlots, happly, onSpace_eq hs', hfull]
        rfl
      · refine .inr (.inl ⟨?_, op.target, t, ht, hlimit⟩)
        rw [OutOfSlots, happly', onSpace_eq ht, hfull]
        rfl
      · refine .inr (.inr (hdone ?_))
        intro s' t' hs' ht' _
        obtain rfl : s = s' := Option.some.inj (hs.symm.trans hs')
        obtain rfl : t = t' := Option.some.inj (ht.symm.trans ht')
        exact hanswer

/-- **A registration of both ledgers.** -/
theorem register (h : Coarsens v w) (name : String) :
    v.answer (.register name) = w.answer (.register name) ∧
      Coarsens (v.step (.register name)) (w.step (.register name)) := by
  obtain ⟨hanswer, hspaces⟩ := h.spaces.register name fun id =>
    Space.Beside.create (.empty anonymous) (.empty anonymous) id name v.seed w.seed
  refine ⟨hanswer, hspaces, ?_⟩
  rw [callStacks_register]
  exact h.plain

/-- **A run of both ledgers**, up to the first operation for which there are no slots.  The induction
is on the calls. -/
theorem run (h : Coarsens v w) (hv : v.Charted) (hw : w.Charted) {calls : List LedgerCall}
    (hspans : SpansFit calls) (hstores : v.storesAll calls = true) :
    (∃ before op, before ++ [.operation op] <+: calls ∧ CoarsensAfter v w before ∧
      ((v.run before).OutOfSlots op ∧ (v.run before).Crowded ∨
        (w.run before).OutOfSlots op ∧ (w.run before).Crowded)) ∨
    CoarsensAfter v w calls := by
  induction calls generalizing v w with
  | nil => exact .inr ⟨rfl, h⟩
  | cons c calls ih =>
      have hrest : SpansFit calls := fun op hop => hspans op (List.mem_cons_of_mem _ hop)
      -- what follows the first call is a run of the ledgers after it
      have hnext : reading (v.answer c) = reading (w.answer c) →
          Coarsens (v.step c) (w.step c) → (v.step c).storesAll calls = true →
          (∃ before op, before ++ [.operation op] <+: c :: calls ∧ CoarsensAfter v w before ∧
            ((v.run before).OutOfSlots op ∧ (v.run before).Crowded ∨
              (w.run before).OutOfSlots op ∧ (w.run before).Crowded)) ∨
          CoarsensAfter v w (c :: calls) := by
        intro hanswer hstep hlater
        rcases ih hstep (hv.step c) (hw.step c) hrest hlater with
          ⟨before, op, hstart, hafter, hfull⟩ | hafter
        · exact .inl ⟨c :: before, op, List.cons_prefix_cons.mpr ⟨rfl, hstart⟩,
            hafter.cons hanswer, hfull⟩
        · exact .inr (hafter.cons hanswer)
      cases c with
      | register name =>
          obtain ⟨hanswer, hstep⟩ := h.register name
          exact hnext (congrArg _ hanswer) hstep hstores
      | operation op =>
          rw [storesAll, Bool.and_eq_true, Bool.not_eq_true'] at hstores
          have hspan := hspans op List.mem_cons_self
          have hstart : [] ++ [.operation op] <+: .operation op :: calls :=
            List.prefix_append [_] calls
          rcases h.apply hv hw hspan (places_of_not_exhausts hstores.1) with hfull | hfull | hanswer
          · exact .inl ⟨[], op, hstart, ⟨rfl, h⟩, .inl hfull⟩
          · exact .inl ⟨[], op, hstart, ⟨rfl, h⟩, .inr hfull⟩
          · refine hnext ?_ hanswer.related hstores.2
            rw [answer, answer, reading_inr, reading_inr,
              hanswer.map_eq fun _ _ hd => hd.toList_eq]

end Coarsens

end Ledger

end RegionLedger
