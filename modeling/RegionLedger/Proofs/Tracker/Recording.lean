import RegionLedger.Proofs.Space.Returned
import RegionLedger.Proofs.Tracker.Snapshots

/-!
# What happened between two snapshots

A tracker hands calls on to its ledger, unless tracking is off or a held lock loses the update.  The
totals of a space move by the deltas that its operations return and by nothing else, so the
comparison of two snapshots is the sum of what was returned in between, tag by tag.

This needs totals that are the byte counts of the maps.  A removal of mappings that stops at a run
which is too long leaves totals that count released memory; they can saturate later on, and then the
comparison misses what saturation swallowed.

* `TrackerCall`, `Tracker.step`, `Tracker.run` — registrations and attempts to record.
* `Tracker.carried` — the calls that reach the ledger.
* `Snapshot.SumsUp`, `Tracker.comparison_sums_up` — the comparison of two snapshots of a tracker.
-/

namespace RegionLedger

namespace Ledger

variable {v : Ledger}

/-- A snapshot shows the totals. -/
lemma amount_snapshot (h : v.size ≤ UInt32.size) (dropped : UInt64) (id : SpaceId) :
    Snapshot.amount { spaces := v.snapshot, dropped } id = v.counted id := by
  funext c t
  rw [Snapshot.amount, totals?_snapshot h, counted]

lemma returned_append (id : SpaceId) (first later : List LedgerCall) :
    v.returned id (first ++ later) = v.returned id first ++ (v.run first).returned id later := by
  induction first generalizing v with
  | nil => rfl
  | cons c first ih =>
      rw [List.cons_append, returned, returned, ih, List.append_assoc]
      rfl

end Ledger

/-! ## Trackers -/

/-- A call of a tracker. -/
inductive TrackerCall where
  /-- Registers a space. -/
  | register (name : String)
  /-- Attempts to record an operation, while another caller holds the lock or not. -/
  | record (held : Bool) (op : Operation)

/-- The call removes no mapping from a range longer than the longest span. -/
def TrackerCall.SpanFits : TrackerCall → Prop
  | register _ => True
  | record _ op => op.SpanFits

instance : DecidablePred TrackerCall.SpanFits
  | .register _ => .isTrue trivial
  | .record _ op => inferInstanceAs (Decidable op.SpanFits)

namespace Tracker

/-- The tracker after a call.  A refused registration leaves it as it is. -/
def step (t : Tracker) : TrackerCall → Tracker
  | .register name =>
      match t.register name with
      | .ok (_, t') => t'
      | .error _ => t
  | .record held op => (t.record held op).2

/-- The tracker after several calls. -/
def run (t : Tracker) (calls : List TrackerCall) : Tracker := calls.foldl step t

/-- What a call returns for the space `id`, if it is accepted. -/
def answered (t : Tracker) (id : SpaceId) : TrackerCall → List Deltas
  | .register _ => []
  | .record held op => if op.target = id then (t.record held op).1.toOption.toList else []

/-- The deltas that calls return for the space `id`. -/
def returned (t : Tracker) (id : SpaceId) : List TrackerCall → List Deltas
  | [] => []
  | c :: calls => t.answered id c ++ returned (t.step c) id calls

/-- What a call hands on to the ledger: nothing if tracking is off or a held lock loses the update. -/
def carries (level : Level) (bestEffort : Bool) : TrackerCall → List LedgerCall
  | .register name => [.register name]
  | .record held op => if level = .off ∨ (bestEffort && held) = true then [] else [.operation op]

/-- The calls that reach the ledger. -/
def carried (t : Tracker) (calls : List TrackerCall) : List LedgerCall :=
  calls.flatMap (carries t.level t.bestEffort)

variable {t : Tracker} {calls : List TrackerCall}

/-- A call hands on one call or none. -/
lemma carries_cases (level : Level) (bestEffort : Bool) (c : TrackerCall) :
    carries level bestEffort c = [] ∨
      (∃ name, c = .register name ∧ carries level bestEffort c = [.register name]) ∨
      ∃ held op, c = .record held op ∧ carries level bestEffort c = [.operation op] := by
  cases c with
  | register name => exact .inr (.inl ⟨name, rfl, rfl⟩)
  | record held op =>
      rw [carries]
      split_ifs
      · exact .inl rfl
      · exact .inr (.inr ⟨held, op, rfl, rfl⟩)

/-- An attempt either leaves the ledger alone, and returns no change, or is what the ledger makes of
the operation. -/
lemma record_cases (t : Tracker) (held : Bool) (op : Operation) :
    (carries t.level t.bestEffort (.record held op) = [] ∧ (t.record held op).2.ledger = t.ledger ∧
      ((t.record held op).1 = .ok ∅ ∨ (t.record held op).1 = .error .contended)) ∨
    (carries t.level t.bestEffort (.record held op) = [.operation op] ∧
      (t.record held op).2.ledger = (t.ledger.apply op).2 ∧
      (t.record held op).1 = (t.ledger.apply op).1.mapError .rejected) := by
  rw [carries, record]
  by_cases hoff : t.level = .off
  · rw [if_pos hoff, if_pos (.inl hoff)]
    exact .inl ⟨rfl, rfl, .inl rfl⟩
  · rw [if_neg hoff]
    by_cases hlost : (t.bestEffort && held) = true
    · rw [if_pos hlost, if_pos (.inr hlost)]
      exact .inl ⟨rfl, rfl, .inr rfl⟩
    · rw [if_neg hlost, if_neg (not_or.mpr ⟨hoff, hlost⟩)]
      exact .inr ⟨rfl, rfl, rfl⟩

/-- The settings stay. -/
lemma settings_step (t : Tracker) (c : TrackerCall) :
    (t.step c).level = t.level ∧ (t.step c).bestEffort = t.bestEffort := by
  cases c with
  | register name =>
      rw [step, register]
      cases t.ledger.register name <;> exact ⟨rfl, rfl⟩
  | record held op =>
      rw [step, record]
      split_ifs <;> exact ⟨rfl, rfl⟩

lemma carried_cons (t : Tracker) (c : TrackerCall) (calls : List TrackerCall) :
    t.carried (c :: calls) = carries t.level t.bestEffort c ++ (t.step c).carried calls := by
  obtain ⟨hlevel, heffort⟩ := t.settings_step c
  rw [carried, carried, List.flatMap_cons, hlevel, heffort]

/-- **One call of the tracker** is what it hands on to the ledger. -/
lemma step_carries (t : Tracker) (c : TrackerCall) (id : SpaceId) :
    (t.step c).ledger = t.ledger.run (carries t.level t.bestEffort c) ∧
      ∀ col tag, Deltas.summed (t.answered id c) col tag =
        Deltas.summed (t.ledger.returned id (carries t.level t.bestEffort c)) col tag := by
  cases c with
  | register name =>
      refine ⟨?_, fun col tag => rfl⟩
      rw [carries, Ledger.run, List.foldl_cons, List.foldl_nil, step, register, Ledger.step]
      cases t.ledger.register name <;> rfl
  | record held op =>
      rcases t.record_cases held op with ⟨hcarries, hledger, hanswer⟩ | ⟨hcarries, hledger, hanswer⟩
      · rw [hcarries]
        refine ⟨hledger, ?_⟩
        intro col tag
        have hzero : Deltas.summed [∅] col tag = 0 := by
          rw [Deltas.summed, List.map_singleton, List.sum_singleton, Deltas.amount_empty]
        rw [answered]
        split_ifs
        · rcases hanswer with hanswer | hanswer
          · rw [hanswer]
            exact hzero
          · rw [hanswer]
            rfl
        · rfl
      · rw [hcarries]
        refine ⟨hledger, ?_⟩
        intro col tag
        rw [Ledger.returned, Ledger.returned, List.append_nil, answered, Ledger.answered, hanswer]
        cases (t.ledger.apply op).1 <;> rfl

/-- **A run of the tracker** is the run of the calls that reach the ledger. -/
lemma run_carried (t : Tracker) (calls : List TrackerCall) (id : SpaceId) :
    (t.run calls).ledger = t.ledger.run (t.carried calls) ∧
      ∀ col tag, Deltas.summed (t.returned id calls) col tag =
        Deltas.summed (t.ledger.returned id (t.carried calls)) col tag := by
  induction calls generalizing t with
  | nil => exact ⟨rfl, fun _ _ => rfl⟩
  | cons c calls ih =>
      obtain ⟨hledger, hsum⟩ := t.step_carries c id
      obtain ⟨hledger', hsum'⟩ := ih (t.step c)
      rw [carried_cons]
      refine ⟨?_, ?_⟩
      · show ((t.step c).run calls).ledger = _
        rw [hledger', hledger, Ledger.run, Ledger.run, Ledger.run, List.foldl_append]
      · intro col tag
        rw [returned, Ledger.returned_append, Deltas.summed_append, Deltas.summed_append, hsum,
          hsum', hledger]

lemma carried_append (t : Tracker) (first later : List TrackerCall) :
    t.carried (first ++ later) = t.carried first ++ t.carried later := List.flatMap_append

lemma settings_run (t : Tracker) (calls : List TrackerCall) :
    (t.run calls).level = t.level ∧ (t.run calls).bestEffort = t.bestEffort := by
  induction calls generalizing t with
  | nil => exact ⟨rfl, rfl⟩
  | cons c calls ih =>
      obtain ⟨hlevel, heffort⟩ := t.settings_step c
      obtain ⟨hlevel', heffort'⟩ := ih (t.step c)
      exact ⟨hlevel'.trans hlevel, heffort'.trans heffort⟩

/-- An operation that reached the ledger was recorded by one of the calls. -/
lemma exists_record_of_carried {first : List LedgerCall} {op : Operation}
    (h : first ++ [.operation op] <+: t.carried calls) :
    ∃ before held, before ++ [.record held op] <+: calls ∧ t.carried before = first := by
  induction calls generalizing first with
  | nil => simp [carried] at h
  | cons c calls ih =>
      have hcarried : t.carried (c :: calls) =
          carries t.level t.bestEffort c ++ t.carried calls := List.flatMap_cons
      rw [hcarried] at h
      have hlater : ∀ {rest : List LedgerCall}, first = carries t.level t.bestEffort c ++ rest →
          rest ++ [.operation op] <+: t.carried calls →
          ∃ before held, before ++ [.record held op] <+: c :: calls ∧ t.carried before = first := by
        intro rest hfirst hrest
        obtain ⟨before, held, hstart, hbefore⟩ := ih hrest
        refine ⟨c :: before, held, List.cons_prefix_cons.mpr ⟨rfl, hstart⟩, ?_⟩
        rw [hfirst, ← hbefore]
        exact List.flatMap_cons
      rcases carries_cases t.level t.bestEffort c with hnone | ⟨name, rfl, hone⟩ | ⟨held, op', rfl, hone⟩
      · rw [hnone, List.nil_append] at h
        exact hlater (by rw [hnone, List.nil_append]) h
      · rw [hone] at h
        cases first with
        | nil => cases (List.cons_prefix_cons.mp h).1
        | cons c' rest =>
            obtain ⟨rfl, hrest⟩ := List.cons_prefix_cons.mp h
            exact hlater (by rw [hone]; rfl) hrest
      · rw [hone] at h
        cases first with
        | nil =>
            obtain ⟨hop, _⟩ := List.cons_prefix_cons.mp h
            obtain rfl := LedgerCall.operation.inj hop
            exact ⟨[], held, List.prefix_append [_] calls, rfl⟩
        | cons c' rest =>
            obtain ⟨rfl, hrest⟩ := List.cons_prefix_cons.mp h
            exact hlater (by rw [hone]; rfl) hrest

lemma length_carried_le (t : Tracker) (calls : List TrackerCall) :
    (t.carried calls).length ≤ calls.length := by
  induction calls with
  | nil => exact le_refl _
  | cons c calls ih =>
      have hone : (carries t.level t.bestEffort c).length ≤ 1 := by
        rcases carries_cases t.level t.bestEffort c with h | ⟨_, _, h⟩ | ⟨_, _, _, h⟩ <;>
          simp [h]
      have hcarried : t.carried (c :: calls) =
          carries t.level t.bestEffort c ++ t.carried calls := List.flatMap_cons
      rw [hcarried, List.length_append, List.length_cons]
      omega

/-- No operation removes a mapping from a range longer than the longest span. -/
def SpansFit (calls : List TrackerCall) : Prop := ∀ c ∈ calls, c.SpanFits

instance : DecidablePred SpansFit := fun calls => inferInstanceAs (Decidable (∀ c ∈ calls, _))

lemma SpansFit.carried (h : SpansFit calls) (t : Tracker) :
    Ledger.SpansFit (t.carried calls) := by
  intro op hop
  obtain ⟨c, hc, hmem⟩ := List.mem_flatMap.mp hop
  rcases carries_cases t.level t.bestEffort c with hnone | ⟨name, rfl, hone⟩ | ⟨held, op', rfl, hone⟩
  · rw [hnone] at hmem
    cases hmem
  · rw [hone] at hmem
    cases List.mem_singleton.mp hmem
  · rw [hone] at hmem
    obtain rfl := LedgerCall.operation.inj (List.mem_singleton.mp hmem)
    exact h _ hc

end Tracker

/-! ## The comparison -/

/-- The comparison of two snapshots lists every space that either of them knows, once and in
ascending order, with the sum of the deltas that were returned for it; in the other direction it
lists the same spaces with the sums negated. -/
structure Snapshot.SumsUp (now was : Snapshot) (returned : SpaceId → List Deltas)
    (forth back : List (SpaceId × Deltas)) : Prop where
  since : now.since was = .ok forth
  before : was.since now = .ok back
  ascending : (forth.map Prod.fst).Pairwise fun i j => i.raw < j.raw
  listed : ∀ id, id ∈ forth.map Prod.fst ↔
    id ∈ now.spaces.map (·.id) ∨ id ∈ was.spaces.map (·.id)
  distinct : ∀ p ∈ forth, p.2.Distinct
  forward : ∀ p ∈ forth, ∀ c t, p.2.amount c t = Deltas.summed (returned p.1) c t
  same : back.map Prod.fst = forth.map Prod.fst
  backward : ∀ p ∈ back, ∀ c t, p.2.amount c t = -Deltas.summed (returned p.1) c t

/-- Snapshots whose counters differ by the sums are compared so. -/
lemma Snapshot.exists_sumsUp {now was : Snapshot} (hnow : now.Moderate) (hwas : was.Moderate)
    {returned : SpaceId → List Deltas}
    (h : ∀ id c t, (now.amount id c t : ℤ) = was.amount id c t + Deltas.summed (returned id) c t) :
    ∃ forth back, now.SumsUp was returned forth back := by
  obtain ⟨forth, hforth, hids, hdifference⟩ := exists_since hnow hwas
  obtain ⟨back, hback, hids', hdifference'⟩ := exists_since hwas hnow
  exact ⟨forth, back, {
    since := hforth
    before := hback
    ascending := hids ▸ pairwise_ids now was
    listed := fun id => hids ▸ mem_ids_iff now was id
    distinct := fun p hp => (hdifference p hp).1
    forward := fun p hp c t => by
      rw [(hdifference p hp).2, h]
      omega
    same := by rw [hids, hids', ids_comm]
    backward := fun p hp c t => by
      rw [(hdifference' p hp).2, h]
      omega }⟩

namespace Tracker

/-- **The comparison of two snapshots is what was returned in between.**  A tracker of any settings
is called any number of times, a snapshot is taken, and then it is called again.  If no counter of
the two snapshots is beyond the longest span, their comparison lists every space once, in ascending
order, with the sum of the deltas returned for it, and the other direction is the negative.  No
removal of mappings may reach over more than the longest span, before the first snapshot or after
it.  The one exception is a history in which an operation is broken off for want of slots, after two
billion calls at least. -/
theorem comparison_sums_up (config : Config) (before later : List TrackerCall)
    (hspans : SpansFit (before ++ later))
    (hwas : ((create config).run before).snapshot.Moderate)
    (hnow : ((create config).run (before ++ later)).snapshot.Moderate) :
    (∃ first held op, first ++ [.record held op] <+: before ++ later ∧
      ((create config).run first).ledger.BreaksOff op ∧ Slots.limit < 2 * first.length + 4) ∨
    ∃ forth back, ((create config).run (before ++ later)).snapshot.SumsUp
      ((create config).run before).snapshot
      (fun id => ((create config).run before).returned id later) forth back := by
  have hledger : ∀ calls, ((create config).run calls).ledger =
      (Ledger.create config).run ((create config).carried calls) := fun calls =>
    ((create config).run_carried calls .process).1
  have hfits := hspans.carried (create config)
  by_cases hsmooth : (Ledger.create config).Smooth ((create config).carried (before ++ later))
  · refine .inr (Snapshot.exists_sumsUp hnow hwas ?_)
    intro id c t
    have hsplit := (create config).carried_append before later
    obtain ⟨hlevel, heffort⟩ := (create config).settings_run before
    have hcarried : ((create config).run before).carried later = (create config).carried later := by
      rw [carried, carried, hlevel, heffort]
    have hsound := (Ledger.exact_run config _
      (hfits.mono (hsplit ▸ List.prefix_append _ _))
      (hsmooth.mono (hsplit ▸ List.prefix_append _ _))).sound
    have hrest : ((Ledger.create config).run ((create config).carried before)).Smooth
        ((create config).carried later) := by
      intro first op hfirst
      have hop := hsmooth ((create config).carried before ++ first) op
        (by rw [hsplit, List.append_assoc, List.prefix_append_right_inj]; exact hfirst)
      rwa [Ledger.run, List.foldl_append] at hop
    have hrun := hsound.counted_run
      (fun op hop => hfits op (hsplit ▸ List.mem_append_right _ hop)) hrest id c t
    have hsum := (((create config).run before).run_carried later id).2 c t
    rw [snapshot, snapshot, Ledger.amount_snapshot, Ledger.amount_snapshot, hsum, hcarried, hledger,
      hledger, hsplit, Ledger.run, List.foldl_append]
    · exact hrun
    · rw [hledger]
      exact Ledger.size_run_le config _
    · rw [hledger]
      exact Ledger.size_run_le config _
  · obtain ⟨calls, op, hstart, hbefore, hop⟩ := Ledger.exists_breaksOff hsmooth
    have hlt := Ledger.lt_of_breaksOff config hfits hstart hbefore hop
    obtain ⟨first, held, hfirst, rfl⟩ := exists_record_of_carried hstart
    have hle := (create config).length_carried_le first
    rw [← hledger] at hop
    exact .inl ⟨first, held, op, hfirst, hop, by omega⟩

/-- A reservation, and then its release beside memory of a space that is registered only now. -/
def sessionBefore : List TrackerCall :=
  [.record false (.reserve .process 0x1000 0x4000 ⟨7⟩ {}),
    .record true (.commit .process 0x1000 0x1000 ⟨7⟩ {})]

def sessionLater : List TrackerCall :=
  [.register "device", .record false (.reserve ⟨1⟩ 0 0x2000 ⟨8⟩ {}),
    .record false (.release .process 0x2000 0x1000), .record false (.release ⟨2⟩ 0 0x1000),
    .record false (.map ⟨1⟩ 0x8000 0x1000 0 ⟨8⟩ {})]

/-- The comparison of the session, as it is listed. -/
theorem session_sums_up :
    SpansFit (sessionBefore ++ sessionLater) ∧
      ((create {}).run sessionBefore).snapshot.Moderate ∧
      ((create {}).run (sessionBefore ++ sessionLater)).snapshot.Moderate ∧
      (((create {}).run (sessionBefore ++ sessionLater)).snapshot.since
          ((create {}).run sessionBefore).snapshot).toOption.map
            (·.map fun p => (p.1, p.2.toList)) =
        some [(⟨0⟩, [(⟨7⟩, ⟨-0x1000, 0⟩), (⟨8⟩, ⟨0x1000, 0⟩)]), (⟨1⟩, [(⟨8⟩, ⟨0x2000, 0⟩)])] ∧
      ∃ forth back, ((create {}).run (sessionBefore ++ sessionLater)).snapshot.SumsUp
        ((create {}).run sessionBefore).snapshot
        (fun id => ((create {}).run sessionBefore).returned id sessionLater) forth back := by
  have hspans : SpansFit (sessionBefore ++ sessionLater) := by decide
  have hwas : ((create {}).run sessionBefore).snapshot.Moderate :=
    Snapshot.moderate_of_forall (by decide +kernel)
  have hnow : ((create {}).run (sessionBefore ++ sessionLater)).snapshot.Moderate :=
    Snapshot.moderate_of_forall (by decide +kernel)
  refine ⟨hspans, hwas, hnow, by decide +kernel, ?_⟩
  rcases comparison_sums_up {} sessionBefore sessionLater hspans hwas hnow with
    ⟨first, held, op, hstart, _, hlimit⟩ | hsums
  · -- so few calls do not use up the slots
    have hle := hstart.length_le
    rw [List.length_append] at hle
    have hlength : (sessionBefore ++ sessionLater).length = 7 := rfl
    have hslots : Slots.limit = 4294967296 := rfl
    omega
  · exact hsums

/-- Two mappings of which the second grew too long to be removed: their removal releases the first
and books nothing.  The rest of the memory is released piece by piece. -/
def tornBefore : List TrackerCall :=
  [.register "device", .record false (.map ⟨1⟩ 0 0x1000 0 ⟨1⟩ {}),
    .record false (.map ⟨1⟩ 0x2000 maxSpan 0x2000 ⟨2⟩ {}),
    .record false (.map ⟨1⟩ (0x2000 + maxSpan) 0x1000 (0x2000 + maxSpan) ⟨2⟩ {}),
    .record false (.unmap ⟨1⟩ 0 (maxSpan + 0x4000)), .record false (.release .process 0x2000 maxSpan),
    .record false (.release .process (0x2000 + maxSpan) 0x1000)]

/-- Nearly all addresses are reserved and released again, without any removal of mappings. -/
def tornLater : List TrackerCall :=
  [.record false (.reserve .process 0 maxSpan ⟨1⟩ {}),
    .record false (.reserve .process maxSpan maxSpan ⟨1⟩ {}),
    .record false (.release .process 0 maxSpan), .record false (.release .process maxSpan maxSpan)]

/-- After a removal that was torn, the totals are too high and saturate: the deltas returned later
cancel out, and the comparison shows a change all the same. -/
theorem torn_not_summed :
    SpansFit tornLater ∧ ((create {}).run tornBefore).snapshot.Moderate ∧
      ((create {}).run (tornBefore ++ tornLater)).snapshot.Moderate ∧
      (((create {}).run (tornBefore ++ tornLater)).snapshot.since
          ((create {}).run tornBefore).snapshot).toOption.map
            (·.map fun p => (p.1, p.2.amount .reserved ⟨1⟩)) =
        some [(⟨0⟩, -4095), (⟨1⟩, 0)] ∧
      Deltas.summed (((create {}).run tornBefore).returned ⟨0⟩ tornLater) .reserved ⟨1⟩ = 0 ∧
      ¬ ∃ forth back, ((create {}).run (tornBefore ++ tornLater)).snapshot.SumsUp
        ((create {}).run tornBefore).snapshot
        (fun id => ((create {}).run tornBefore).returned id tornLater) forth back := by
  have hlisted : (((create {}).run (tornBefore ++ tornLater)).snapshot.since
      ((create {}).run tornBefore).snapshot).toOption.map
        (·.map fun p => (p.1, p.2.amount .reserved ⟨1⟩)) =
        some [(⟨0⟩, -4095), (⟨1⟩, 0)] := by decide +kernel
  have hreturned : Deltas.summed (((create {}).run tornBefore).returned ⟨0⟩ tornLater)
      .reserved ⟨1⟩ = 0 := by decide +kernel
  refine ⟨by decide, Snapshot.moderate_of_forall (by decide +kernel),
    Snapshot.moderate_of_forall (by decide +kernel), hlisted, hreturned, ?_⟩
  rintro ⟨forth, back, hsums⟩
  have hforth := hsums.since
  rw [hforth] at hlisted
  have hmem : ((⟨0⟩, -4095) : SpaceId × ℤ) ∈
      forth.map (fun p => (p.1, p.2.amount .reserved ⟨1⟩)) := by
    have hsame : forth.map (fun p => (p.1, p.2.amount .reserved ⟨1⟩)) = _ := Option.some.inj hlisted
    rw [hsame]
    exact List.mem_cons_self
  obtain ⟨p, hp, heq⟩ := List.mem_map.mp hmem
  obtain ⟨hid, hamount⟩ := Prod.mk.inj heq
  rw [hsums.forward p hp, hid, hreturned] at hamount
  cases hamount

end Tracker

end RegionLedger
