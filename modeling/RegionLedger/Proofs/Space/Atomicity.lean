import RegionLedger.Proofs.Space.Writes

/-!
# Refused operations

A refused operation leaves the spaces as they are; at most its call stack was stored.  There is one
exception.  Mappings are removed run after run, and neighbouring ranges that were mapped one by one
can have grown together to a run longer than the longest span, which cannot be released in one step.
A removal that meets such a run after others stops there: what it released by then stays released,
and is not booked.

A removal also ends midway when it has released more bytes of one tag than a signed word can tell.
That is no refusal, since the program stops with it.

* `Ledger.Untouched` — nothing changed but perhaps the call stacks.
* `Ledger.Torn` — a removal of mappings stopped at a run that is too long.
* `Ledger.Overrun` — a removal of mappings with which the program stopped.
* `Ledger.refused_untouched_or_torn` — one or the other becomes of every refused operation.
-/

namespace RegionLedger

namespace Ledger

variable {v v' : Ledger} {op : Operation} {e : LedgerError} {id : SpaceId}

/-- Nothing changed, but the call stack of the operation may have been stored. -/
structure Untouched (v : Ledger) (op : Operation) (v' : Ledger) : Prop where
  spaces : v'.spaces = v.spaces
  seed : v'.seed = v.seed
  callStacks : v'.callStacks = v.callStacks ∨
    ∃ stack ref, op.stack? = some stack ∧ v.callStacks.push stack = .ok (ref, v'.callStacks)

/-- A removal of mappings released some runs and stopped at one that is too long.  Bytes of the
process changed, and the totals did not. -/
def Torn (v : Ledger) (op : Operation) (e : LedgerError) (v' : Ledger) : Prop :=
  ∃ s cause m, v.space? .process = some s ∧ e = .region cause ∧ s.StopsAtLong op cause m ∧
    v' = { v with spaces := v.spaces.setIfInBounds 0 { s with reserved := m } } ∧
    ∃ x, v.stateAt x ≠ .released ∧ v'.stateAt x = .released

/-- A removal of mappings released runs with more bytes of one tag than a signed word can tell, and the
program stopped.  The totals did not change. -/
def Overrun (v : Ledger) (op : Operation) (e : LedgerError) (v' : Ledger) : Prop :=
  ∃ s m, v.space? .process = some s ∧ e = .region (.overflow .add) ∧
    s.StopsAtSum op (.overflow .add) m ∧
    v' = { v with spaces := v.spaces.setIfInBounds 0 { s with reserved := m } }

/-- Putting a space where it is changes nothing. -/
lemma setIfInBounds_self {s : Space} (hs : v.space? id = some s) :
    v.spaces.setIfInBounds id.raw.toNat s = v.spaces := by
  obtain ⟨hlt, hget⟩ := Array.getElem?_eq_some_iff.mp hs
  rw [Array.setIfInBounds, dif_pos hlt, ← hget, Array.set_getElem_self]

/-- At most the call stack was stored. -/
lemma Stores.untouched {ref : StackRef} {callStacks : StackStore}
    (h : v.Stores op ref callStacks) : v.Untouched op { v with callStacks } := by
  refine ⟨rfl, rfl, ?_⟩
  rw [Stores] at h
  cases hstack : op.stack? with
  | none =>
      rw [hstack] at h
      exact .inl h.2
  | some stack =>
      rw [hstack] at h
      exact .inr ⟨stack, ref, rfl, h⟩

/-- Of the bytes that a torn removal released, some were in use. -/
lemma exists_released {s : Space} (hmaps : s.Maps) {cause : RegionError}
    {m : RegionMap Placement} (hstops : s.StopsAtLong op cause m) :
    ∃ x, (s.reserved.sideAt x).state ≠ .released ∧ (m.sideAt x).state = .released := by
  obtain ⟨id, base, size, short, long, rest, _, _, hsplit, hsome, _, _, hsides⟩ := hstops
  obtain ⟨r, hr⟩ := List.exists_mem_of_ne_nil short hsome
  have hmem : r ∈ s.mapped id base (base + size) := by
    rw [hsplit]
    exact List.mem_append_left _ hr
  obtain ⟨hlt, _, hne, _⟩ := hmaps.mem_mapped hmem
  have hin : r.start ≤ r.start ∧ r.start < r.stop := ⟨UInt64.le_refl _, hne⟩
  obtain ⟨_, hreserved, _⟩ := ((hmaps.mapped_spec id hlt).2 r.start).mp ⟨r, hmem, hin⟩
  refine ⟨r.start, ?_, ?_⟩
  · intro hreleased
    rw [hreleased] at hreserved
    cases hreserved
  · rw [hsides, if_pos ⟨r, hr, hin⟩]
    rfl

/-- **The cases of an operation that is not carried out.** -/
theorem Charted.refused_cases (hv : v.Charted) (happly : v.apply op = (.error e, v'))
    (hmemory : e ≠ .region (.outOfMemory .outOfSlots)) :
    v.Untouched op v' ∨ v.Torn op e v' ∨ v.Overrun op e v' := by
  rcases hv.apply_cases op with ⟨_, hrefused⟩ | ⟨ref, callStacks, s, r, hstores, hs, hyields, hr⟩
  · rw [hrefused, Prod.mk.injEq] at happly
    obtain ⟨_, rfl⟩ := happly
    exact .inl ⟨rfl, rfl, .inl rfl⟩
  · rw [happly, Prod.mk.injEq] at hr
    obtain ⟨herror, rfl⟩ := hr
    cases hyields with
    | refused cause =>
        refine .inl ?_
        rw [setIfInBounds_self hs]
        exact hstores.untouched
    | done => cases herror
    | stopped cause m _ _ _ hcause =>
        have he : e = .region cause := Except.error.inj herror
        rcases hcause with rfl | hstops | hstops
        · exact absurd he hmemory
        · obtain ⟨x, hused, hreleased⟩ := exists_released (hv.maps _ s hs) hstops
          -- a removal of mappings acts on the process, and stores no call stack
          have hremoval := hstops
          obtain ⟨_, _, _, _, _, _, rfl, _⟩ := hremoval
          obtain ⟨_, rfl⟩ := hstores
          refine .inr (.inl ⟨s, cause, m, hs, he, hstops, rfl, x, ?_, ?_⟩)
          · rwa [stateAt_eq hs]
          · have hs' := (space?_set hs { s with reserved := m } .process).trans (if_pos rfl)
            rwa [stateAt_eq hs']
        · have hremoval := hstops
          obtain ⟨_, _, _, _, _, _, _, rfl, _, _, rfl, _⟩ := hremoval
          obtain ⟨_, rfl⟩ := hstores
          exact .inr (.inr ⟨s, m, hs, he, hstops, rfl⟩)

/-- **What becomes of a refused operation.**  After any run of calls, an operation that is refused for
another reason than want of memory leaves all spaces as they were, with their totals and peaks, and
at most stored its call stack; unless it removes mappings from more than the longest span, and comes
to a run longer than that after it released others.  The one other end is that the program stops: an
operation removes mappings from more than `2 ^ 63` bytes, and releases more than that of one tag. -/
theorem refused_untouched_or_torn (config : Config) (calls : List LedgerCall) (op : Operation)
    (e : LedgerError) (v' : Ledger)
    (happly : ((create config).run calls).apply op = (.error e, v'))
    (hmemory : e ≠ .region (.outOfMemory .outOfSlots)) :
    ((create config).run calls).Untouched op v' ∨ ((create config).run calls).Torn op e v' ∨
      ((create config).run calls).Overrun op e v' :=
  (charted_run config calls).refused_cases happly hmemory

/-- Whether an answer is some refusal can be computed, though deltas have no decidable equality. -/
instance decidableEqError (r : Except LedgerError Deltas) (e : LedgerError) :
    Decidable (r = .error e) :=
  match r with
  | .error e' => decidable_of_iff (e' = e) (by rw [Except.error.injEq])
  | .ok _ => isFalse nofun

lemma apply_eq_of_error (h : (v.apply op).1 = .error e) :
    v.apply op = (.error e, (v.apply op).2) := by
  rw [← h]

/-- A device with two mapped ranges, of which the second grew together from two. -/
def grownCalls : List LedgerCall :=
  [.register "device", .operation (.map ⟨1⟩ 0 0x1000 0 ⟨1⟩ {}),
    .operation (.map ⟨1⟩ 0x2000 maxSpan 0x2000 ⟨1⟩ {}),
    .operation (.map ⟨1⟩ (0x2000 + maxSpan) 0x1000 (0x2000 + maxSpan) ⟨1⟩ {})]

/-- An empty range is refused, and nothing changes but the call stacks. -/
theorem empty_range_untouched : ∃ v', ((create {}).run grownCalls).apply
      (.commit ⟨1⟩ 0x1000 0 ⟨2⟩ ⟨[16]⟩) = (.error (.region (.invalidRange 0x1000 0)), v') ∧
    LedgerError.region (.invalidRange 0x1000 0) ≠ .region (.outOfMemory .outOfSlots) ∧
    v'.spaces = ((create {}).run grownCalls).spaces := by
  have herror : (((create {}).run grownCalls).apply (.commit ⟨1⟩ 0x1000 0 ⟨2⟩ ⟨[16]⟩)).1 =
      .error (.region (.invalidRange 0x1000 0)) := by decide +kernel
  have happly := apply_eq_of_error herror
  refine ⟨_, happly, by decide, ?_⟩
  rcases refused_untouched_or_torn {} grownCalls _ _ _ happly (by decide) with h | h | h
  · exact h.spaces
  · obtain ⟨_, _, _, _, _, ⟨_, _, _, _, _, _, hop, _⟩, _⟩ := h
    cases hop
  · obtain ⟨_, _, _, herror, _⟩ := h
    cases herror

/-- The removal of both ranges is refused at the second.  By then the first is released, which the
totals do not know. -/
theorem grown_torn : ∃ e v',
    ((create {}).run grownCalls).apply (.unmap ⟨1⟩ 0 (maxSpan + 0x4000)) = (.error e, v') ∧
    e ≠ .region (.outOfMemory .outOfSlots) ∧
    ((create {}).run grownCalls).stateAt 0 = .reserved ∧ v'.stateAt 0 = .released ∧
    (v'.totals? .process).toOption = (((create {}).run grownCalls).totals? .process).toOption ∧
    ¬ ((create {}).run grownCalls).Untouched (.unmap ⟨1⟩ 0 (maxSpan + 0x4000)) v' := by
  have hbefore : ((create {}).run grownCalls).stateAt 0 = .reserved := by decide +kernel
  have hafter : (((create {}).run grownCalls).apply
      (.unmap ⟨1⟩ 0 (maxSpan + 0x4000))).2.stateAt 0 = .released := by decide +kernel
  have herror : (((create {}).run grownCalls).apply (.unmap ⟨1⟩ 0 (maxSpan + 0x4000))).1 =
      .error (.region (.invalidRange 0x2000 (maxSpan + 0x1000))) := by decide +kernel
  refine ⟨_, _, apply_eq_of_error herror, by decide, hbefore, hafter, by decide +kernel, ?_⟩
  intro h
  have hsame := space?_congr h.spaces .process
  rw [stateAt, hsame] at hafter
  rw [stateAt, hafter] at hbefore
  cases hbefore

end Ledger

end RegionLedger
