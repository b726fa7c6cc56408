import RegionLedger.Proofs.Space.RunningTotals

/-!
# What a ledger returns

The totals of a space move by the deltas that its operations return and by nothing else.  So along a
run of calls a counter moves by the sum of what was returned for its space, as long as no removal of
mappings and no want of slots leaves the totals behind the maps.

* `Ledger.returned` — the deltas that calls return for a space.
* `Ledger.counted`, `Ledger.Sound.counted_run` — the counters of a space, and how they move.
-/

namespace RegionLedger

/-- The sum of the changes of a tag, as integers. -/
def Deltas.summed (ds : List Deltas) (c : Column) (t : Tag) : ℤ := (ds.map (·.amount c t)).sum

lemma Deltas.summed_append (ds es : List Deltas) (c : Column) (t : Tag) :
    summed (ds ++ es) c t = summed ds c t + summed es c t := by
  rw [summed, List.map_append, List.sum_append]
  rfl

namespace Ledger

variable {v : Ledger} {id : SpaceId}

/-- What a call returns for the space `id`, if it is carried out. -/
def answered (v : Ledger) (id : SpaceId) : LedgerCall → List Deltas
  | .register _ => []
  | .operation op => if op.target = id then (v.apply op).1.toOption.toList else []

/-- The deltas that calls return for the space `id`. -/
def returned (v : Ledger) (id : SpaceId) : List LedgerCall → List Deltas
  | [] => []
  | c :: calls => v.answered id c ++ returned (v.step c) id calls

/-- The bytes of a tag of a space by its totals; a space that is not known has none. -/
def counted (v : Ledger) (id : SpaceId) (c : Column) (t : Tag) : ℕ :=
  (((v.space? id).map Space.totals).getD .empty).amount c t

lemma counted_congr {v' : Ledger} (h : v'.space? id = v.space? id) :
    v'.counted id = v.counted id := by
  funext c t
  rw [counted, counted, h]

/-- **Totals move by what is returned**, in one call. -/
lemma Sound.counted_step (hv : v.Sound) {call : LedgerCall} (hspans : SpansFit [call])
    (hsmooth : v.Smooth [call]) (id : SpaceId) (c : Column) (t : Tag) :
    ((v.step call).counted id c t : ℤ) =
      v.counted id c t + Deltas.summed (v.answered id call) c t := by
  cases call with
  | register name =>
      have hcounted : (v.step (.register name)).counted id c t = v.counted id c t := by
        rcases v.register_cases name with hstep | ⟨new, hraw, hspace, _⟩
        · rw [hstep]
        · by_cases hid : id = new
          · -- a new space has no bytes, and before it was not known
            have hnone : v.space? id = none := by
              rw [space?_eq_none_iff, hid, hraw]
            rw [counted, counted, hspace, if_pos hid, hnone]
            rfl
          · rw [counted_congr ((hspace id).trans (if_neg hid))]
      rw [hcounted, answered, Deltas.summed, List.map_nil, List.sum_nil, Int.add_zero]
  | operation op =>
      have hop : ¬ v.BreaksOff op := hsmooth [] op (List.prefix_refl _)
      have hspan : op.SpanFits := hspans op (List.mem_singleton_self _)
      show ((v.apply op).2.counted id c t : ℤ) = _
      cases happly : v.apply op with
      | mk answer v' =>
          cases answer with
          | error e =>
              have hsame := hv.space?_of_refused hspan hop happly id
              have hnone : v.answered id (.operation op) = [] := by
                rw [answered, happly]
                exact ite_self _
              rw [counted_congr hsame, hnone, Deltas.summed, List.map_nil, List.sum_nil,
                Int.add_zero]
          | ok d =>
              obtain ⟨⟨s, s', hs, hs', hmoved⟩, helsewhere⟩ := hv.books hspan hop happly
              by_cases hid : op.target = id
              · subst hid
                have hone : v.answered op.target (.operation op) = [d] := by
                  rw [answered, if_pos rfl, happly]
                  rfl
                rw [hone, Deltas.summed, List.map_singleton, List.sum_singleton, counted, counted, hs,
                  hs']
                exact (hmoved c t).2
              · have hnone : v.answered id (.operation op) = [] := if_neg hid
                rw [counted_congr (helsewhere id (Ne.symm hid)), hnone, Deltas.summed, List.map_nil,
                  List.sum_nil, Int.add_zero]

lemma Smooth.tail {call : LedgerCall} {calls : List LedgerCall} (h : v.Smooth (call :: calls)) :
    v.Smooth [call] ∧ (v.step call).Smooth calls := by
  refine ⟨h.mono (List.prefix_append [call] calls), ?_⟩
  intro before op hstart
  exact h (call :: before) op (List.cons_prefix_cons.mpr ⟨rfl, hstart⟩)

/-- **Totals move by what is returned**, along a run.  The induction is on the calls. -/
theorem Sound.counted_run (hv : v.Sound) {calls : List LedgerCall} (hspans : SpansFit calls)
    (hsmooth : v.Smooth calls) (id : SpaceId) (c : Column) (t : Tag) :
    ((v.run calls).counted id c t : ℤ) =
      v.counted id c t + Deltas.summed (v.returned id calls) c t := by
  induction calls generalizing v with
  | nil => exact (Int.add_zero _).symm
  | cons call calls ih =>
      obtain ⟨hfirst, hrest⟩ := hsmooth.tail
      have hspan : SpansFit [call] := hspans.mono (List.prefix_append [call] calls)
      have hspans' : SpansFit calls := fun op hop => hspans op (List.mem_cons_of_mem _ hop)
      have hstep := hv.counted_step hspan hfirst id c t
      have hrun := ih (hv.step hspan hfirst).1 hspans' hrest
      rw [returned, Deltas.summed_append]
      show (((v.step call).run calls).counted id c t : ℤ) = _
      omega

end Ledger

end RegionLedger
