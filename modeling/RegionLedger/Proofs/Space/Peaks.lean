import RegionLedger.Proofs.Accounting.Stages
import RegionLedger.Proofs.Space.Unmapping

/-!
# Peaks

Totals move by deltas only, and a move of a counter leaves its peak no lower than its count.  So in
every space no count of committed bytes is above its peak, also where a removal of mappings that was
refused midway has left the totals behind the maps.

* `Space.peaked_act` — one operation.
* `Ledger.space_run` — what every operation keeps holds of all spaces after every run.
* `Ledger.peaked_run` — the peaks after every run.
-/

namespace RegionLedger

namespace Space

variable {s : Space}

lemma peaked_takeReserved (hs : s.totals.Peaked)
    (step : Except RegionError (Deltas × RegionMap Placement)) :
    (s.takeReserved step).2.totals.Peaked := by
  cases step with
  | error e => exact hs
  | ok answer => exact hs.apply _

lemma peaked_takeCommitted (hs : s.totals.Peaked)
    (step : Except RegionError (Deltas × RegionMap Attribution)) :
    (s.takeCommitted step).2.totals.Peaked := by
  cases step with
  | error e => exact hs
  | ok answer => exact hs.apply _

lemma peaked_takeBoth (hs : s.totals.Peaked)
    (step : Except RegionError (Deltas × RegionMap Placement))
    (f : RegionMap Attribution → Except RegionError (Deltas × RegionMap Attribution)) :
    (s.takeBoth step f).2.totals.Peaked := by
  cases step with
  | error e => exact hs
  | ok answer =>
      cases hcommitted : s.committed with
      | none =>
          rw [takeBoth_of_none hcommitted]
          exact hs.apply _
      | some m =>
          cases hf : f m with
          | error e =>
              rw [takeBoth_of_error hcommitted hf]
              exact hs
          | ok answer' =>
              cases hsum : answer.1.plus answer'.1.commitOnly with
              | error o =>
                  rw [takeBoth_of_overflow hcommitted hf hsum]
                  exact hs
              | ok sum =>
                  rw [takeBoth_of_ok hcommitted hf hsum]
                  exact hs.apply sum

/-- **Peaks stay above their counts** in every operation. -/
theorem peaked_act (op : Operation) (ref : StackRef) (hs : s.totals.Peaked) :
    (op.act ref s).2.totals.Peaked := by
  cases op with
  | reserve id start size tag stack => exact peaked_takeReserved hs _
  | commit id start size tag stack =>
      show (s.commit start size ref tag).2.totals.Peaked
      rw [Space.commit]
      cases s.committed with
      | none => exact peaked_takeReserved hs _
      | some m => exact peaked_takeCommitted hs _
  | uncommit id start size stack =>
      show (s.uncommit start size ref).2.totals.Peaked
      rw [Space.uncommit]
      cases s.committed with
      | none => exact peaked_takeReserved hs _
      | some m => exact peaked_takeCommitted hs _
  | release id start size => exact peaked_takeBoth hs _ _
  | map id base size offset tag stack => exact peaked_takeReserved hs _
  | unmap id base size =>
      show (s.unmap id base (base + size)).2.totals.Peaked
      cases hrun : releaseEach s.reserved ∅ (s.mapped id base (base + size)) with
      | mk answer m =>
          cases answer with
          | error e =>
              rw [unmap_of_error hrun]
              exact hs
          | ok d =>
              rw [unmap_of_ok hrun]
              exact hs.apply _
  | retag id start size tag => exact peaked_takeBoth hs _ _

end Space

namespace Ledger

/-- **What every operation keeps holds of all spaces** after every run. -/
theorem space_run {P : Space → Prop} (hcreate : ∀ id name seed, P (.create id name seed))
    (hact : ∀ op ref s, P s → P (Operation.act ref op s).2) (config : Config)
    (calls : List LedgerCall) {id : SpaceId} {s : Space}
    (hs : ((create config).run calls).space? id = some s) : P s := by
  induction calls using List.reverseRecOn generalizing id s with
  | nil =>
      obtain ⟨hlt, hspace⟩ := Array.getElem?_eq_some_iff.mp hs
      have hfirst : id.raw.toNat = 0 := Nat.lt_one_iff.mp hlt
      simp only [run, List.foldl_nil, create, hfirst] at hspace
      exact hspace ▸ hcreate .process processName config.seed
  | append_singleton calls call ih =>
      rw [run_concat] at hs
      cases call with
      | register name =>
          rcases ((create config).run calls).register_cases name with hstep | ⟨new, -, hspace, -⟩
          · rw [hstep] at hs
            exact ih hs
          · rw [hspace] at hs
            split_ifs at hs
            · exact Option.some.inj hs ▸ hcreate new name _
            · exact ih hs
      | operation op =>
          have hstep : ((create config).run calls).step (.operation op) =
              (((create config).run calls).apply op).2 := rfl
          rcases apply_cases (charted_run config calls).pos op with
            ⟨e, happly⟩ | ⟨ref, store, t, -, ht, -, happly⟩
          · rw [hstep, happly] at hs
            exact ih hs
          · rw [hstep, happly] at hs
            have hspace := hs.symm.trans (space?_set ht (op.act ref t).2 id)
            split_ifs at hspace
            · exact Option.some.inj hspace ▸ hact op ref t (ih ht)
            · exact ih hspace.symm

/-- **Peaks stay above their counts** after every run. -/
theorem peaked_run (config : Config) (calls : List LedgerCall) {id : SpaceId} {s : Space}
    (hs : ((create config).run calls).space? id = some s) : s.totals.Peaked := by
  refine space_run (P := fun s => s.totals.Peaked) ?_ ?_ config calls hs
  · intro id name seed p hp
    cases hp
  · intro op ref s hs
    exact Space.peaked_act op ref hs

end Ledger

end RegionLedger
