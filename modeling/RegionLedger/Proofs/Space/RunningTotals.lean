import Mathlib.Order.Bounds.Basic
import RegionLedger.Proofs.Space.Sound
import RegionLedger.Space.Ledger

/-!
# The running totals of a ledger

Totals are never counted; they only move by the deltas that operations return.  Along every run of
registrations and operations they stay the byte counts of the maps all the same, and the peak of a
tag is the highest count of committed bytes it ever had.

An operation that works on several maps or several runs is broken off if memory runs out on the way,
and what it did by then is not booked.  That takes a map with nearly as many boundaries as there are
slots, so no run of fewer than two billion calls comes to it.

* `LedgerCall`, `Ledger.step`, `Ledger.run` — registrations and operations, and runs of them.
* `Ledger.BreaksOff` — an operation is broken off; `Ledger.smooth_of_length_le` rules it out.
* `Ledger.Outcome` — what becomes of the spaces of a ledger.
* `Ledger.run_totals_exact` — the totals after every call.
-/

namespace RegionLedger

/-- A call of a ledger. -/
inductive LedgerCall where
  /-- Registers a space. -/
  | register (name : String)
  /-- Carries out an operation. -/
  | operation (op : Operation)

/-- The space whose maps the operation changes: mappings are kept in the process. -/
def Operation.target : Operation → SpaceId
  | map .. | unmap .. => .process
  | op => op.space

/-- The operation removes no mapping from a range longer than the longest span. -/
def Operation.SpanFits (op : Operation) : Prop :=
  ∀ id base size, op = .unmap id base size → size ≤ maxSpan

lemma Operation.spanFits_unmap_iff {id : SpaceId} {base : Address} {size : UInt64} :
    (Operation.unmap id base size).SpanFits ↔ size ≤ maxSpan := by
  refine ⟨fun h => h id base size rfl, ?_⟩
  rintro h _ _ _ hop
  cases hop
  exact h

instance : DecidablePred Operation.SpanFits
  | .unmap _ _ _ => decidable_of_iff _ Operation.spanFits_unmap_iff.symm
  | .reserve .. | .commit .. | .uncommit .. | .release .. | .map .. | .retag .. =>
    .isTrue fun _ _ _ hop => nomatch hop

namespace Ledger

/-- The ledger after a call.  A refused registration leaves it as it is. -/
def step (v : Ledger) : LedgerCall → Ledger
  | .register name =>
      match v.register name with
      | .ok (_, v') => v'
      | .error _ => v
  | .operation op => (v.apply op).2

/-- The ledger after several calls. -/
def run (v : Ledger) (calls : List LedgerCall) : Ledger := calls.foldl step v

/-- The operation runs out of memory after it changed a space. -/
def BreaksOff (v : Ledger) (op : Operation) : Prop :=
  (v.apply op).1 = .error (.region (.outOfMemory .outOfSlots)) ∧
    ∃ id, (v.apply op).2.space? id ≠ v.space? id

/-! ## Outcomes -/

/-- What becomes of the spaces: a refused call leaves them as they are, another one changes one space
as that space answers. -/
inductive Outcome (v : Ledger) (id : SpaceId) : Except LedgerError Deltas × Ledger → Prop where
  | refused (e : LedgerError) (v' : Ledger) (same : ∀ j, v'.space? j = v.space? j)
      (size : v'.size = v.size) : Outcome v id (.error e, v')
  | done (d : Deltas) (v' : Ledger) (s s' : Space) (found : v.space? id = some s)
      (answers : s.Answers (.ok d, s')) (here : v'.space? id = some s')
      (elsewhere : ∀ j, j ≠ id → v'.space? j = v.space? j) (size : v'.size = v.size) :
      Outcome v id (.ok d, v')

variable {v v' : Ledger} {id : SpaceId}

lemma space?_congr (h : v'.spaces = v.spaces) (j : SpaceId) : v'.space? j = v.space? j := by
  rw [space?, space?, h]

lemma outcome_refused (e : LedgerError) : v.Outcome id (.error e, v) :=
  .refused e v (fun _ => rfl) rfl

lemma Outcome.congr {r : Except LedgerError Deltas × Ledger} (h : v'.spaces = v.spaces)
    (hr : v'.Outcome id r) : v.Outcome id r := by
  have hsize : v'.size = v.size := congrArg Array.size h
  cases hr with
  | refused e v'' same size =>
      refine .refused e v'' ?_ (size.trans hsize)
      intro j
      rw [same, space?_congr h]
  | done d v'' s s' found answers here elsewhere size =>
      refine .done d v'' s s' ?_ answers here ?_ (size.trans hsize)
      · rw [← space?_congr h, found]
      · intro j hj
        rw [elsewhere j hj, space?_congr h]

lemma onSpace_eq {s : Space} (h : v.space? id = some s)
    (f : Space → Except RegionError Deltas × Space) :
    v.onSpace id f = ((f s).1.mapError .region,
      { v with spaces := v.spaces.setIfInBounds id.raw.toNat (f s).2 }) := by
  rw [onSpace, h]

lemma space?_set {s : Space} (h : v.space? id = some s) (s' : Space) (j : SpaceId) :
    space? { v with spaces := v.spaces.setIfInBounds id.raw.toNat s' } j =
      if j = id then some s' else v.space? j := by
  have hlt : id.raw.toNat < v.spaces.size := (Array.getElem?_eq_some_iff.mp h).1
  simp only [space?, Array.getElem?_setIfInBounds]
  split_ifs with hraw hj hj
  · rfl
  · exact absurd (congrArg SpaceId.mk (UInt32.toNat_inj.mp hraw)).symm hj
  · exact absurd (by rw [hj]) hraw
  · rfl

/-- **An operation on one space**, if the space answers it. -/
lemma outcome_onSpace {f : Space → Except RegionError Deltas × Space}
    (hf : ∀ s, v.space? id = some s → s.Answers (f s)) : v.Outcome id (v.onSpace id f) := by
  cases hs : v.space? id with
  | none =>
      rw [onSpace, hs]
      exact outcome_refused _
  | some s =>
      have hset := space?_set hs
      have hsize : ∀ s', size { v with spaces := v.spaces.setIfInBounds id.raw.toNat s' } = v.size :=
        fun s' => Array.size_setIfInBounds
      rw [onSpace_eq hs]
      have hanswers := hf s hs
      cases hfs : f s with
      | mk answer s' =>
          rw [hfs] at hanswers
          cases hanswers with
          | refused e =>
              refine .refused _ _ ?_ (hsize s)
              intro j
              rw [hset]
              split_ifs with hj
              · rw [hj, hs]
              · rfl
          | done d s' sound change kind peak grown =>
              refine .done d _ s s' hs (.done d s' sound change kind peak grown) ?_ ?_ (hsize s')
              · rw [hset, if_pos rfl]
              · intro j hj
                rw [hset, if_neg hj]

lemma Outcome.ifKnown {r : Except LedgerError Deltas × Ledger} (hr : v.Outcome id r)
    (known : SpaceId) : v.Outcome id (v.ifKnown known r) := by
  rw [Ledger.ifKnown]
  cases v.space? known with
  | none => exact outcome_refused _
  | some s => exact hr

/-- Storing the call stack changes no space. -/
lemma outcome_withStack {stack : CallStack}
    {f : StackRef → Ledger → Except LedgerError Deltas × Ledger}
    (hf : ∀ (ref : StackRef) (v' : Ledger), v'.spaces = v.spaces → v'.Outcome id (f ref v')) :
    v.Outcome id (v.withStack stack f) := by
  rw [withStack]
  cases v.callStacks.push stack with
  | error e => exact outcome_refused _
  | ok answer =>
      obtain ⟨ref, callStacks⟩ := answer
      refine Outcome.congr ?_ (hf ref { v with callStacks } rfl)
      rfl

/-! ## Sound ledgers -/

/-- Every space is sound, and all but the process keep their commits apart. -/
structure Sound (v : Ledger) : Prop where
  sound : ∀ id s, v.space? id = some s → s.Sound
  kind : ∀ id s, v.space? id = some s → (s.committed = none ↔ id.isProcess)
  pos : 0 < v.size

/-- Some space has nearly as many boundaries as there are slots. -/
def Crowded (v : Ledger) : Prop :=
  ∃ id s, v.space? id = some s ∧ Slots.limit < s.boundaries + 4

/-- An operation on one space that may run out of memory on the way. -/
lemma outcome_onSpace_or {f : Space → Except RegionError Deltas × Space}
    (hf : ∀ s, v.space? id = some s → s.Answers (f s) ∨
      (f s).1 = .error (.outOfMemory .outOfSlots) ∧ Slots.limit < s.boundaries + 4) :
    v.Outcome id (v.onSpace id f) ∨
      (v.onSpace id f).1 = .error (.region (.outOfMemory .outOfSlots)) ∧
        (v.onSpace id f).2.size = v.size ∧ v.Crowded := by
  cases hs : v.space? id with
  | none =>
      refine .inl (outcome_onSpace ?_)
      intro s hs'
      rw [hs] at hs'
      cases hs'
  | some s =>
      rcases hf s hs with hanswers | ⟨hfull, hlimit⟩
      · refine .inl (outcome_onSpace ?_)
        intro s' hs'
        rw [hs] at hs'
        exact Option.some.inj hs' ▸ hanswers
      · refine .inr ⟨?_, ?_, id, s, hs, hlimit⟩
        · rw [onSpace_eq hs, hfull]
          rfl
        · rw [onSpace_eq hs]
          exact Array.size_setIfInBounds

/-- An operation on one space, with its call stack stored before. -/
lemma Sound.outcome_stored (hv : v.Sound) {stack : CallStack}
    {f : StackRef → Space → Except RegionError Deltas × Space}
    (hf : ∀ (ref : StackRef) (s : Space), s.Sound → s.Answers (f ref s)) :
    v.Outcome id (v.withStack stack fun ref v' => v'.onSpace id (f ref)) := by
  refine outcome_withStack ?_
  intro ref v' h
  refine outcome_onSpace ?_
  intro s hs
  exact hf ref s (hv.sound id s ((space?_congr h id).symm.trans hs))

/-- Removing mappings is refused, or acts on a valid range of the process. -/
lemma unmap_cases (v : Ledger) (id : SpaceId) (base : Address) {size : UInt64}
    (hsize : size ≤ maxSpan) : (∃ e, v.unmap id base size = (.error e, v)) ∨
      ∃ stop, base < stop ∧ stop - base ≤ maxSpan ∧
        v.unmap id base size = v.onSpace .process (·.unmap id base stop) := by
  by_cases hself : id.isProcess
  · exact .inl ⟨_, if_pos hself⟩
  rw [Ledger.unmap, if_neg hself, Ledger.ifKnown]
  cases v.space? id with
  | none => exact .inl ⟨_, rfl⟩
  | some s =>
      by_cases hend : base.toNat + size.toNat < UInt64.size
      · by_cases hzero : size = 0
        · exact .inl ⟨_, by rw [endOf?, if_pos hend]; exact if_pos hzero⟩
        · refine .inr ⟨base + size, ?_, ?_, by rw [endOf?, if_pos hend]; exact if_neg hzero⟩
          · have hsum : (base + size).toNat = base.toNat + size.toNat := by
              rw [UInt64.toNat_add]
              exact Nat.mod_eq_of_lt hend
            have hpos : size.toNat ≠ 0 := by
              intro h
              exact hzero (UInt64.toNat_inj.mp h)
            rw [UInt64.lt_iff_toNat_lt]
            omega
          · rwa [UInt64.add_comm, UInt64.add_sub_cancel]
      · exact .inl ⟨_, by rw [endOf?, if_neg hend]⟩

/-- **An operation either has an outcome or runs out of memory**, and the latter only if a space is
crowded. -/
theorem Sound.outcome_apply (hv : v.Sound) {op : Operation} (hspan : op.SpanFits) :
    v.Outcome op.target (v.apply op) ∨
      (v.apply op).1 = .error (.region (.outOfMemory .outOfSlots)) ∧
        (v.apply op).2.size = v.size ∧ v.Crowded := by
  cases op with
  | reserve id start size tag stack =>
      refine .inl ((hv.outcome_stored ?_).ifKnown id)
      intro ref s hs
      exact hs.reserve start size _
  | commit id start size tag stack =>
      refine .inl ((hv.outcome_stored ?_).ifKnown id)
      intro ref s hs
      exact hs.commit start size ref tag
  | uncommit id start size stack =>
      refine .inl ?_
      show v.Outcome id (v.uncommit id start size stack)
      rw [Ledger.uncommit]
      split_ifs
      · refine (hv.outcome_stored ?_).ifKnown id
        intro ref s hs
        exact hs.uncommit start size ref
      · refine outcome_onSpace ?_
        intro s hs
        exact (hv.sound id s hs).uncommit start size {}
  | release id start size =>
      show v.Outcome id (v.release id start size) ∨ _
      refine outcome_onSpace_or ?_
      intro s hs
      rcases (hv.sound id s hs).release start size with hanswers | ⟨hfull, hlimit⟩
      · exact .inl hanswers
      · exact .inr ⟨hfull, by omega⟩
  | retag id start size tag =>
      show v.Outcome id (v.retag id start size tag) ∨ _
      refine outcome_onSpace_or ?_
      intro s hs
      rcases (hv.sound id s hs).retag start size tag with hanswers | ⟨hfull, hlimit⟩
      · exact .inl hanswers
      · exact .inr ⟨hfull, by omega⟩
  | map id base size offset tag stack =>
      refine .inl ?_
      show v.Outcome .process (v.map id base size offset tag stack)
      rw [Ledger.map]
      split_ifs with hself hoffset
      · exact outcome_refused _
      · exact (outcome_refused _).ifKnown id
      · refine (hv.outcome_stored ?_).ifKnown id
        intro ref s hs
        exact hs.reserve base size _
  | unmap id base size =>
      have happly : v.apply (.unmap id base size) = v.unmap id base size := rfl
      rw [happly]
      show v.Outcome .process (v.unmap id base size) ∨ _
      rcases v.unmap_cases id base (hspan id base size rfl) with
        ⟨e, hunmap⟩ | ⟨stop, hlt, hlen, hunmap⟩
      · rw [hunmap]
        exact .inl (outcome_refused e)
      · rw [hunmap]
        refine outcome_onSpace_or ?_
        intro s hs
        exact (hv.sound _ s hs).unmap ((hv.kind _ s hs).mpr rfl) id hlt hlen

/-- An operation that is not broken off has an outcome. -/
lemma Sound.outcome_of_not_breaksOff (hv : v.Sound) {op : Operation}
    (hspan : op.SpanFits) (hop : ¬ v.BreaksOff op) :
    v.Outcome op.target (v.apply op) := by
  rcases hv.outcome_apply hspan with h | ⟨hfull, hsize, _⟩
  · exact h
  · have hsame : ∀ j, (v.apply op).2.space? j = v.space? j := by
      intro j
      by_contra hj
      exact hop ⟨hfull, j, hj⟩
    have hr : v.apply op = (.error (.region (.outOfMemory .outOfSlots)), (v.apply op).2) :=
      Prod.ext hfull rfl
    rw [hr]
    exact .refused _ _ hsame hsize

/-- An operation is broken off only if a space is crowded. -/
lemma Sound.crowded_of_breaksOff (hv : v.Sound) {op : Operation}
    (hspan : op.SpanFits) (hop : v.BreaksOff op) :
    v.Crowded := by
  obtain ⟨hfull, id, hid⟩ := hop
  rcases hv.outcome_apply hspan with h | ⟨_, _, hcrowded⟩
  · generalize v.apply op = r at h hfull hid
    cases h with
    | refused e v' same size => exact absurd (same id) hid
    | done => cases hfull
  · exact hcrowded

/-- An outcome leaves a sound ledger sound. -/
lemma Sound.of_outcome (hv : v.Sound) {r : Except LedgerError Deltas × Ledger}
    (hr : v.Outcome id r) : r.2.Sound := by
  cases hr with
  | refused e v' same size =>
      refine ⟨?_, ?_, size ▸ hv.pos⟩
      · intro j s hs
        exact hv.sound j s ((same j).symm.trans hs)
      · intro j s hs
        exact hv.kind j s ((same j).symm.trans hs)
  | done d v' s s' found answers here elsewhere size =>
      cases answers with
      | done _ _ sound change kind peak grown =>
          have hspaces : ∀ j s₁, v'.space? j = some s₁ →
              (j = id ∧ s₁ = s') ∨ v.space? j = some s₁ := by
            intro j s₁ hs₁
            by_cases hj : j = id
            · rw [hj, here] at hs₁
              exact .inl ⟨hj, (Option.some.inj hs₁).symm⟩
            · exact .inr ((elsewhere j hj).symm.trans hs₁)
          refine ⟨?_, ?_, size ▸ hv.pos⟩
          · intro j s₁ hs₁
            rcases hspaces j s₁ hs₁ with ⟨_, rfl⟩ | hs₁
            · exact sound
            · exact hv.sound j s₁ hs₁
          · intro j s₁ hs₁
            rcases hspaces j s₁ hs₁ with ⟨rfl, rfl⟩ | hs₁
            · rw [← hv.kind j s found, ← Option.not_isSome_iff_eq_none, kind,
                Option.not_isSome_iff_eq_none]
            · exact hv.kind j s₁ hs₁

lemma register_cases (v : Ledger) (name : String) :
    v.step (.register name) = v ∨
      ∃ id : SpaceId, id.raw.toNat = v.size ∧
        (∀ j, (v.step (.register name)).space? j =
          if j = id then some (.create id name v.seed) else v.space? j) ∧
        (v.step (.register name)).size = v.size + 1 := by
  rw [step, register]
  split_ifs with hsize
  · refine .inr ⟨⟨UInt32.ofNat v.spaces.size⟩, UInt32.toNat_ofNat_of_lt' hsize, ?_, ?_⟩
    · intro j
      have hj : j.raw.toNat = v.spaces.size ↔ j = ⟨UInt32.ofNat v.spaces.size⟩ := by
        constructor
        · intro h
          rw [← h, UInt32.ofNat_toNat]
        · rintro rfl
          exact UInt32.toNat_ofNat_of_lt' hsize
      simp only [space?, Array.getElem?_push, hj]
    · exact Array.size_push _
  · exact .inl rfl

lemma space?_create {config : Config} {s : Space} (h : (create config).space? id = some s) :
    id = .process ∧ s = .create .process processName config.seed := by
  have hzero : id.raw.toNat = 0 := by
    have hlt : id.raw.toNat < 1 := (Array.getElem?_eq_some_iff.mp h).1
    omega
  have hid : id = .process := congrArg SpaceId.mk (UInt32.toNat_inj.mp hzero)
  rw [hid] at h
  exact ⟨hid, (Option.some.inj h).symm⟩

lemma sound_create (config : Config) : (create config).Sound where
  sound id s h := by
    rw [(space?_create h).2]
    exact Space.sound_create _ _ _
  kind id s h := by
    obtain ⟨rfl, rfl⟩ := space?_create h
    exact ⟨fun _ => rfl, fun _ => rfl⟩
  pos := Nat.one_pos

/-- A registered space keeps its commits apart: a new number is not that of the process, which is
there from the start. -/
lemma kind_register (hpos : 0 < v.size)
    (hkind : ∀ id s, v.space? id = some s → (s.committed = none ↔ id.isProcess)) (name : String)
    {s : Space} (hs : (v.step (.register name)).space? id = some s) :
    s.committed = none ↔ id.isProcess := by
  rcases v.register_cases name with hstep | ⟨new, hraw, hspace, _⟩
  · rw [hstep] at hs
    exact hkind id s hs
  · rw [hspace] at hs
    split_ifs at hs with hj
    · have hnew : new.isProcess = false := by
        rw [SpaceId.isProcess, beq_eq_false_iff_ne]
        rintro h0
        rw [h0] at hraw
        exact absurd hraw (by simp; omega)
      rw [← Option.some.inj hs, hj, hnew]
      simp [Space.create, hnew]
    · exact hkind id s hs

lemma Sound.register (hv : v.Sound) (name : String) : (v.step (.register name)).Sound := by
  refine ⟨?_, fun id s hs => kind_register hv.pos hv.kind name hs, ?_⟩
  · intro j s hs
    rcases v.register_cases name with hstep | ⟨new, _, hspace, _⟩
    · rw [hstep] at hs
      exact hv.sound j s hs
    · rw [hspace] at hs
      split_ifs at hs
      · rw [← Option.some.inj hs]
        exact Space.sound_create _ _ _
      · exact hv.sound j s hs
  · have hpos := hv.pos
    rcases v.register_cases name with hstep | ⟨_, _, _, hsize⟩
    · rwa [hstep]
    · omega

/-! ## Runs -/

/-- No operation of a run is broken off. -/
def Smooth (v : Ledger) (calls : List LedgerCall) : Prop :=
  ∀ before op, before ++ [.operation op] <+: calls → ¬ (v.run before).BreaksOff op

/-- No operation removes a mapping from a range longer than the longest span. -/
def SpansFit (calls : List LedgerCall) : Prop := ∀ op, .operation op ∈ calls → op.SpanFits

lemma spansFit_cons_register {name : String} {calls : List LedgerCall} :
    SpansFit (.register name :: calls) ↔ SpansFit calls := by
  simp only [SpansFit, List.mem_cons, reduceCtorEq, false_or]

lemma spansFit_cons_operation {op : Operation} {calls : List LedgerCall} :
    SpansFit (.operation op :: calls) ↔ op.SpanFits ∧ SpansFit calls := by
  simp only [SpansFit, List.mem_cons, LedgerCall.operation.injEq, forall_eq_or_imp]

instance decidableSpansFit : DecidablePred SpansFit
  | [] => .isTrue fun _ hop => nomatch hop
  | .register _ :: calls =>
    haveI := decidableSpansFit calls
    decidable_of_iff _ spansFit_cons_register.symm
  | .operation _ :: calls =>
    haveI := decidableSpansFit calls
    decidable_of_iff _ spansFit_cons_operation.symm

lemma run_concat (v : Ledger) (calls : List LedgerCall) (c : LedgerCall) :
    v.run (calls ++ [c]) = (v.run calls).step c := by
  rw [run, List.foldl_append]
  rfl

lemma Smooth.mono {calls before : List LedgerCall} (h : v.Smooth calls)
    (hbefore : before <+: calls) : v.Smooth before := by
  intro first op hfirst
  exact h first op (hfirst.trans hbefore)

lemma SpansFit.mono {calls before : List LedgerCall} (h : SpansFit calls)
    (hbefore : before <+: calls) : SpansFit before := by
  intro op hmem
  exact h op (hbefore.subset hmem)

lemma SpansFit.spanFits {calls before : List LedgerCall} {op : Operation} (h : SpansFit calls)
    (hstart : before ++ [.operation op] <+: calls) : op.SpanFits :=
  h op (hstart.subset (List.mem_append_right _ List.mem_cons_self))

/-- What a call makes of a space, if it was there before: at most two more boundaries, and a peak that
takes the new count into account.  A new space has nothing. -/
def Follows (s' : Space) : Option Space → Prop
  | none => s'.boundaries = 0 ∧ ∀ t, s'.totals.get t = {}
  | some s => s'.boundaries ≤ s.boundaries + 2 ∧ ∀ t, (s'.totals.get t).peak.toNat =
      max (s.totals.get t).peak.toNat (s'.totals.amount .committed t)

/-- A space that a call does not touch. -/
lemma Sound.follows_self (hv : v.Sound) {s : Space} (hs : v.space? id = some s) :
    Follows s (v.space? id) := by
  rw [hs]
  refine ⟨by omega, ?_⟩
  intro t
  refine (max_eq_left ?_).symm
  rw [(hv.sound id s hs).amount]
  exact (hv.sound id s hs).committed_le_peak t

/-- **A call leaves a sound ledger sound**, and every space follows from what it was. -/
theorem Sound.step (hv : v.Sound) {c : LedgerCall} (hspans : SpansFit [c])
    (hsmooth : v.Smooth [c]) :
    (v.step c).Sound ∧ v.size ≤ (v.step c).size ∧
      ∀ id s', (v.step c).space? id = some s' → Follows s' (v.space? id) := by
  cases c with
  | register name =>
      refine ⟨hv.register name, ?_⟩
      rcases v.register_cases name with hstep | ⟨new, hraw, hspace, hsize⟩
      · rw [hstep]
        refine ⟨le_refl _, ?_⟩
        intro id s' hs
        exact hv.follows_self hs
      · refine ⟨by omega, ?_⟩
        intro id s' hs
        rw [hspace] at hs
        split_ifs at hs with hid
        · have hnone : v.space? id = none := by
            rw [hid, space?, hraw]
            exact Array.getElem?_eq_none (le_refl _)
          rw [hnone, ← Option.some.inj hs]
          exact ⟨Space.boundaries_create _ _ _, fun t => rfl⟩
        · exact hv.follows_self hs
  | operation op =>
      have hop : ¬ v.BreaksOff op := hsmooth [] op (List.prefix_refl _)
      have hout := hv.outcome_of_not_breaksOff (hspans op (List.mem_singleton_self _)) hop
      refine ⟨hv.of_outcome hout, ?_⟩
      show v.size ≤ (v.apply op).2.size ∧ ∀ id s', (v.apply op).2.space? id = some s' → _
      generalize v.apply op = r at hout
      cases hout with
      | refused e v' same size =>
          refine ⟨size.ge, ?_⟩
          intro id s' hs
          exact hv.follows_self ((same id).symm.trans hs)
      | done d v' s s' found answers here elsewhere size =>
          refine ⟨size.ge, ?_⟩
          intro id s₁ hs₁
          by_cases hid : id = op.target
          · subst hid
            rw [here] at hs₁
            obtain rfl := Option.some.inj hs₁
            cases answers with
            | done _ _ sound change kind peak grown =>
                rw [found]
                refine ⟨grown, ?_⟩
                intro t
                rw [sound.amount]
                exact peak t
          · exact hv.follows_self ((elsewhere id hid).symm.trans hs₁)

/-- The counts of committed bytes that a tag of a space had after any of the calls. -/
def committedSeen (v : Ledger) (calls : List LedgerCall) (id : SpaceId) (t : Tag) : Set ℕ :=
  {n | ∃ before s, before <+: calls ∧ (v.run before).space? id = some s ∧
    n = (s.totals.get t).committed.toNat}

/-- What holds after a run of calls of a new ledger. -/
structure Exact (v : Ledger) (calls : List LedgerCall) : Prop where
  sound : (v.run calls).Sound
  size_le : ∀ before, before <+: calls → (v.run before).size ≤ (v.run calls).size
  peak : ∀ id s, (v.run calls).space? id = some s → ∀ t,
    IsGreatest (v.committedSeen calls id t) (s.totals.get t).peak.toNat
  boundaries_le : ∀ id s, (v.run calls).space? id = some s → s.boundaries ≤ 2 * calls.length

/-- A space with a number that is not in use is not known. -/
lemma space?_eq_none_iff : v.space? id = none ↔ v.size ≤ id.raw.toNat := Array.getElem?_eq_none_iff

/-- One more call adds the counts after it to those seen. -/
lemma committedSeen_concat {calls : List LedgerCall} {c : LedgerCall} {s : Space}
    (hs : (v.run (calls ++ [c])).space? id = some s) (t : Tag) :
    v.committedSeen (calls ++ [c]) id t =
      v.committedSeen calls id t ∪ {(s.totals.get t).committed.toNat} := by
  ext n
  rw [Set.mem_union, Set.mem_singleton_iff]
  constructor
  · rintro ⟨before, s', hbefore, hs', rfl⟩
    rcases List.prefix_concat_iff.mp hbefore with rfl | hbefore
    · rw [hs] at hs'
      exact .inr (by rw [Option.some.inj hs'])
    · exact .inl ⟨before, s', hbefore, hs', rfl⟩
  · rintro (⟨before, s', hbefore, hs', rfl⟩ | rfl)
    · exact ⟨before, s', hbefore.trans (List.prefix_append _ _), hs', rfl⟩
    · exact ⟨_, s, List.prefix_refl _, hs, rfl⟩

/-- Before a space was registered nothing was seen of it. -/
lemma Exact.committedSeen_eq_empty {calls : List LedgerCall} (h : v.Exact calls)
    (hnone : (v.run calls).space? id = none) (t : Tag) : v.committedSeen calls id t = ∅ := by
  refine Set.eq_empty_iff_forall_notMem.mpr ?_
  rintro n ⟨before, s, hbefore, hs, _⟩
  have hsize := h.size_le before hbefore
  rw [space?_eq_none_iff] at hnone
  rw [space?_eq_none_iff.mpr (by omega)] at hs
  cases hs

lemma exact_nil (config : Config) : (create config).Exact [] where
  sound := sound_create config
  size_le before hbefore := by
    rw [List.prefix_nil.mp hbefore]
  peak id s hs t := by
    have hspace := (space?_create hs).2
    refine ⟨⟨[], s, List.prefix_refl _, hs, by rw [hspace]; rfl⟩, ?_⟩
    rintro n ⟨before, s', hbefore, hs', rfl⟩
    rw [List.prefix_nil.mp hbefore] at hs'
    rw [(space?_create hs').2, hspace]
    exact le_refl _
  boundaries_le id s hs := by
    rw [(space?_create hs).2, Space.boundaries_create]
    exact Nat.zero_le _

/-- **What holds after every run.**  The induction is on the last call; the highest count of a tag is
the old highest count or the new one. -/
theorem exact_run (config : Config) (calls : List LedgerCall) (hspans : SpansFit calls)
    (hsmooth : (create config).Smooth calls) : (create config).Exact calls := by
  induction calls using List.reverseRecOn with
  | nil => exact exact_nil config
  | append_singleton calls c ih =>
      have hstart : calls <+: calls ++ [c] := List.prefix_append _ _
      have hexact := ih (hspans.mono hstart) (hsmooth.mono hstart)
      have hlast : ((create config).run calls).Smooth [c] := by
        rintro before op ⟨rest, hop⟩
        cases before with
        | nil =>
            obtain rfl := (List.cons.inj hop).1
            exact hsmooth calls op (List.prefix_refl _)
        | cons first before => simp at hop
      obtain ⟨hsound, hsize, hfollows⟩ := hexact.sound.step
        (fun op hmem => hspans op (List.mem_append_right _ hmem)) hlast
      rw [← run_concat] at hsound hsize hfollows
      refine ⟨hsound, ?_, ?_, ?_⟩
      · intro before hbefore
        rcases List.prefix_concat_iff.mp hbefore with rfl | hbefore
        · exact le_refl _
        · exact (hexact.size_le before hbefore).trans hsize
      · intro id s hs t
        have hfollow := hfollows id s hs
        rw [committedSeen_concat hs]
        cases hbefore : ((create config).run calls).space? id with
        | none =>
            rw [hbefore] at hfollow
            rw [hexact.committedSeen_eq_empty hbefore, Set.empty_union, hfollow.2]
            exact isGreatest_singleton
        | some s₀ =>
            rw [hbefore] at hfollow
            rw [hfollow.2]
            exact (hexact.peak id s₀ hbefore t).union isGreatest_singleton
      · intro id s hs
        have hfollow := hfollows id s hs
        rw [List.length_append, List.length_singleton]
        cases hbefore : ((create config).run calls).space? id with
        | none =>
            rw [hbefore] at hfollow
            have hzero := hfollow.1
            omega
        | some s₀ =>
            rw [hbefore] at hfollow
            have hgrown := hfollow.1
            have hle := hexact.boundaries_le id s₀ hbefore
            omega

/-- The first operation that is broken off. -/
lemma exists_breaksOff {calls : List LedgerCall} (h : ¬ v.Smooth calls) :
    ∃ before op, before ++ [.operation op] <+: calls ∧ v.Smooth before ∧
      (v.run before).BreaksOff op := by
  have hsome : ∃ n before op, before.length = n ∧ before ++ [.operation op] <+: calls ∧
      (v.run before).BreaksOff op := by
    simp only [Smooth, not_forall, not_not] at h
    obtain ⟨before, op, hstart, hop⟩ := h
    exact ⟨_, before, op, rfl, hstart, hop⟩
  classical
  obtain ⟨before, op, hlength, hstart, hop⟩ := Nat.find_spec hsome
  refine ⟨before, op, hstart, ?_, hop⟩
  intro first op' hfirst hop'
  have hlt := hfirst.length_le
  rw [List.length_append, List.length_singleton] at hlt
  refine Nat.find_min hsome (m := first.length) (by omega) ⟨first, op', rfl, ?_, hop'⟩
  exact hfirst.trans ((List.prefix_append _ _).trans hstart)

/-- It takes a map with nearly as many boundaries as there are slots to break off an operation, and a
call adds two. -/
lemma lt_of_breaksOff (config : Config) {calls before : List LedgerCall} {op : Operation}
    (hspans : SpansFit calls) (hstart : before ++ [.operation op] <+: calls)
    (hsmooth : (create config).Smooth before) (hop : ((create config).run before).BreaksOff op) :
    Slots.limit < 2 * before.length + 4 := by
  have hbefore : before <+: calls := (List.prefix_append _ _).trans hstart
  have hexact := exact_run config before (hspans.mono hbefore) hsmooth
  obtain ⟨id, s, hs, hlimit⟩ := hexact.sound.crowded_of_breaksOff (hspans.spanFits hstart) hop
  have hle := hexact.boundaries_le id s hs
  omega

/-- It takes as many calls to bring a map near to the end of its slots. -/
lemma lt_of_crowded (config : Config) {calls : List LedgerCall} (hspans : SpansFit calls)
    (h : ((create config).run calls).Crowded) : Slots.limit < 2 * calls.length + 4 := by
  by_cases hsmooth : (create config).Smooth calls
  · obtain ⟨id, s, hs, hlimit⟩ := h
    have hle := (exact_run config calls hspans hsmooth).boundaries_le id s hs
    omega
  · obtain ⟨before, op, hstart, hbefore, hop⟩ := exists_breaksOff hsmooth
    have hlt := lt_of_breaksOff config hspans hstart hbefore hop
    have hle := hstart.length_le
    rw [List.length_append, List.length_singleton] at hle
    omega

/-- **No short run is broken off.** -/
theorem smooth_of_length_le (config : Config) {calls : List LedgerCall} (hspans : SpansFit calls)
    (hlength : 2 * calls.length + 2 ≤ Slots.limit) : (create config).Smooth calls := by
  by_contra hnot
  obtain ⟨before, op, hstart, hsmooth, hop⟩ := exists_breaksOff hnot
  have hlt := lt_of_breaksOff config hspans hstart hsmooth hop
  have hle := hstart.length_le
  rw [List.length_append, List.length_singleton] at hle
  omega

/-! ## Exact totals -/

/-- The deltas are the exact change of one space between two ledgers, which its counters follow
without saturation, and no other space changes. -/
def Books (v : Ledger) (id : SpaceId) (d : Deltas) (v' : Ledger) : Prop :=
  (∃ s s', v.space? id = some s ∧ v'.space? id = some s' ∧
    ∀ c t, d.amount c t = (s'.bytes c t : ℤ) - s.bytes c t ∧
      (s'.totals.amount c t : ℤ) = s.totals.amount c t + d.amount c t) ∧
  ∀ j, j ≠ id → v'.space? j = v.space? j

/-- An answer of an operation that is not broken off is the exact change. -/
lemma Sound.books (hv : v.Sound) {op : Operation} {d : Deltas}
    (hspan : op.SpanFits) (hop : ¬ v.BreaksOff op)
    (happly : v.apply op = (.ok d, v')) : v.Books op.target d v' := by
  have hout := hv.outcome_of_not_breaksOff hspan hop
  rw [happly] at hout
  cases hout with
  | done _ _ s s' found answers here elsewhere size =>
      cases answers with
      | done _ _ sound change kind peak grown =>
          refine ⟨⟨s, s', found, here, ?_⟩, elsewhere⟩
          intro c t
          have hsound := hv.sound op.target s found
          refine ⟨change.amount c t, ?_⟩
          rw [sound.amount, hsound.amount, change.amount]
          omega

/-- A refused operation that is not broken off changes no space. -/
lemma Sound.space?_of_refused (hv : v.Sound) {op : Operation} {e : LedgerError}
    (hspan : op.SpanFits) (hop : ¬ v.BreaksOff op)
    (happly : v.apply op = (.error e, v')) (j : SpaceId) : v'.space? j = v.space? j := by
  have hout := hv.outcome_of_not_breaksOff hspan hop
  rw [happly] at hout
  cases hout with
  | refused _ _ same size => exact same j

/-- **The running totals of a ledger are exact.**  After any run of registrations and operations, the
totals of every space are the byte counts of its maps, and the peak of a tag is the highest count of
committed bytes seen so far.  Every answer of the run is the exact change of the space it is about,
and a refused operation changes no space.  The one exception is a run in which an operation on
several runs of memory is broken off for want of slots, after two billion calls at least. -/
theorem run_totals_exact (config : Config) (calls : List LedgerCall) (hspans : SpansFit calls) :
    (∃ before op, before ++ [.operation op] <+: calls ∧
      ((create config).run before).BreaksOff op ∧ Slots.limit < 2 * before.length + 4) ∨
    (∀ id s, ((create config).run calls).space? id = some s →
      (s.committed = none ↔ id.isProcess) ∧ s.TotalsExact ∧
        ∀ t, IsGreatest ((create config).committedSeen calls id t) (s.totals.get t).peak.toNat) ∧
    ∀ before op, before ++ [.operation op] <+: calls →
      ∀ r v', ((create config).run before).apply op = (r, v') →
        match r with
        | .ok d => ((create config).run before).Books op.target d v'
        | .error _ => ∀ id, v'.space? id = ((create config).run before).space? id := by
  by_cases hsmooth : (create config).Smooth calls
  · refine .inr ⟨?_, ?_⟩
    · intro id s hs
      have hexact := exact_run config calls hspans hsmooth
      have hsound := hexact.sound.sound id s hs
      exact ⟨hexact.sound.kind id s hs, hsound.totalsExact, hexact.peak id s hs⟩
    · intro before op hstart r v' happly
      have hbefore : before <+: calls := (List.prefix_append _ _).trans hstart
      have hexact :=
        exact_run config before (hspans.mono hbefore) (hsmooth.mono hbefore)
      have hspan := hspans.spanFits hstart
      have hop := hsmooth before op hstart
      cases r with
      | ok d => exact hexact.sound.books hspan hop happly
      | error e => exact hexact.sound.space?_of_refused hspan hop happly
  · obtain ⟨before, op, hstart, hbefore, hop⟩ := exists_breaksOff hsmooth
    exact .inl ⟨before, op, hstart, hop, lt_of_breaksOff config hspans hstart hbefore hop⟩

/-- A device that gets memory, of which a part is mapped and a committed part is given back. -/
def deviceCalls : List LedgerCall :=
  [.register "device", .operation (.reserve ⟨1⟩ 0x1000 0x4000 ⟨7⟩ {}),
    .operation (.commit ⟨1⟩ 0x2000 0x2000 ⟨7⟩ {}), .operation (.map ⟨1⟩ 0x9000 0x3000 0 ⟨7⟩ {}),
    .operation (.unmap ⟨1⟩ 0xa000 0x1000), .operation (.release ⟨1⟩ 0x3000 0x1000)]

/-- The bytes of the device, by its totals. -/
theorem device_totals_exact :
    SpansFit deviceCalls ∧ ∃ s, ((create {}).run deviceCalls).space? ⟨1⟩ = some s ∧
      s.bytes .reserved ⟨7⟩ = 0x3000 ∧ s.bytes .committed ⟨7⟩ = 0x1000 ∧
      IsGreatest ((create {}).committedSeen deviceCalls ⟨1⟩ ⟨7⟩) 0x2000 := by
  have hspans : SpansFit deviceCalls := by decide
  refine ⟨hspans, ?_⟩
  have hcounters : (((create {}).run deviceCalls).space? ⟨1⟩).map (fun s => s.totals.get ⟨7⟩) =
      some ⟨0x3000, 0x1000, 0x2000⟩ := by decide +kernel
  obtain ⟨s, hs, hget⟩ := Option.map_eq_some_iff.mp hcounters
  rcases run_totals_exact {} deviceCalls hspans with ⟨before, op, hstart, _, hlimit⟩ | ⟨hexact, _⟩
  · have hle := hstart.length_le
    rw [List.length_append] at hle
    have hlength : deviceCalls.length = 6 := rfl
    have hslots : Slots.limit = 4294967296 := rfl
    omega
  · obtain ⟨_, htotals, hpeak⟩ := hexact ⟨1⟩ s hs
    refine ⟨s, hs, ?_, ?_, ?_⟩
    · rw [← htotals.reserved, hget]
      rfl
    · rw [← htotals.committed, hget]
      rfl
    · have hgreatest := hpeak ⟨7⟩
      rw [hget] at hgreatest
      exact hgreatest

end Ledger

end RegionLedger
