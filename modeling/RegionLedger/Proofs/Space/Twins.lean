import RegionLedger.Proofs.CallStack.Twins
import RegionLedger.Proofs.Region.Twins
import RegionLedger.Proofs.Space.Beside
import RegionLedger.Proofs.Space.Provenance

/-!
# Ledgers that differ in their references only

The seed of the priorities and the size of the stack chunks decide where boundaries and call stacks
are kept, and with it the references of call stacks.  Two ledgers that differ in these parameters
stay twins: the maps of a space are twins, and the references of the one store are translated into
those of the other.  So both give the same answers.

* `Space.Twins`, `Ledger.Twins` — the relation of spaces and of ledgers.
* `Space.Twins.act` — what an operation makes of twins.
* `Ledger.Twins.apply`, `Ledger.Twins.register` — one call of twins.
* `Ledger.Twins.create`, `Ledger.Twins.run` — new ledgers, and what a run of calls makes of them.
-/

namespace RegionLedger

variable {σ σ' : StackRef → StackRef} {refs refs' : Set StackRef}

/-- More references can be translated, if the old ones stay as they are. -/
lemma RegionMap.Twins.mono {μ : Type} [Metadata μ] [Sited μ] [Signs μ] {m n : RegionMap μ}
    (h : Twins σ refs m n) (hσ : Set.InjOn σ' refs') (hsub : refs ⊆ refs')
    (heq : Set.EqOn σ σ' refs) : Twins σ' refs' m n :=
  ⟨⟨h.left, Bytes.relabel_congr h.uses heq ▸ h.right⟩, hσ, fun x ref href => hsub (h.uses x ref href)⟩

namespace Space

/-- Spaces of one name with the same totals, whose maps are twins. -/
def Twins (σ : StackRef → StackRef) (refs : Set StackRef) : Space → Space → Prop :=
  Beside (RegionMap.Twins σ refs) (RegionMap.Twins σ refs)

/-- Two operations on spaces get the same answer and leave twins. -/
def SameTwins (σ : StackRef → StackRef) (refs : Set StackRef) :
    Except RegionError Deltas × Space → Except RegionError Deltas × Space → Prop :=
  SameOutcome Eq (Twins σ refs)

namespace Twins

variable {s t : Space}

lemma mono (h : Twins σ refs s t) (hσ : Set.InjOn σ' refs') (hsub : refs ⊆ refs')
    (heq : Set.EqOn σ σ' refs) : Twins σ' refs' s t :=
  Beside.mono h (fun _ _ hmn => hmn.mono hσ hsub heq) fun _ _ hmn => hmn.mono hσ hsub heq

/-- New spaces are twins, whatever their seeds. -/
lemma create (hσ : Set.InjOn σ refs) (id : SpaceId) (name : String) (seed seed' : UInt64) :
    Twins σ refs (.create id name seed) (.create id name seed') :=
  Beside.create (fun _ _ => .empty hσ _ _) (fun _ _ => .empty hσ _ _) id name seed seed'

/-! ## Releasing mapped runs -/

/-- Runs released one after the other. -/
lemma releaseEach {m n : RegionMap Placement} (h : RegionMap.Twins σ refs m n) (sum : Deltas)
    (runs : List (Run Placement)) :
    (Space.releaseEach m sum runs).1 =
        (Space.releaseEach n sum (runs.map (Run.relabel σ))).1 ∧
      RegionMap.Twins σ refs (Space.releaseEach m sum runs).2
        (Space.releaseEach n sum (runs.map (Run.relabel σ))).2 := by
  induction runs generalizing m n sum with
  | nil => exact ⟨rfl, h⟩
  | cons r rest ih =>
      have hanswer : SameAnswer Eq (RegionMap.Twins σ refs) (m.release r.start r.size)
          (n.release (r.relabel σ).start (r.relabel σ).size) :=
        h.apply (c := .release r.start r.size) trivial
      rw [List.map_cons, Space.releaseEach, Space.releaseEach]
      generalize m.release r.start r.size = p at hanswer
      generalize n.release (r.relabel σ).start (r.relabel σ).size = q at hanswer
      cases hanswer with
      | error e => exact ⟨rfl, h⟩
      | @ok d _ deltas _ _ hmn =>
          subst deltas
          dsimp only
          cases sum.plus d with
          | error o => exact ⟨rfl, hmn⟩
          | ok sum' => exact ih hmn sum'

lemma mapped_eq (h : Twins σ refs s t) (target : SpaceId) (first last : Address) :
    t.mapped target first last = (s.mapped target first last).map (Run.relabel σ) := by
  rw [Space.mapped_eq, Space.mapped_eq, h.reserved.segments_eq, List.filter_map]
  congr 1
  refine List.filter_congr ?_
  intro r _
  show ((r.side.relabel σ).state.isReserved && decide
    ((r.side.relabel σ).data.mapping.map (·.space) = some target)) = _
  rw [Side.state_relabel, Side.mapping_relabel]

lemma unmap (h : Twins σ refs s t) (target : SpaceId) (first last : Address) :
    SameTwins σ refs (s.unmap target first last) (t.unmap target first last) := by
  have heach := releaseEach h.reserved ∅ (s.mapped target first last)
  rw [← h.mapped_eq] at heach
  generalize hp : Space.releaseEach s.reserved ∅ (s.mapped target first last) = p at heach
  generalize hq : Space.releaseEach t.reserved ∅ (t.mapped target first last) = q at heach
  obtain ⟨answer, m⟩ := p
  obtain ⟨answer', n⟩ := q
  obtain ⟨rfl, hmn⟩ : answer = answer' ∧ RegionMap.Twins σ refs m n := heach
  have hset := Beside.set_reserved h hmn
  cases answer with
  | error e =>
      rw [unmap_of_error hp, unmap_of_error hq]
      exact .error e hset
  | ok d =>
      rw [unmap_of_ok hp, unmap_of_ok hq]
      exact .ok rfl (hset.account Deltas.congruent_eq rfl)

/-! ## The operations -/

lemma reserve (h : Twins σ refs s t) (start : Address) (size : UInt64) {data : Placement}
    (hdata : data.stack ∈ refs) :
    SameTwins σ refs (s.reserve start size data)
      (t.reserve start size { data with stack := σ data.stack }) :=
  Beside.takeReserved h Deltas.congruent_eq (h.reserved.apply (c := .reserve start size data) hdata)

lemma commit (h : Twins σ refs s t) (start : Address) (size : UInt64) {ref : StackRef}
    (href : ref ∈ refs) (tag : Tag) :
    SameTwins σ refs (s.commit start size ref tag) (t.commit start size (σ ref) tag) := by
  rw [Space.commit, Space.commit]
  rcases h.committed with ⟨hs, ht⟩ | ⟨m, n, hs, ht, hmn⟩
  · rw [hs, ht]
    exact Beside.takeReserved h Deltas.congruent_eq
      (h.reserved.apply (c := .commit start size { stack := ref, tag } .adopt) href)
  · rw [hs, ht]
    exact Beside.takeCommitted h Deltas.congruent_eq
      (hmn.apply (c := .commit start size { stack := ref, tag } .replace) href)

/-- Commits that are kept apart are released, and no reference is written. -/
lemma uncommit (h : Twins σ refs s t) (start : Address) (size : UInt64) {ref ref' : StackRef}
    (href : s.committed = none → ref ∈ refs ∧ ref' = σ ref) :
    SameTwins σ refs (s.uncommit start size ref) (t.uncommit start size ref') := by
  rw [Space.uncommit, Space.uncommit]
  rcases h.committed with ⟨hs, ht⟩ | ⟨m, n, hs, ht, hmn⟩
  · obtain ⟨hmem, rfl⟩ := href hs
    rw [hs, ht]
    exact Beside.takeReserved h Deltas.congruent_eq
      (h.reserved.apply (c := .uncommit start size { stack := ref }) hmem)
  · rw [hs, ht]
    exact Beside.takeCommitted h Deltas.congruent_eq (hmn.apply (c := .release start size) trivial)

lemma release (h : Twins σ refs s t) (start : Address) (size : UInt64) :
    SameTwins σ refs (s.release start size) (t.release start size) :=
  Beside.takeBoth h Deltas.congruent_eq (h.reserved.apply (c := .release start size) trivial)
    fun _ _ _ _ hmn => hmn.apply (c := .release start size) trivial

lemma retag (h : Twins σ refs s t) (start : Address) (size : UInt64) (tag : Tag) :
    SameTwins σ refs (s.retag start size tag) (t.retag start size tag) :=
  Beside.takeBoth h Deltas.congruent_eq (h.reserved.apply (c := .retag start size tag) trivial)
    fun _ _ _ _ hmn => hmn.apply (c := .retag start size tag) trivial

/-- **An operation that stores its call stack.** -/
theorem act (h : Twins σ refs s t) (op : Operation) {ref : StackRef} (href : ref ∈ refs) :
    SameTwins σ refs (op.act ref s) (op.act (σ ref) t) := by
  cases op with
  | reserve id start size tag stack => exact h.reserve start size href
  | commit id start size tag stack => exact h.commit start size href tag
  | uncommit id start size stack => exact h.uncommit start size fun _ => ⟨href, rfl⟩
  | release id start size => exact h.release start size
  | map id base size offset tag stack => exact h.reserve base size href
  | unmap id base size => exact h.unmap id base (base + size)
  | retag id start size tag => exact h.retag start size tag

/-- **An operation that stores no call stack** writes no reference. -/
theorem act_of_stackless (h : Twins σ refs s t) {op : Operation} (hop : op.stack? = none)
    (hkind : s.committed = none ↔ op.target.isProcess) (ref ref' : StackRef) :
    SameTwins σ refs (op.act ref s) (op.act ref' t) := by
  cases op with
  | reserve | commit | map => cases hop
  | uncommit id start size stack =>
      refine h.uncommit start size fun hs => ?_
      have hprocess : id.isProcess = true := hkind.mp hs
      rw [Operation.stack?, if_pos hprocess] at hop
      cases hop
  | release id start size => exact h.release start size
  | unmap id base size => exact h.unmap id base (base + size)
  | retag id start size tag => exact h.retag start size tag

end Twins

end Space

/-! ## Ledgers -/

namespace Ledger

/-- Ledgers with the same spaces up to the references, which are translated from the one store into
the other. -/
structure Twins (σ : StackRef → StackRef) (refs : Set StackRef) (v w : Ledger) : Prop where
  spaces : Beside (Space.Twins σ refs) v w
  stores : StackStore.Twins CallStack.fingerprint v.callStacks w.callStacks σ refs

namespace Twins

variable {v w : Ledger} {op : Operation}

/-- The stores know more stacks, and a space of each acts. -/
lemma onSpace (h : Twins σ refs v w) {a b : StackStore}
    (hstores : StackStore.Twins CallStack.fingerprint a b σ' refs') (hsub : refs ⊆ refs')
    (heq : Set.EqOn σ σ' refs) (id : SpaceId) {f g : Space → Except RegionError Deltas × Space}
    (hfg : ∀ s t, v.space? id = some s → Space.Twins σ' refs' s t →
      Space.SameTwins σ' refs' (f s) (g t)) :
    (Ledger.onSpace { v with callStacks := a } id f).1 =
        (Ledger.onSpace { w with callStacks := b } id g).1 ∧
      Twins σ' refs' (Ledger.onSpace { v with callStacks := a } id f).2
        (Ledger.onSpace { w with callStacks := b } id g).2 := by
  have hspaces : Beside (Space.Twins σ' refs') { v with callStacks := a }
      { w with callStacks := b } := h.spaces.mono fun _ _ hst => hst.mono hstores.injOn hsub heq
  have hanswer := hspaces.onSpace id fun s t hs _ hst => hfg s t hs hst
  refine ⟨hanswer.eq, hanswer.related, ?_⟩
  rw [callStacks_onSpace, callStacks_onSpace]
  exact hstores

/-- **An operation of twins**, if each finds a place for its call stack. -/
theorem apply (h : Twins σ refs v w) (hv : v.Charted) (hleft : v.exhausts op = false)
    (hright : w.exhausts op = false) :
    (v.apply op).1 = (w.apply op).1 ∧ ∃ σ' refs', Twins σ' refs' (v.apply op).2 (w.apply op).2 := by
  rcases h.spaces.apply_cases (places_of_not_exhausts hleft) (places_of_not_exhausts hright) with
    ⟨e, happly, happly'⟩ | ⟨ref, ref', a, b, _, hstore, hstore', happly, happly'⟩
  · rw [happly, happly']
    exact ⟨rfl, σ, refs, h⟩
  · rw [happly, happly']
    cases hstack : op.stack? with
    | none =>
        rw [Stores, hstack] at hstore hstore'
        obtain ⟨rfl, rfl⟩ := hstore
        obtain ⟨rfl, rfl⟩ := hstore'
        obtain ⟨hanswer, htwins⟩ := h.onSpace h.stores subset_rfl (fun _ _ => rfl) op.target
          fun s t hs hst => hst.act_of_stackless hstack (hv.kind _ s hs) {} {}
        exact ⟨hanswer, σ, refs, htwins⟩
    | some stack =>
        rw [Stores, hstack] at hstore hstore'
        obtain ⟨σ', refs', hstores, hsub, heq, href, rfl⟩ := h.stores.pushBy hstore hstore'
        obtain ⟨hanswer, htwins⟩ := h.onSpace hstores hsub heq op.target
          fun s t _ hst => hst.act op href
        exact ⟨hanswer, σ', refs', htwins⟩

/-- **A registration of twins.** -/
theorem register (h : Twins σ refs v w) (name : String) :
    v.answer (.register name) = w.answer (.register name) ∧
      Twins σ refs (v.step (.register name)) (w.step (.register name)) := by
  obtain ⟨hanswer, hspaces⟩ := h.spaces.register name fun id =>
    .create h.stores.injOn id name v.seed w.seed
  refine ⟨hanswer, hspaces, ?_⟩
  rw [callStacks_register, callStacks_register]
  exact h.stores

/-- New ledgers of one level are twins. -/
lemma create (config : Config) (seed : UInt64) (slots : ℕ) :
    ∃ σ refs, Twins σ refs (.create config) (.create { config with seed, chunkSlots := slots }) := by
  have hstores : ∃ σ refs, StackStore.Twins CallStack.fingerprint
      (.empty config.isDetailed config.clampedSlots)
      (.empty config.isDetailed (Config.clampedSlots { config with seed, chunkSlots := slots }))
      σ refs :=
    StackStore.Twins.empty (allowsWidth_clampedSlots config) (allowsWidth_clampedSlots _)
  obtain ⟨σ, refs, hstores⟩ := hstores
  refine ⟨σ, refs, ?_, hstores⟩
  intro i
  cases i with
  | zero => exact .some (.create hstores.injOn _ _ _ _)
  | succ i => exact .none

/-- **A run of twins**, if every call stack finds its place in both.  The induction is on the calls;
the references of the stores grow with each call stack that is stored. -/
theorem run (h : Twins σ refs v w) (hv : v.Charted) (calls : List LedgerCall)
    (hleft : v.storesAll calls = true) (hright : w.storesAll calls = true) :
    v.answers calls = w.answers calls ∧ ∃ σ' refs', Twins σ' refs' (v.run calls) (w.run calls) := by
  induction calls generalizing v w σ refs with
  | nil => exact ⟨rfl, σ, refs, h⟩
  | cons c calls ih =>
      cases c with
      | register name =>
          obtain ⟨hanswer, htwins⟩ := h.register name
          obtain ⟨hanswers, hrun⟩ := ih htwins (hv.step _) hleft hright
          exact ⟨congrArg₂ List.cons hanswer hanswers, hrun⟩
      | operation op =>
          rw [storesAll, Bool.and_eq_true, Bool.not_eq_true'] at hleft hright
          obtain ⟨hanswer, σ', refs', htwins⟩ := h.apply hv hleft.1 hright.1
          obtain ⟨hanswers, hrun⟩ := ih htwins (hv.step (.operation op)) hleft.2 hright.2
          have hsame : v.answer (.operation op) = w.answer (.operation op) := by
            rw [answer, answer, hanswer]
          exact ⟨congrArg₂ List.cons hsame hanswers, hrun⟩

end Twins

end Ledger

end RegionLedger
