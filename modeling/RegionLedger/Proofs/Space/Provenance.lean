import RegionLedger.Proofs.CallStack.Numbering
import RegionLedger.Proofs.Region.CallSites
import RegionLedger.Proofs.Space.Writes

/-!
# Where memory comes from

Every byte in use leads to the call stack of the operation that wrote it last.  The reference that a
byte carries is the place of that stack in the store, and the store never moves a stack, so later
operations on other bytes do not matter; those on this byte keep its reference, renew it or take it
away.

* `Operation.Writes`, `Ledger.Wrote` — which bytes an operation writes, if it is carried out.
* `Ledger.LatestWrite` — the call stack of the last operation of a history that wrote a byte.
* `Ledger.Charted.apply_sites` — what one operation does to the call sites of all bytes.
* `Ledger.run_call_sites` — the call sites after every run.
-/

namespace RegionLedger

/-- The byte at `x` is one of the `size` bytes from `start`. -/
def InRange (start : Address) (size : UInt64) (x : Address) : Prop :=
  start ≤ x ∧ x.toNat < start.toNat + size.toNat

/-- The range runs up to its end, if that is an address. -/
lemma inRange_iff {start : Address} {size : UInt64} (hend : start.toNat + size.toNat < 2 ^ 64)
    (x : Address) : InRange start size x ↔ start ≤ x ∧ x < start + size := by
  rw [InRange, UInt64.lt_iff_toNat_lt, UInt64.toNat_add, Nat.mod_eq_of_lt hend]

lemma SpaceId.isProcess_iff {id : SpaceId} : id.isProcess ↔ id = .process := by
  obtain ⟨raw⟩ := id
  simp [isProcess, process]

/-! ## Writes -/

/-- The operation writes a byte of the space `id`: among its reservations, or among the commits of a
space that keeps them apart.  Reserving, committing and mapping write the whole range, uncommitting
writes the committed bytes of the process, and a change of tag writes nothing. -/
def Operation.Writes (op : Operation) (v : Ledger) (id : SpaceId) (c : Column) (x : Address) : Prop :=
  match op, c with
  | reserve space start size _ _, .reserved => space = id ∧ InRange start size x
  | commit space start size _ _, .reserved => space = id ∧ id.isProcess ∧ InRange start size x
  | commit space start size _ _, .committed => space = id ∧ ¬ id.isProcess ∧ InRange start size x
  | uncommit space start size _, .reserved =>
      space = id ∧ id.isProcess ∧ InRange start size x ∧ v.stateAt x = .committed
  | map _ base size _ _ _, .reserved => id = .process ∧ InRange base size x
  | _, _ => False

/-- The call site of a byte in use. -/
def Space.site? (s : Space) (c : Column) (x : Address) : Option StackRef :=
  match c with
  | .reserved => (s.reserved.sideAt x).site?
  | .committed => s.committed.bind fun m => (m.sideAt x).site?

namespace Ledger

/-- The call site of a byte in use. -/
def site? (v : Ledger) (id : SpaceId) (c : Column) (x : Address) : Option StackRef :=
  (v.space? id).bind (·.site? c x)

/-- The operation is carried out and writes a byte. -/
def Wrote (v : Ledger) (op : Operation) (id : SpaceId) (c : Column) (x : Address) : Prop :=
  (∃ d, (v.apply op).1 = .ok d) ∧ op.Writes v id c x

/-- The last operation of a history that wrote a byte stored the call stack `stack`. -/
def LatestWrite (v : Ledger) (calls : List LedgerCall) (id : SpaceId) (c : Column) (x : Address)
    (stack : CallStack) : Prop :=
  ∃ before op after, calls = before ++ .operation op :: after ∧ op.stack? = some stack ∧
    (v.run before).Wrote op id c x ∧
    ∀ mid op' rest, after = mid ++ .operation op' :: rest →
      ¬ (v.run (before ++ .operation op :: mid)).Wrote op' id c x

variable {v v' : Ledger} {op : Operation} {id : SpaceId} {c : Column} {x : Address}
  {calls : List LedgerCall} {stack : CallStack}

/-- What the last call wrote is written last. -/
lemma latestWrite_concat (hwrote : (v.run calls).Wrote op id c x) (hstack : op.stack? = some stack) :
    v.LatestWrite (calls ++ [.operation op]) id c x stack := by
  refine ⟨calls, op, [], rfl, hstack, hwrote, ?_⟩
  intro mid op' rest hafter
  simp at hafter

/-- A call that does not write a byte leaves the last one that did. -/
lemma LatestWrite.concat (h : v.LatestWrite calls id c x stack) {call : LedgerCall}
    (hcall : ∀ op, call = .operation op → ¬ (v.run calls).Wrote op id c x) :
    v.LatestWrite (calls ++ [call]) id c x stack := by
  obtain ⟨before, op, after, rfl, hstack, hwrote, hlater⟩ := h
  refine ⟨before, op, after ++ [call], by simp, hstack, hwrote, ?_⟩
  intro mid op' rest hafter
  rcases rest.eq_nil_or_concat with rfl | ⟨rest, last, rfl⟩
  · obtain ⟨rfl, hlast⟩ := List.append_inj' hafter rfl
    exact hcall op' (List.singleton_inj.mp hlast)
  · refine hlater mid op' rest ?_
    have hsplit : after ++ [call] = (mid ++ .operation op' :: rest) ++ [last] := by
      rw [hafter]
      simp
    exact (List.append_inj' hsplit rfl).1

end Ledger

namespace Operation

variable {op : Operation} {v : Ledger} {id : SpaceId} {c : Column} {x : Address} {ref : StackRef}

/-- An operation writes in its own space only. -/
lemma Writes.target_eq (h : op.Writes v id c x) : id = op.target := by
  cases op <;> cases c <;> simp only [Writes] at h <;> first | exact h.elim | exact h.1.symm | exact h.1

/-- An operation that writes stores its call stack. -/
lemma Writes.exists_stack (h : op.Writes v id c x) : ∃ stack, op.stack? = some stack := by
  cases op with
  | uncommit space start size stack =>
      cases c with
      | reserved =>
          obtain ⟨rfl, hprocess, _⟩ := h
          exact ⟨stack, if_pos hprocess⟩
      | committed => cases h
  | release | unmap | retag => cases c <;> cases h
  | _ => exact ⟨_, rfl⟩

/-- The process has no commits apart. -/
lemma Writes.not_isProcess (h : op.Writes v id .committed x) : ¬ id.isProcess := by
  cases op with
  | commit space start size tag stack => exact h.2.1
  | _ => cases h

/-- **The reservations after an operation** carry its reference at the bytes that it writes; elsewhere
the call site stays, or the byte is released. -/
lemma site?_reservedWrite (op : Operation) (ref : StackRef) {s : Space}
    (hs : v.space? op.target = some s) (hkind : s.committed = none ↔ op.target.isProcess)
    (x : Address) :
    (op.Writes v op.target .reserved x →
      (op.reservedWrite ref s.committed.isSome s.reserved.sideAt x).site? = some ref) ∧
    (¬ op.Writes v op.target .reserved x →
      (op.reservedWrite ref s.committed.isSome s.reserved.sideAt x).site? =
          (s.reserved.sideAt x).site? ∨
        (op.reservedWrite ref s.committed.isSome s.reserved.sideAt x).site? = none) := by
  cases op with
  | reserve id start size tag stack =>
      refine ⟨fun hw => Mutation.site?_write_of_some hw.2 rfl, fun hw => ?_⟩
      exact Mutation.site?_write_of_none fun hin => absurd ⟨rfl, hin⟩ hw
  | map id base size offset tag stack =>
      refine ⟨fun hw => Mutation.site?_write_of_some hw.2 rfl, fun hw => ?_⟩
      exact Mutation.site?_write_of_none fun hin => absurd ⟨rfl, hin⟩ hw
  | commit id start size tag stack =>
      cases hcommitted : s.committed with
      | none =>
          have hprocess := hkind.mp hcommitted
          refine ⟨fun hw => Mutation.site?_write_of_some hw.2.2 rfl, fun hw => ?_⟩
          exact Mutation.site?_write_of_none fun hin => absurd ⟨rfl, hprocess, hin⟩ hw
      | some m =>
          refine ⟨fun hw => ?_, fun _ => .inl rfl⟩
          rw [hkind.mpr hw.2.1] at hcommitted
          cases hcommitted
  | uncommit id start size stack =>
      cases hcommitted : s.committed with
      | none =>
          have hprocess := hkind.mp hcommitted
          have hstate : v.stateAt x = (s.reserved.sideAt x).state := by
            rw [SpaceId.isProcess_iff.mp hprocess] at hs
            exact Ledger.stateAt_eq hs x
          refine ⟨?_, fun hw => ?_⟩
          · rintro ⟨_, _, hin, hwas⟩
            exact Mutation.site?_write_of_some hin (if_pos (hstate.symm.trans hwas))
          · refine Mutation.site?_write_of_none fun hin => if_neg ?_
            intro hwas
            exact hw ⟨rfl, hprocess, hin, hstate.trans hwas⟩
      | some m =>
          refine ⟨fun hw => ?_, fun _ => .inl rfl⟩
          rw [hkind.mpr hw.2.1] at hcommitted
          cases hcommitted
  | release id start size =>
      exact ⟨False.elim, fun _ => Mutation.site?_write_of_none fun _ => rfl⟩
  | retag id start size tag =>
      exact ⟨False.elim, fun _ => Mutation.site?_write_of_none fun _ => rfl⟩
  | unmap id base size =>
      refine ⟨False.elim, fun _ => ?_⟩
      rw [reservedWrite, Bytes.unmap]
      split_ifs
      · exact .inr rfl
      · exact .inl rfl

/-- **The commits after an operation**, likewise. -/
lemma site?_committedWrite (op : Operation) (ref : StackRef) (f : Bytes Attribution)
    (hdevice : ¬ op.target.isProcess) (x : Address) :
    (op.Writes v op.target .committed x → (op.committedWrite ref f x).site? = some ref) ∧
    (¬ op.Writes v op.target .committed x →
      (op.committedWrite ref f x).site? = (f x).site? ∨ (op.committedWrite ref f x).site? = none) := by
  cases op with
  | commit id start size tag stack =>
      refine ⟨fun hw => Mutation.site?_write_of_some hw.2.2 rfl, fun hw => ?_⟩
      exact Mutation.site?_write_of_none fun hin => absurd ⟨rfl, hdevice, hin⟩ hw
  | uncommit id start size stack =>
      exact ⟨False.elim, fun _ => Mutation.site?_write_of_none fun _ => rfl⟩
  | release id start size =>
      exact ⟨False.elim, fun _ => Mutation.site?_write_of_none fun _ => rfl⟩
  | retag id start size tag =>
      exact ⟨False.elim, fun _ => Mutation.site?_write_of_none fun _ => rfl⟩
  | _ => exact ⟨False.elim, fun _ => .inl rfl⟩

end Operation

/-! ## One operation -/

namespace Space

variable {s : Space} {op : Operation} {v : Ledger} {ref : StackRef} {c : Column} {x : Address}
  {r : Except RegionError Deltas × Space}

/-- **What a space does to the call site of a byte.** -/
theorem Yields.site (hr : s.Yields op ref r) (hs : v.space? op.target = some s)
    (hkind : s.committed = none ↔ op.target.isProcess) (c : Column) (x : Address) :
    ((∃ d, r.1 = .ok d) ∧ op.Writes v op.target c x → r.2.site? c x = some ref) ∧
    (¬ ((∃ d, r.1 = .ok d) ∧ op.Writes v op.target c x) →
      r.2.site? c x = s.site? c x ∨ r.2.site? c x = none) := by
  cases hr with
  | refused e => exact ⟨by rintro ⟨⟨_, ⟨⟩⟩, _⟩, fun _ => .inl rfl⟩
  | done d s' maps kind reserved committed =>
      have hdone : (∃ d', (.ok d : Except RegionError Deltas) = .ok d') := ⟨d, rfl⟩
      simp only [hdone, true_and]
      cases c with
      | reserved =>
          simp only [site?, reserved]
          exact op.site?_reservedWrite ref hs hkind x
      | committed =>
          cases hcommitted : s'.committed with
          | none =>
              have hprocess : op.target.isProcess := by
                rw [← hkind, ← Option.not_isSome_iff_eq_none, ← kind, hcommitted]
                exact Bool.false_ne_true
              refine ⟨fun hw => absurd hprocess hw.not_isProcess, fun _ => .inr ?_⟩
              simp only [site?, hcommitted, Option.bind_none]
          | some m' =>
              obtain ⟨m, hm, hsides⟩ := committed m' hcommitted
              have hdevice : ¬ op.target.isProcess := by
                rw [← hkind, hm]
                exact Option.some_ne_none _
              simp only [site?, hcommitted, hm, Option.bind_some, hsides]
              exact op.site?_committedWrite ref m.sideAt hdevice x
  | stopped e m stackless maps each cause =>
      refine ⟨by rintro ⟨⟨_, ⟨⟩⟩, _⟩, fun _ => ?_⟩
      cases c with
      | committed => exact .inl rfl
      | reserved =>
          have hnot : ¬ op.Writes v op.target .reserved x := by
            intro hw
            obtain ⟨stack, hstack⟩ := hw.exists_stack
            rw [stackless] at hstack
            cases hstack
          simp only [site?]
          rcases each x with hx | hx
          · exact .inl (by rw [hx])
          · rw [hx]
            exact (op.site?_reservedWrite ref hs hkind x).2 hnot

end Space

namespace Ledger

variable {v : Ledger} {op : Operation}

/-- **What an operation does to the call sites of all bytes.**  It is refused at once; or its call
stack is stored, its reference is at the bytes that it wrote, and every other byte keeps its call site
or is released. -/
theorem Charted.apply_sites (hv : v.Charted) (op : Operation) :
    (∃ e, v.apply op = (.error e, v)) ∨
    ∃ ref, v.Stores op ref (v.apply op).2.callStacks ∧ ∀ id c x,
      (v.Wrote op id c x → (v.apply op).2.site? id c x = some ref) ∧
      (¬ v.Wrote op id c x →
        (v.apply op).2.site? id c x = v.site? id c x ∨ (v.apply op).2.site? id c x = none) := by
  rcases hv.apply_cases op with hrefused | ⟨ref, callStacks, s, r, hstores, hs, hyields, hr⟩
  · exact .inl hrefused
  · refine .inr ⟨ref, by rw [hr]; exact hstores, ?_⟩
    intro id c x
    have hspace : (v.apply op).2.space? id = if id = op.target then some r.2 else v.space? id := by
      rw [hr]
      exact space?_set hs r.2 id
    by_cases hid : id = op.target
    · subst hid
      have hsite : (v.apply op).2.site? op.target c x = r.2.site? c x := by
        rw [site?, hspace, if_pos rfl, Option.bind_some]
      have hok : (∃ d, (v.apply op).1 = .ok d) ↔ ∃ d, r.1 = .ok d := by
        rw [hr]
        cases r.1 <;> simp [Except.mapError]
      rw [hsite, Wrote, hok, site?, hs, Option.bind_some]
      exact hyields.site hs (hv.kind _ s hs) c x
    · refine ⟨fun hw => absurd hw.2.target_eq hid, fun _ => .inl ?_⟩
      rw [site?, site?, hspace, if_neg hid]

/-! ## Histories -/

lemma site?_create (id : SpaceId) (name : String) (seed : UInt64) (c : Column) (x : Address) :
    (Space.create id name seed).site? c x = none := by
  have hnone : ∀ {μ : Type} [Metadata μ] [Sited μ] (draws : Draws),
      ((RegionMap.empty draws : RegionMap μ).sideAt x).site? = none := by
    intro μ _ _ draws
    rw [(RegionMap.represents_empty draws).sideAt_eq]
    rfl
  cases c with
  | reserved => exact hnone _
  | committed =>
      rw [Space.site?, Space.create]
      split_ifs
      · rfl
      · exact hnone _

/-- A registration leaves the call sites and the call stacks. -/
lemma register_sites (v : Ledger) (name : String) :
    (v.step (.register name)).callStacks = v.callStacks ∧
      ∀ id c x ref, (v.step (.register name)).site? id c x = some ref →
        v.site? id c x = some ref := by
  constructor
  · rw [step, register]
    split_ifs <;> rfl
  · intro id c x ref hsite
    rcases v.register_cases name with hstep | ⟨new, _, hspace, _⟩
    · rwa [hstep] at hsite
    · rw [site?, hspace] at hsite
      split_ifs at hsite
      · rw [Option.bind_some, site?_create] at hsite
        cases hsite
      · exact hsite

/-- The store keeps the stacks of a list, and every byte in use leads to the place of that one that
was stored by the operation that wrote it last. -/
structure Traced (v : Ledger) (calls : List LedgerCall) (known : List CallStack) : Prop where
  charted : (v.run calls).Charted
  numbers : (v.run calls).callStacks.Numbers CallStack.fingerprint known
  site : ∀ id c x ref, (v.run calls).site? id c x = some ref →
    ∃ stack ∈ known, v.LatestWrite calls id c x stack ∧
      ref = (v.run calls).callStacks.home CallStack.fingerprint known stack

namespace Traced

variable {calls : List LedgerCall} {known : List CallStack}

/-- A call that writes nothing. -/
lemma keep (h : v.Traced calls known) {call : LedgerCall}
    (hstacks : ((v.run calls).step call).callStacks = (v.run calls).callStacks)
    (hsites : ∀ id c x ref, ((v.run calls).step call).site? id c x = some ref →
      (v.run calls).site? id c x = some ref)
    (hnot : ∀ op id c x, call = .operation op → ¬ (v.run calls).Wrote op id c x) :
    v.Traced (calls ++ [call]) known := by
  refine ⟨?_, ?_, ?_⟩
  · rw [run_concat]
    exact h.charted.step call
  · rw [run_concat, hstacks]
    exact h.numbers
  · intro id c x ref hsite
    rw [run_concat] at hsite ⊢
    obtain ⟨stack, hmem, hlatest, hhome⟩ := h.site id c x ref (hsites id c x ref hsite)
    refine ⟨stack, hmem, hlatest.concat fun op hop => hnot op id c x hop, ?_⟩
    rw [hstacks]
    exact hhome

/-- **An operation that stores a call stack.**  The bytes that it wrote lead to that stack, and the
others to the same one as before. -/
lemma learn (h : v.Traced calls known) {stack : CallStack} {ref : StackRef}
    (hstack : op.stack? = some stack)
    (hpush : (v.run calls).callStacks.push stack =
      .ok (ref, ((v.run calls).apply op).2.callStacks))
    (hsites : ∀ id c x,
      ((v.run calls).Wrote op id c x → ((v.run calls).apply op).2.site? id c x = some ref) ∧
      (¬ (v.run calls).Wrote op id c x →
        ((v.run calls).apply op).2.site? id c x = (v.run calls).site? id c x ∨
          ((v.run calls).apply op).2.site? id c x = none)) :
    v.Traced (calls ++ [.operation op]) (StackStore.learn known stack) := by
  have hstep : v.run (calls ++ [.operation op]) = ((v.run calls).apply op).2 := run_concat _ _ _
  rcases h.numbers.pushBy_cases stack with ⟨store, hok, hwidth, hnumbers⟩ | ⟨herror, _⟩
  · obtain ⟨rfl, rfl⟩ := Prod.mk.inj (Except.ok.inj (hpush.symm.trans hok))
    refine ⟨run_concat v calls _ ▸ h.charted.step _, by rwa [hstep], ?_⟩
    intro id c x ref hsite
    rw [hstep] at hsite ⊢
    rw [StackStore.home_congr hwidth]
    by_cases hwrote : (v.run calls).Wrote op id c x
    · rw [(hsites id c x).1 hwrote] at hsite
      refine ⟨stack, StackStore.mem_learn.mpr (.inr rfl), latestWrite_concat hwrote hstack, ?_⟩
      rw [StackStore.home_learn]
      exact (Option.some.inj hsite).symm
    · rcases (hsites id c x).2 hwrote with hsame | hnone
      · -- the reference of another byte is as before, and the stack that it leads to never moves
        obtain ⟨old, hmem, hlatest, hhome⟩ := h.site id c x ref (hsame.symm.trans hsite)
        refine ⟨old, StackStore.mem_learn.mpr (.inl hmem), hlatest.concat ?_, ?_⟩
        · rintro _ ⟨⟩
          exact hwrote
        · rw [StackStore.home_mono StackStore.prefix_learn hmem]
          exact hhome
      · cases hnone.symm.trans hsite
  · cases hpush.symm.trans herror

/-- **One more call.** -/
lemma exists_step (h : v.Traced calls known) (call : LedgerCall) :
    ∃ known', v.Traced (calls ++ [call]) known' := by
  cases call with
  | register name =>
      obtain ⟨hstacks, hsites⟩ := register_sites (v.run calls) name
      exact ⟨known, h.keep hstacks hsites (by rintro _ _ _ _ ⟨⟩)⟩
  | operation op =>
      rcases h.charted.apply_sites op with ⟨e, hrefused⟩ | ⟨ref, hstores, hsites⟩
      · have hstep : (v.run calls).step (.operation op) = v.run calls := congrArg Prod.snd hrefused
        refine ⟨known, h.keep (by rw [hstep]) (fun id c x ref hsite => by rwa [hstep] at hsite) ?_⟩
        rintro _ id c x ⟨⟩ ⟨⟨d, hok⟩, _⟩
        cases (congrArg Prod.fst hrefused).symm.trans hok
      · rw [Stores] at hstores
        cases hstack : op.stack? with
        | some stack =>
            rw [hstack] at hstores
            exact ⟨_, h.learn hstack hstores hsites⟩
        | none =>
            rw [hstack] at hstores
            have hnot : ∀ id c x, ¬ (v.run calls).Wrote op id c x := by
              intro id c x hwrote
              obtain ⟨stack, hsome⟩ := hwrote.2.exists_stack
              cases hstack.symm.trans hsome
            refine ⟨known, h.keep hstores.2 ?_ ?_⟩
            · intro id c x ref hsite
              rcases (hsites id c x).2 (hnot id c x) with hsame | hnone
              · exact hsame.symm.trans hsite
              · cases hnone.symm.trans hsite
            · rintro _ id c x ⟨⟩
              exact hnot id c x

/-- What is read at the reference of a byte. -/
lemma latestWrite (h : v.Traced calls known) {id : SpaceId} {c : Column} {x : Address}
    {ref : StackRef} (hsite : (v.run calls).site? id c x = some ref) :
    v.LatestWrite calls id c x ((v.run calls).callStacks.get ref) := by
  obtain ⟨stack, hmem, hlatest, rfl⟩ := h.site id c x ref hsite
  rwa [h.numbers.get_home hmem]

end Traced

/-! ## Detailed ledgers -/

/-- The ledger that records call stacks and knows only the process. -/
def createDetailed (config : Config) : Ledger := create { config with level := .detail }

lemma allowsWidth_clampedSlots (config : Config) :
    StackStore.allowsWidth config.clampedSlots = true := by
  have hlimit : StackStore.limit = 65536 := rfl
  rw [StackStore.allowsWidth, Config.clampedSlots, Bool.and_eq_true, decide_eq_true_eq,
    decide_eq_true_eq]
  omega

lemma traced_nil (config : Config) : (createDetailed config).Traced [] [] where
  charted := charted_create _
  numbers := StackStore.numbers_empty _ (allowsWidth_clampedSlots config)
  site id c x ref hsite := by
    have hspace : ∀ s, (createDetailed config).space? id = some s → s.site? c x = none := by
      intro s hs
      rw [(space?_create hs).2]
      exact site?_create _ _ _ c x
    obtain ⟨s, hs, hsome⟩ := Option.bind_eq_some_iff.mp hsite
    rw [hspace s hs] at hsome
    cases hsome

/-- **The history of every byte in use.**  The induction is on the last call. -/
theorem exists_traced (config : Config) (calls : List LedgerCall) :
    ∃ known, (createDetailed config).Traced calls known := by
  induction calls using List.reverseRecOn with
  | nil => exact ⟨[], traced_nil config⟩
  | append_singleton calls call ih =>
      obtain ⟨known, h⟩ := ih
      exact h.exists_step call

/-- The call sites that are recorded are those of the latest writes. -/
structure Sourced (v : Ledger) (calls : List LedgerCall) : Prop where
  /-- A process region is found around just the bytes in use. -/
  found_iff : ∀ x, (v.run calls).findRegion? x = none ↔ (v.run calls).stateAt x = .released
  /-- It has the call stack of the latest write of the byte. -/
  process : ∀ x found, (v.run calls).findRegion? x = some found →
    v.LatestWrite calls .process .reserved x found.stack
  /-- The reservations of another space refer to the call stacks of their latest writes. -/
  reserved : ∀ id s, (v.run calls).space? id = some s → ¬ id.isProcess → ∀ x,
    (s.reserved.sideAt x).state ≠ .released →
      v.LatestWrite calls id .reserved x
        ((v.run calls).callStacks.get (s.reserved.sideAt x).data.stack)
  /-- The commits of another space, which are kept apart, refer to the call stacks of theirs. -/
  committed : ∀ id s, (v.run calls).space? id = some s → ¬ id.isProcess →
    ∃ m, s.committed = some m ∧ ∀ x, (m.sideAt x).state ≠ .released →
      v.LatestWrite calls id .committed x ((v.run calls).callStacks.get (m.sideAt x).data.stack)

lemma Traced.sourced {calls : List LedgerCall} {known : List CallStack}
    (h : v.Traced calls known) : v.Sourced calls := by
  obtain ⟨s, hs⟩ : ∃ s, (v.run calls).space? .process = some s :=
    ⟨_, Array.getElem?_eq_getElem h.charted.pos⟩
  have hmap := (h.charted.maps _ s hs).reserved
  refine ⟨?_, ?_, ?_, ?_⟩
  · intro x
    rw [findRegion?, hs, Option.bind_some, stateAt_eq hs, Option.map_eq_none_iff,
      hmap.enclosing?_eq_none_iff]
  · intro x found hfound
    rw [findRegion?, hs, Option.bind_some] at hfound
    obtain ⟨run, hrun, rfl⟩ := Option.map_eq_some_iff.mp hfound
    have hused : (s.reserved.sideAt x).state ≠ .released := by
      rw [Ne, ← hmap.enclosing?_eq_none_iff, hrun]
      exact Option.some_ne_none _
    refine h.latestWrite ?_
    rw [site?, hs, Option.bind_some, hmap.side_of_enclosing? hrun]
    exact Side.site?_of_ne_released hused
  · intro id s hs _ x hused
    refine h.latestWrite ?_
    rw [site?, hs]
    exact Side.site?_of_ne_released hused
  · intro id s hs hdevice
    obtain ⟨m, hm⟩ : ∃ m, s.committed = some m := by
      rw [← h.charted.kind id s hs] at hdevice
      exact Option.ne_none_iff_exists'.mp hdevice
    refine ⟨m, hm, ?_⟩
    intro x hused
    refine h.latestWrite ?_
    rw [site?, hs, Option.bind_some, Space.site?, hm]
    exact Side.site?_of_ne_released hused

/-- **Every byte in use leads to the call stack of its latest write**, after any run of calls of a
ledger that records call stacks, whatever its seed and the size of its chunks. -/
theorem run_call_sites (config : Config) (calls : List LedgerCall) :
    (createDetailed config).Sourced calls := by
  obtain ⟨known, h⟩ := exists_traced config calls
  exact h.sourced

end Ledger

end RegionLedger
