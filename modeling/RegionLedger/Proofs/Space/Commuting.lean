import RegionLedger.Proofs.CallStack.Swapping
import RegionLedger.Proofs.Report.Twins
import RegionLedger.Proofs.Space.Returned
import RegionLedger.Proofs.Space.Siblings
import RegionLedger.Proofs.Tracker.Snapshots

/-!
# Operations on different memory commute

Two operations on different spaces, or on ranges of one space without a common byte, can be reported
in either order.  Each is answered alike, and every byte has the same state, tag, mapping and frames
in the end.  The references of their call stacks may differ, since a store numbers stacks as they
come; so the maps of the one order are twins of the maps of the other.

The totals are another matter.  They are the same as long as they are exact, but a removal of
mappings that was torn leaves them too high, and then they may saturate in one order only.

* `Ledger.Indexed`, `Ledger.indexed_run` — the references in use are places of the store.
* `Ledger.Acts`, `Ledger.Orders` — an operation that is carried out, and two of them in both orders.
* `Ledger.Charted.swap` — two operations on a ledger.
* `Operation.Apart`, `Ledger.Commute`, `Ledger.operations_commute` — what can be seen of it.
* `Ledger.torn_order_counts` — totals that are no longer exact.
-/

namespace RegionLedger

variable {σ : StackRef → StackRef} {refs : Set StackRef}

namespace Ledger

variable {v w : Ledger} {op A B : Operation}

/-! ## The references in use -/

/-- The ledger keeps no call stacks, or all references in use are places of its store. -/
inductive Indexed (v : Ledger) : Prop where
  | plain (blank : v.callStacks.detailed = false)
  | numbered (known : List CallStack)
      (numbers : v.callStacks.Numbers CallStack.fingerprint known)
      (sites : ∀ id c x, ∀ ref ∈ v.site? id c x,
        ref ∈ StackStore.places CallStack.fingerprint v.callStacks known)

/-- A ledger goes on without call stacks. -/
lemma Charted.plain_step (hv : v.Charted) (h : v.callStacks.detailed = false) (c : LedgerCall) :
    (v.step c).callStacks.detailed = false := by
  cases c with
  | register name => rwa [callStacks_register]
  | operation op =>
      show (v.apply op).2.callStacks.detailed = false
      rcases hv.apply_cases op with ⟨e, happly⟩ | ⟨ref, store, s, r, hstores, _, _, happly⟩
      · rwa [happly]
      · rw [happly, (hstores.eq_of_plain h).2]
        exact h

/-- **The references in use are places of the store**, after every run. -/
theorem indexed_run (config : Config) (calls : List LedgerCall) :
    ((create config).run calls).Indexed := by
  cases hdetailed : config.isDetailed with
  | true =>
      obtain ⟨known, htraced⟩ := exists_traced config calls
      have hlevel : config.level = .detail := of_decide_eq_true hdetailed
      have hconfig : createDetailed config = create config := by
        rw [createDetailed, ← hlevel]
      rw [hconfig] at htraced
      refine .numbered known htraced.numbers ?_
      intro id c x ref href
      obtain ⟨stack, hmem, _, hhome⟩ := htraced.site id c x ref href
      exact ⟨stack, hmem, hhome.symm⟩
  | false =>
      refine .plain ?_
      induction calls using List.reverseRecOn with
      | nil => exact hdetailed
      | append_singleton calls c ih =>
          rw [run_concat]
          exact (charted_run config calls).plain_step ih c

/-- Two call stacks in both orders, and the references in use. -/
lemma Indexed.swap (h : v.Indexed) {x y : Option CallStack} {r r' q q' : StackRef}
    {a b ab ba : StackStore} (hx : StackStore.Given CallStack.fingerprint v.callStacks x r a)
    (hy : StackStore.Given CallStack.fingerprint a y q ab)
    (hy' : StackStore.Given CallStack.fingerprint v.callStacks y q' b)
    (hx' : StackStore.Given CallStack.fingerprint b x r' ba) :
    ∃ σ refs, StackStore.Renames σ refs ab ba ∧
      (∀ id c x, ∀ ref ∈ v.site? id c x, ref ∈ refs ∧ σ ref = ref) ∧
      (x.isSome → r ∈ refs ∧ σ r = r') ∧ (y.isSome → q ∈ refs ∧ σ q = q') := by
  cases h with
  | plain blank =>
      obtain ⟨hrenames, hr, hq⟩ := StackStore.swap_of_plain blank hx hy hy' hx'
      exact ⟨id, Set.univ, hrenames, fun _ _ _ _ _ => ⟨trivial, rfl⟩,
        fun hsome => ⟨trivial, hr hsome⟩, fun hsome => ⟨trivial, hq hsome⟩⟩
  | numbered known numbers sites =>
      obtain ⟨σ, refs, hrenames, hold, hr, hq⟩ := numbers.swap hx hy hy' hx'
      exact ⟨σ, refs, hrenames, fun id c x ref href => hold ref (sites id c x ref href), hr, hq⟩

/-! ## Two operations on a ledger -/

/-- The operation finds its space and gives it a reference to its call stack, if it stores one. -/
structure Acts (v : Ledger) (op : Operation) (ref : StackRef) (store : StackStore) (s : Space) :
    Prop where
  given : StackStore.Given CallStack.fingerprint v.callStacks op.stack? ref store
  found : v.space? op.target = some s
  apply_eq : v.apply op = ((op.act ref s).1.mapError .region,
    { v with
      callStacks := store
      spaces := v.spaces.setIfInBounds op.target.raw.toNat (op.act ref s).2 })

namespace Acts

variable {ref : StackRef} {store : StackStore} {s : Space}

lemma space?_apply (h : v.Acts op ref store s) (id : SpaceId) :
    (v.apply op).2.space? id = if id = op.target then some (op.act ref s).2 else v.space? id := by
  rw [h.apply_eq]
  exact space?_set h.found _ id

lemma callStacks_apply (h : v.Acts op ref store s) : (v.apply op).2.callStacks = store := by
  rw [h.apply_eq]

lemma answer_eq (h : v.Acts op ref store s) :
    (v.apply op).1.map Deltas.toList = ((op.act ref s).1.map Deltas.toList).mapError .region := by
  rw [h.apply_eq]
  show ((op.act ref s).1.mapError LedgerError.region).map Deltas.toList = _
  cases (op.act ref s).1 <;> rfl

lemma outOfSlots (h : v.Acts op ref store s) (hfull : s.Starves (op.act ref s)) :
    v.OutOfSlots op ∧ v.Crowded := by
  obtain ⟨hanswer, hlimit⟩ := hfull
  refine ⟨?_, op.target, s, h.found, hlimit⟩
  rw [OutOfSlots, h.apply_eq, hanswer]
  rfl

end Acts

/-- **An operation that nothing stands against**, if its call stack finds a place. -/
lemma exists_acts (hpos : 0 < v.size) (hnone : op.objection? v.knows = none)
    (hplace : v.Places op) : ∃ ref store s, v.Acts op ref store s := by
  have hknown : ∃ s, v.space? op.target = some s := by
    have hprocess : ∃ s, v.space? .process = some s := ⟨_, Array.getElem?_eq_getElem hpos⟩
    cases op with
    | map | unmap => exact hprocess
    | reserve | commit | uncommit | release | retag =>
        rw [Operation.objection?] at hnone
        split_ifs at hnone with hknows
        exact Option.isSome_iff_exists.mp hknows
  obtain ⟨s, hs⟩ := hknown
  cases hstack : op.stack? with
  | none =>
      refine ⟨{}, v.callStacks, s, hstack ▸ .nothing _, hs, ?_⟩
      rw [apply_of_stackless hnone hstack, onSpace_eq hs]
  | some stack =>
      obtain ⟨ref, store, hpush⟩ := hplace hnone stack hstack
      have hs' : space? { v with callStacks := store } op.target = some s := hs
      refine ⟨ref, store, s, hstack ▸ .stack hpush, hs, ?_⟩
      rw [apply_of_push hnone hstack hpush, onSpace_eq hs']

/-- Which spaces are known depends on their number only. -/
lemma knows_congr (h : v.size = w.size) : v.knows = w.knows := by
  funext id
  rw [knows, knows, Bool.eq_iff_iff, Option.isSome_iff_ne_none, Option.isSome_iff_ne_none, Ne, Ne,
    space?_eq_none_iff, space?_eq_none_iff, h]

/-- The slots run out in one of two operations. -/
def RunsOut (v : Ledger) (A B : Operation) : Prop :=
  v.OutOfSlots A ∧ v.Crowded ∨
    (v.step (.operation A)).OutOfSlots B ∧ (v.step (.operation A)).Crowded

/-- Two operations that are answered alike in both orders, and leave maps that are twins. -/
def Swaps (v : Ledger) (A B : Operation) : Prop :=
  v.readings [.operation A, .operation B] = (v.readings [.operation B, .operation A]).reverse ∧
    ∃ σ refs, StackStore.Renames σ refs (v.run [.operation A, .operation B]).callStacks
        (v.run [.operation B, .operation A]).callStacks ∧
      ∀ id, Option.Rel (Space.Siblings σ refs) ((v.run [.operation A, .operation B]).space? id)
        ((v.run [.operation B, .operation A]).space? id)

lemma readings_pair (v : Ledger) (A B : Operation) :
    v.readings [.operation A, .operation B] =
      [((v.apply A).1.map Deltas.toList).map .inr,
        (((v.apply A).2.apply B).1.map Deltas.toList).map .inr] := by
  show [reading ((v.apply A).1.map .inr), reading (((v.apply A).2.apply B).1.map .inr)] = _
  rw [reading_inr, reading_inr]

/-- The same ledger in both orders. -/
lemma Charted.swaps_of_eq (hv : v.Charted)
    (hreadings : v.readings [.operation A, .operation B] =
      (v.readings [.operation B, .operation A]).reverse)
    (hrun : v.run [.operation A, .operation B] = v.run [.operation B, .operation A]) :
    v.Swaps A B := by
  refine ⟨hreadings, id, Set.univ, ?_, ?_⟩
  · rw [hrun]
    exact StackStore.renames_self _ _
  · intro id
    rw [hrun]
    have hcharted : (v.run [.operation B, .operation A]).Charted :=
      (hv.step (.operation B)).step (.operation A)
    cases hs : (v.run [.operation B, .operation A]).space? id with
    | none => exact .none
    | some s =>
        have hself := (hcharted.maps id s hs).twins_self (Set.injOn_id Set.univ)
          fun _ _ _ _ => ⟨trivial, rfl⟩
        exact .some hself.siblings

/-- An operation that something stands against can be reported at any time. -/
lemma swap_of_objection {e : LedgerError} (he : A.objection? v.knows = some e) (B : Operation) :
    v.readings [.operation A, .operation B] = (v.readings [.operation B, .operation A]).reverse ∧
      v.run [.operation A, .operation B] = v.run [.operation B, .operation A] := by
  have hleft := apply_of_objection he
  have hright : (v.apply B).2.apply A = (.error e, (v.apply B).2) := by
    refine apply_of_objection ?_
    rw [knows_congr (v.size_apply B), he]
  refine ⟨?_, ?_⟩
  · rw [readings_pair, readings_pair, hleft, hright]
    rfl
  · show ((v.apply A).2.apply B).2 = ((v.apply B).2.apply A).2
    rw [hleft, hright]

/-! ## Both orders -/

/-- Two operations are carried out in both orders, and their references in the one order become those
in the other. -/
structure Orders (v : Ledger) (A B : Operation) (σ : StackRef → StackRef) (refs : Set StackRef)
    (r q q' r' : StackRef) (s t₁ t s₁ : Space) : Prop where
  first : ∃ a, v.Acts A r a s
  second : ∃ ab, (v.apply A).2.Acts B q ab t₁
  first' : ∃ b, v.Acts B q' b t
  second' : ∃ ba, (v.apply B).2.Acts A r' ba s₁
  renames : StackStore.Renames σ refs (v.run [.operation A, .operation B]).callStacks
    (v.run [.operation B, .operation A]).callStacks
  self : ∀ id u, v.space? id = some u → Space.Twins σ refs u u
  left : A.stack?.isSome → r ∈ refs ∧ σ r = r'
  right : B.stack?.isSome → q ∈ refs ∧ σ q = q'

lemma Charted.exists_orders (hv : v.Charted) (hindexed : v.Indexed)
    (hnoneA : A.objection? v.knows = none) (hnoneB : B.objection? v.knows = none)
    (hA : v.Places A) (hB : (v.apply A).2.Places B) (hB' : v.Places B)
    (hA' : (v.apply B).2.Places A) :
    ∃ σ refs r q q' r' s t₁ t s₁, v.Orders A B σ refs r q q' r' s t₁ t s₁ := by
  have hacts : ∀ {op op'}, op'.objection? v.knows = none → (v.apply op).2.Places op' →
      ∃ ref store s, (v.apply op).2.Acts op' ref store s := by
    intro op op' hnone hplace
    exact exists_acts (hv.pos.trans_eq (v.size_apply op).symm)
      (by rwa [knows_congr (v.size_apply op)]) hplace
  obtain ⟨r, a, s, hfirst⟩ := exists_acts hv.pos hnoneA hA
  obtain ⟨q', b, t, hfirst'⟩ := exists_acts hv.pos hnoneB hB'
  obtain ⟨q, ab, t₁, hsecond⟩ := hacts hnoneB hB
  obtain ⟨r', ba, s₁, hsecond'⟩ := hacts hnoneA hA'
  have hgiven := hsecond.given
  have hgiven' := hsecond'.given
  rw [hfirst.callStacks_apply] at hgiven
  rw [hfirst'.callStacks_apply] at hgiven'
  obtain ⟨σ, refs, hrenames, hfix, hleft, hright⟩ :=
    hindexed.swap hfirst.given hgiven hfirst'.given hgiven'
  refine ⟨σ, refs, r, q, q', r', s, t₁, t, s₁, ⟨a, hfirst⟩, ⟨ab, hsecond⟩, ⟨b, hfirst'⟩,
    ⟨ba, hsecond'⟩, ?_, ?_, hleft, hright⟩
  · show StackStore.Renames σ refs ((v.apply A).2.apply B).2.callStacks
      ((v.apply B).2.apply A).2.callStacks
    rw [hsecond.callStacks_apply, hsecond'.callStacks_apply]
    exact hrenames
  · intro id u hu
    refine (hv.maps id u hu).twins_self hrenames.injOn ?_
    intro c x ref href
    refine hfix id c x ref ?_
    rw [site?, hu]
    exact href

namespace Orders

variable {r q q' r' : StackRef} {s t₁ t s₁ : Space}

/-- The space of the second operation is as the first one left it, or as it was. -/
lemma second_eq (h : v.Orders A B σ refs r q q' r' s t₁ t s₁) :
    t₁ = if A.target = B.target then (A.act r s).2 else t := by
  obtain ⟨a, hfirst⟩ := h.first
  obtain ⟨ab, hsecond⟩ := h.second
  obtain ⟨b, hfirst'⟩ := h.first'
  have hfound := hsecond.found
  rw [hfirst.space?_apply, hfirst'.found] at hfound
  split_ifs at hfound ⊢ with htarget htarget' htarget'
  · exact (Option.some.inj hfound).symm
  · exact absurd htarget.symm htarget'
  · exact absurd htarget'.symm htarget
  · exact (Option.some.inj hfound).symm

/-- The same in the other order. -/
lemma symm_second_eq (h : v.Orders A B σ refs r q q' r' s t₁ t s₁) :
    s₁ = if A.target = B.target then (B.act q' t).2 else s := by
  obtain ⟨b, hfirst'⟩ := h.first'
  obtain ⟨ba, hsecond'⟩ := h.second'
  obtain ⟨a, hfirst⟩ := h.first
  have hfound := hsecond'.found
  rw [hfirst'.space?_apply, hfirst.found] at hfound
  split_ifs at hfound ⊢ with htarget
  · exact (Option.some.inj hfound).symm
  · exact (Option.some.inj hfound).symm

/-- The spaces after both operations. -/
lemma spaces_eq (h : v.Orders A B σ refs r q q' r' s t₁ t s₁) (id : SpaceId) :
    (v.run [.operation A, .operation B]).space? id =
        (if id = B.target then some (B.act q t₁).2
        else if id = A.target then some (A.act r s).2 else v.space? id) ∧
      (v.run [.operation B, .operation A]).space? id =
        (if id = A.target then some (A.act r' s₁).2
        else if id = B.target then some (B.act q' t).2 else v.space? id) := by
  obtain ⟨a, hfirst⟩ := h.first
  obtain ⟨ab, hsecond⟩ := h.second
  obtain ⟨b, hfirst'⟩ := h.first'
  obtain ⟨ba, hsecond'⟩ := h.second'
  rw [← hfirst.space?_apply id, ← hfirst'.space?_apply id]
  exact ⟨hsecond.space?_apply id, hsecond'.space?_apply id⟩

lemma readings_eq (h : v.Orders A B σ refs r q q' r' s t₁ t s₁)
    (hleft : (A.act r s).1.map Deltas.toList = (A.act r' s₁).1.map Deltas.toList)
    (hright : (B.act q t₁).1.map Deltas.toList = (B.act q' t).1.map Deltas.toList) :
    v.readings [.operation A, .operation B] =
      (v.readings [.operation B, .operation A]).reverse := by
  obtain ⟨a, hfirst⟩ := h.first
  obtain ⟨ab, hsecond⟩ := h.second
  obtain ⟨b, hfirst'⟩ := h.first'
  obtain ⟨ba, hsecond'⟩ := h.second'
  rw [readings_pair, readings_pair, hfirst.answer_eq, hsecond.answer_eq, hfirst'.answer_eq,
    hsecond'.answer_eq, hleft, hright]
  rfl

/-- **Two spaces.**  Each of them finds itself as it was. -/
lemma swaps_of_ne (h : v.Orders A B σ refs r q q' r' s t₁ t s₁) (hv : v.Charted)
    (htarget : A.target ≠ B.target) : v.Swaps A B := by
  obtain rfl := h.second_eq.trans (if_neg htarget)
  obtain rfl := h.symm_second_eq.trans (if_neg htarget)
  obtain ⟨a, hfirst⟩ := h.first
  obtain ⟨b, hfirst'⟩ := h.first'
  have hleft := (h.self _ _ hfirst.found).act_given (hv.kind _ _ hfirst.found) h.left
  have hright := (h.self _ _ hfirst'.found).act_given (hv.kind _ _ hfirst'.found) h.right
  refine ⟨h.readings_eq (by rw [hleft.eq]) (by rw [hright.eq]), σ, refs, h.renames, ?_⟩
  intro id
  rw [(h.spaces_eq id).1, (h.spaces_eq id).2]
  split_ifs with hB hA hA
  · exact absurd (hA.symm.trans hB) htarget
  · exact .some hright.related.siblings
  · exact .some hleft.related.siblings
  · cases hu : v.space? id with
    | none => exact .none
    | some u => exact .some (h.self id u hu).siblings

/-- **One space.**  Its bytes can be written in either order. -/
lemma swaps_of_eq (h : v.Orders A B σ refs r q q' r' s t₁ t s₁) (hv : v.Charted)
    (htarget : A.target = B.target) (hA : A.Checked) (hB : B.Checked) (hlenA : A.size ≤ maxSpan)
    (hlenB : B.size ≤ maxSpan) (hapart : ∀ x, ¬ (A.Covers x ∧ B.Covers x)) :
    v.RunsOut A B ∨ v.RunsOut B A ∨ v.Swaps A B := by
  obtain rfl := h.second_eq.trans (if_pos htarget)
  obtain rfl := h.symm_second_eq.trans (if_pos htarget)
  obtain ⟨a, hfirst⟩ := h.first
  obtain ⟨ab, hsecond⟩ := h.second
  obtain ⟨b, hfirst'⟩ := h.first'
  obtain ⟨ba, hsecond'⟩ := h.second'
  obtain rfl : s = t := Option.some.inj (hfirst.found.symm.trans (htarget ▸ hfirst'.found))
  have hkind := hv.kind _ s hfirst.found
  rcases (hv.maps _ s hfirst.found).exchange_twins (h.self _ s hfirst.found) hkind
    (htarget ▸ hkind) hA hB hlenA hlenB hapart h.left h.right with
    (hfull | hfull | hfull | hfull) | ⟨hleft, hright, hsiblings⟩
  · exact .inl (.inl (hfirst.outOfSlots hfull))
  · exact .inl (.inr (hsecond.outOfSlots hfull))
  · exact .inr (.inl (.inl (hfirst'.outOfSlots hfull)))
  · exact .inr (.inl (.inr (hsecond'.outOfSlots hfull)))
  · refine .inr (.inr ⟨h.readings_eq hleft hright, σ, refs, h.renames, ?_⟩)
    intro id
    rw [(h.spaces_eq id).1, (h.spaces_eq id).2, htarget]
    split_ifs
    · exact .some hsiblings
    · cases hu : v.space? id with
      | none => exact .none
      | some u => exact .some (h.self id u hu).siblings

end Orders

end Ledger

/-- The operations act on different spaces or on ranges without a common byte. -/
def Operation.Apart (A B : Operation) : Prop :=
  A.target ≠ B.target ∨ ∀ x, ¬ (A.Covers x ∧ B.Covers x)

/-! ## What can be seen -/

/-- Two spaces hold the same memory: every byte has the same state, tag, mapping and frames, and the
boundaries stand at the same addresses. -/
structure Space.SameMemory (a b : StackStore) (s t : Space) : Prop where
  name : s.name = t.name
  reserved : s.reserved.Alike a b t.reserved
  mapping : ∀ x, (s.reserved.sideAt x).data.mapping = (t.reserved.sideAt x).data.mapping
  committed : Option.Rel (RegionMap.Alike a b) s.committed t.committed

lemma Space.Siblings.sameMemory {s t : Space} (h : Siblings σ refs s t) {a b : StackStore}
    (hab : StackStore.Renames σ refs a b) : SameMemory a b s t := by
  refine ⟨h.name, h.reserved.alike hab.get_eq, ?_, ?_⟩
  · intro x
    rw [h.reserved.sideAt_eq, Side.mapping_relabel]
  · rcases h.committed with ⟨hs, ht⟩ | ⟨m, n, hs, ht, hmn⟩
    · rw [hs, ht]
      exact .none
    · rw [hs, ht]
      exact .some (hmn.alike hab.get_eq)

lemma RegionMap.Alike.held_eq {μ : Type} [Metadata μ] [Sited μ] {a b : StackStore}
    {m n : RegionMap μ} (h : m.Alike a b n) (c : Column) (t : Tag) :
    Bytes.held m.sideAt c t = Bytes.held n.sideAt c t := by
  refine congrArg Set.ncard (Set.ext fun x => ?_)
  show (m.sideAt x).CountsIn c t ↔ (n.sideAt x).CountsIn c t
  rw [Side.CountsIn, Side.CountsIn, h.state, h.tag]

lemma Space.SameMemory.bytes_eq {s t : Space} {a b : StackStore} (h : SameMemory a b s t)
    (c : Column) (tag : Tag) : s.bytes c tag = t.bytes c tag := by
  have hreserved : ∀ col, Bytes.held s.reserved.sideAt col tag =
      Bytes.held t.reserved.sideAt col tag := fun col => h.reserved.held_eq col tag
  cases c with
  | reserved => exact hreserved .reserved
  | committed =>
      have hcommitted := h.committed
      cases hs : s.committed with
      | none =>
          cases ht : t.committed with
          | none => simp only [bytes, hs, ht, hreserved]
          | some n =>
              rw [hs, ht] at hcommitted
              cases hcommitted
      | some m =>
          cases ht : t.committed with
          | none =>
              rw [hs, ht] at hcommitted
              cases hcommitted
          | some n =>
              rw [hs, ht] at hcommitted
              cases hcommitted with
              | some hmn => simp only [bytes, hs, ht, hmn.held_eq]

namespace Ledger

variable {v w : Ledger} {A B : Operation}

/-- All spaces hold the same memory. -/
def SameMemory (v w : Ledger) : Prop :=
  ∀ id, Option.Rel (Space.SameMemory v.callStacks w.callStacks) (v.space? id) (w.space? id)

/-- Exact totals of the same memory are the same. -/
lemma SameMemory.counted_eq (h : v.SameMemory w) (hv : v.Sound) (hw : w.Sound) (id : SpaceId)
    (c : Column) (t : Tag) : v.counted id c t = w.counted id c t := by
  have hid := h id
  rw [counted, counted]
  cases hs : v.space? id with
  | none =>
      rw [hs] at hid
      cases hs' : w.space? id with
      | none => rfl
      | some s' =>
          rw [hs'] at hid
          cases hid
  | some s =>
      rw [hs] at hid
      cases hs' : w.space? id with
      | none =>
          rw [hs'] at hid
          cases hid
      | some s' =>
          rw [hs'] at hid
          cases hid with
          | some hsame =>
              show s.totals.amount c t = s'.totals.amount c t
              rw [(hv.sound id s hs).amount, (hw.sound id s' hs').amount, hsame.bytes_eq]

/-- One more operation of at most the longest span. -/
lemma SpansFit.concat {calls : List LedgerCall} {op : Operation} (h : SpansFit calls)
    (hop : op.size ≤ maxSpan) : SpansFit (calls ++ [.operation op]) := by
  intro op' hmem
  rcases List.mem_append.mp hmem with hmem | hmem
  · exact h op' hmem
  · rintro id base size rfl
    cases List.mem_singleton.mp hmem
    exact hop

/-- Two operations are answered alike in both orders, and leave the same memory. -/
structure Commute (v : Ledger) (A B : Operation) : Prop where
  answers : v.readings [.operation A, .operation B] =
    (v.readings [.operation B, .operation A]).reverse
  memory : (v.run [.operation A, .operation B]).SameMemory (v.run [.operation B, .operation A])

lemma Swaps.commute (h : v.Swaps A B) : v.Commute A B := by
  obtain ⟨hanswers, σ, refs, hrenames, hspaces⟩ := h
  refine ⟨hanswers, ?_⟩
  intro id
  have hid := hspaces id
  generalize (v.run [.operation A, .operation B]).space? id = p at hid
  generalize (v.run [.operation B, .operation A]).space? id = q at hid
  cases hid with
  | none => exact .none
  | some hsiblings => exact .some (hsiblings.sameMemory hrenames)

/-- **Two operations on a ledger.** -/
theorem Charted.swap (hv : v.Charted) (hindexed : v.Indexed) (hapart : A.Apart B)
    (hlenA : A.size ≤ maxSpan) (hlenB : B.size ≤ maxSpan)
    (hleft : v.storesAll [.operation A, .operation B] = true)
    (hright : v.storesAll [.operation B, .operation A] = true) :
    v.RunsOut A B ∨ v.RunsOut B A ∨ v.Swaps A B := by
  simp only [storesAll, Bool.and_true, Bool.and_eq_true, Bool.not_eq_true'] at hleft hright
  cases hA : A.objection? v.knows with
  | some e =>
      obtain ⟨hreadings, hrun⟩ := swap_of_objection hA B
      exact .inr (.inr (hv.swaps_of_eq hreadings hrun))
  | none =>
      cases hB : B.objection? v.knows with
      | some e =>
          obtain ⟨hreadings, hrun⟩ := swap_of_objection hB A
          refine .inr (.inr (hv.swaps_of_eq ?_ hrun.symm))
          rw [hreadings, List.reverse_reverse]
      | none =>
          obtain ⟨σ, refs, r, q, q', r', s, t₁, t, s₁, horders⟩ := hv.exists_orders hindexed hA hB
            (places_of_not_exhausts hleft.1) (places_of_not_exhausts hleft.2)
            (places_of_not_exhausts hright.1) (places_of_not_exhausts hright.2)
          by_cases htarget : A.target = B.target
          · exact horders.swaps_of_eq hv htarget (checked_of_objection? hA)
              (checked_of_objection? hB) hlenA hlenB (hapart.resolve_left (not_not.mpr htarget))
          · exact .inr (.inr (horders.swaps_of_ne hv htarget))

/-- The slots do not run out in a short history. -/
lemma RunsOut.lt (config : Config) {calls : List LedgerCall}
    (h : ((create config).run calls).RunsOut A B) (hspans : SpansFit calls)
    (hA : A.size ≤ maxSpan) : Slots.limit < 2 * calls.length + 6 := by
  rcases h with ⟨_, hcrowded⟩ | ⟨_, hcrowded⟩
  · have hlt := lt_of_crowded config hspans hcrowded
    omega
  · rw [← run_concat] at hcrowded
    have hlt := lt_of_crowded config (hspans.concat hA) hcrowded
    rw [List.length_append, List.length_singleton] at hlt
    omega

/-- **Operations on different memory commute.**  Two operations of at most the longest span on
different spaces, or on ranges of one space without a common byte, get the same answers in either
order if their call stacks find places, and every byte of every space has the same state, tag,
mapping and frames afterwards.  If no removal of mappings so far reached over more than the longest
span, then all counters are the same as well.  The one exception is that the slots of a map run out,
after two billion calls at least. -/
theorem operations_commute (config : Config) (calls : List LedgerCall) (A B : Operation)
    (hapart : A.Apart B) (hA : A.size ≤ maxSpan) (hB : B.size ≤ maxSpan)
    (hleft : ((create config).run calls).storesAll [.operation A, .operation B] = true)
    (hright : ((create config).run calls).storesAll [.operation B, .operation A] = true) :
    (((create config).run calls).RunsOut A B ∨ ((create config).run calls).RunsOut B A) ∧
      (SpansFit calls → Slots.limit < 2 * calls.length + 6) ∨
    ((create config).run calls).Commute A B ∧
      (SpansFit calls → 2 * calls.length + 6 ≤ Slots.limit → ∀ id c t,
        (((create config).run calls).run [.operation A, .operation B]).counted id c t =
          (((create config).run calls).run [.operation B, .operation A]).counted id c t) := by
  rcases (charted_run config calls).swap (indexed_run config calls) hapart hA hB hleft hright with
    hout | hout | hswaps
  · exact .inl ⟨.inl hout, fun hspans => hout.lt config hspans hA⟩
  · exact .inl ⟨.inr hout, fun hspans => hout.lt config hspans hB⟩
  · have hcommute := hswaps.commute
    refine .inr ⟨hcommute, ?_⟩
    intro hspans hlength
    have hsound : ∀ X Y : Operation, X.size ≤ maxSpan → Y.size ≤ maxSpan →
        (((create config).run calls).run [.operation X, .operation Y]).Sound := by
      intro X Y hX hY
      have hfits := (hspans.concat hX).concat hY
      have hshort : 2 * (calls ++ [LedgerCall.operation X] ++ [LedgerCall.operation Y]).length + 2 ≤
          Slots.limit := by
        simp only [List.length_append, List.length_singleton]
        omega
      have hexact := exact_run config _ hfits (smooth_of_length_le config hfits hshort)
      have hrun := hexact.sound
      rwa [run_concat, run_concat] at hrun
    exact hcommute.memory.counted_eq (hsound A B hA hB) (hsound B A hB hA)

/-- A reservation that two commits can be made in. -/
def roomyCalls : List LedgerCall :=
  [.register "device", .operation (.reserve .process 0x1000 0x4000 ⟨7⟩ ⟨[0xa1]⟩)]

/-- Two commits that touch, from two call sites that share the one slot of a chunk.  The order shows
in their references and in nothing else. -/
theorem touching_commits_commute :
    let v := (create { chunkSlots := 1 }).run roomyCalls
    let A := Operation.commit .process 0x1000 0x1000 ⟨8⟩ ⟨[0xb2]⟩
    let B := Operation.commit .process 0x2000 0x1000 ⟨9⟩ ⟨[0xc3]⟩
    (v.run [.operation A, .operation B]).site? .process .reserved 0x1000 = some ⟨1, 0⟩ ∧
      (v.run [.operation B, .operation A]).site? .process .reserved 0x1000 = some ⟨2, 0⟩ ∧
      v.Commute A B ∧ ∀ id c t, (v.run [.operation A, .operation B]).counted id c t =
        (v.run [.operation B, .operation A]).counted id c t := by
  intro v A B
  refine ⟨by decide +kernel, by decide +kernel, ?_⟩
  have hapart : A.Apart B := by
    refine .inr ?_
    rintro x ⟨⟨_, hA⟩, ⟨hB, _⟩⟩
    rw [UInt64.le_iff_toNat_le] at hB
    have hstop : A.start.toNat + A.size.toNat = 0x2000 := rfl
    have hstart : B.start.toNat = 0x2000 := rfl
    omega
  have hslots : Slots.limit = 4294967296 := rfl
  have hlength : roomyCalls.length = 2 := rfl
  have hspans : SpansFit roomyCalls := by decide
  rcases operations_commute { chunkSlots := 1 } roomyCalls A B hapart (by decide) (by decide)
    (by decide +kernel) (by decide +kernel) with ⟨_, hlimit⟩ | ⟨hcommute, hcounted⟩
  · -- so few calls do not use up the slots
    have hlt := hlimit hspans
    omega
  · exact ⟨hcommute, hcounted hspans (by omega)⟩

/-- Two mappings of which the second grew too long to be removed: their removal releases the first
and books nothing.  The rest of the memory is released, and half of all addresses reserved. -/
def tornCalls : List LedgerCall :=
  [.register "device", .operation (.map ⟨1⟩ 0 0x1000 0 ⟨1⟩ {}),
    .operation (.map ⟨1⟩ 0x2000 maxSpan 0x2000 ⟨2⟩ {}),
    .operation (.map ⟨1⟩ (0x2000 + maxSpan) 0x1000 (0x2000 + maxSpan) ⟨2⟩ {}),
    .operation (.unmap ⟨1⟩ 0 (maxSpan + 0x4000)),
    .operation (.release .process 0x2000 maxSpan),
    .operation (.release .process (0x2000 + maxSpan) 0x1000),
    .operation (.reserve .process 0 maxSpan ⟨1⟩ {})]

/-- After a removal that was torn, the totals are too high.  To reserve the other half of the
addresses makes them saturate, unless the first half is released before. -/
theorem torn_order_counts :
    let v := (create {}).run tornCalls
    let A := Operation.reserve .process maxSpan maxSpan ⟨1⟩ {}
    let B := Operation.release .process 0 maxSpan
    A.Apart B ∧ A.size ≤ maxSpan ∧ B.size ≤ maxSpan ∧
      v.storesAll [.operation A, .operation B] = true ∧
      v.storesAll [.operation B, .operation A] = true ∧
      (v.run [.operation A, .operation B]).counted .process .reserved ⟨1⟩ = 9223372036854775808 ∧
      (v.run [.operation B, .operation A]).counted .process .reserved ⟨1⟩ = 9223372036854779903 ∧
      ¬ ∀ id c t, (v.run [.operation A, .operation B]).counted id c t =
        (v.run [.operation B, .operation A]).counted id c t := by
  intro v A B
  have hapart : A.Apart B := by
    refine .inr ?_
    rintro x ⟨⟨hA, _⟩, ⟨_, hB⟩⟩
    rw [UInt64.le_iff_toNat_le] at hA
    have hstart : A.start.toNat = maxSpan.toNat := by decide
    have hstop : B.start.toNat + B.size.toNat = maxSpan.toNat := by decide
    omega
  have hAB : (v.run [.operation A, .operation B]).counted .process .reserved ⟨1⟩ =
      9223372036854775808 := by decide +kernel
  have hBA : (v.run [.operation B, .operation A]).counted .process .reserved ⟨1⟩ =
      9223372036854779903 := by decide +kernel
  refine ⟨hapart, by decide, by decide, by decide +kernel, by decide +kernel, hAB, hBA, ?_⟩
  intro hsame
  have hone := hsame .process .reserved ⟨1⟩
  rw [hAB, hBA] at hone
  omega

end Ledger

end RegionLedger
