import RegionLedger.Proofs.Region.Renumbering
import RegionLedger.Proofs.Space.Beside

/-!
# Ledgers under other tags

Operations with other tags in them, on a ledger under the same other tags, get the same answers under
other tags and leave such a ledger again.  Call stacks and slots are the same in both, so an operation
is refused in the one if it is in the other, and for the same cause.

* `Space.Renumbers`, `Ledger.Renumbers` — the same under other tags.
* `Operation.renumber`, `Space.Renumbers.act` — an operation on a space.
* `Ledger.Renumbers.apply`, `Ledger.Renumbers.register` — a call of a ledger.
-/

namespace RegionLedger

variable {π : Renumbering}

variable (π) in
/-- The operation with its other tag. -/
def Operation.renumber : Operation → Operation
  | reserve space start size tag stack => reserve space start size (π tag) stack
  | commit space start size tag stack => commit space start size (π tag) stack
  | uncommit space start size stack => uncommit space start size stack
  | release space start size => release space start size
  | map space base size offset tag stack => map space base size offset (π tag) stack
  | unmap space base size => unmap space base size
  | retag space start size tag => retag space start size (π tag)

/-! ## Spaces -/

namespace Space

/-- The second space is the first under other tags. -/
structure Renumbers (π : Renumbering) (s t : Space) : Prop where
  name : s.name = t.name
  reserved : t.reserved = s.reserved.renumber π
  committed : t.committed = s.committed.map (RegionMap.renumber π)
  totals : Totals.Renumbers π s.totals t.totals

/-- Two operations get the same answer under other tags and leave the same under other tags. -/
def SameRenumbers (π : Renumbering) : Except RegionError Deltas × Space →
    Except RegionError Deltas × Space → Prop :=
  SameOutcome (Deltas.Renumbers π) (Renumbers π)

namespace Renumbers

variable {s t : Space}

lemma create (π : Renumbering) (id : SpaceId) (name : String) (seed : UInt64) :
    Renumbers π (.create id name seed) (.create id name seed) := by
  refine ⟨rfl, rfl, ?_, List.Pairwise.nil, List.Pairwise.nil, fun _ => rfl⟩
  rw [Space.create]
  dsimp only
  split_ifs <;> rfl

lemma account (h : Renumbers π s t) {d e : Deltas} (hde : Deltas.Renumbers π d e) :
    Renumbers π (s.account d) (t.account e) :=
  ⟨h.name, h.reserved, h.committed, h.totals.apply hde⟩

lemma set_reserved (h : Renumbers π s t) (m : RegionMap Placement) :
    Renumbers π { s with reserved := m } { t with reserved := m.renumber π } :=
  ⟨h.name, rfl, h.committed, h.totals⟩

lemma set_committed (h : Renumbers π s t) (m : RegionMap Attribution) :
    Renumbers π { s with committed := some m } { t with committed := some (m.renumber π) } :=
  ⟨h.name, h.reserved, rfl, h.totals⟩

lemma committed_cases (h : Renumbers π s t) :
    (s.committed = none ∧ t.committed = none) ∨
      ∃ m, s.committed = some m ∧ t.committed = some (m.renumber π) := by
  rw [h.committed]
  cases s.committed with
  | none => exact .inl ⟨rfl, rfl⟩
  | some m => exact .inr ⟨m, rfl, rfl⟩

/-! ### The forms of an operation -/

/-- The answer of a mutation, under other tags. -/
lemma apply_cases {μ : Type} [Metadata μ] [Tagged μ] [DecidableEq μ] {m : RegionMap μ}
    (hm : m.Represents m.sideAt) (c : Mutation μ) :
    (∃ e, c.apply m = .error e ∧ (c.renumber π).apply (m.renumber π) = .error e) ∨
      ∃ d m', c.apply m = .ok (d, m') ∧ Deltas.Renumbers π d (d.renumber π) ∧
        (c.renumber π).apply (m.renumber π) = .ok (d.renumber π, m'.renumber π) := by
  have happly := Mutation.apply_renumber π c m
  cases hanswer : c.apply m with
  | error e =>
      rw [hanswer] at happly
      exact .inl ⟨e, rfl, happly⟩
  | ok answer =>
      obtain ⟨d, m'⟩ := answer
      rw [hanswer] at happly
      obtain ⟨_, _, _, hbooks⟩ := hm.apply_writes hanswer
      exact .inr ⟨d, m', rfl, ⟨hbooks.distinct, rfl⟩, happly⟩

lemma takeReserved (h : Renumbers π s t) (hs : s.Maps) (c : Mutation Placement) :
    SameRenumbers π (s.takeReserved (c.apply s.reserved))
      (t.takeReserved ((c.renumber π).apply t.reserved)) := by
  rw [h.reserved]
  rcases apply_cases (π := π) hs.reserved c with ⟨e, hleft, hright⟩ | ⟨d, m, hleft, hd, hright⟩
  · rw [hleft, hright]
    exact .error e h
  · rw [hleft, hright]
    exact .ok hd ((h.set_reserved m).account hd)

lemma takeCommitted (h : Renumbers π s t) {m : RegionMap Attribution}
    (hm : m.Represents m.sideAt) (c : Mutation Attribution) :
    SameRenumbers π (s.takeCommitted (c.apply m))
      (t.takeCommitted ((c.renumber π).apply (m.renumber π))) := by
  rcases apply_cases (π := π) hm c with ⟨e, hleft, hright⟩ | ⟨d, m', hleft, hd, hright⟩
  · rw [hleft, hright]
    exact .error e h
  · rw [hleft, hright]
    exact .ok hd.commitOnly ((h.set_committed m').account hd.commitOnly)

lemma takeBoth (h : Renumbers π s t) (hs : s.Maps) (c : Mutation Placement)
    (c' : Mutation Attribution) :
    SameRenumbers π (s.takeBoth (c.apply s.reserved) (c'.apply ·))
      (t.takeBoth ((c.renumber π).apply t.reserved) ((c'.renumber π).apply ·)) := by
  rw [h.reserved]
  rcases apply_cases (π := π) hs.reserved c with ⟨e, hleft, hright⟩ | ⟨d, m, hleft, hd, hright⟩
  · rw [hleft, hright]
    exact .error e h
  · have hset := h.set_reserved m
    rw [hleft, hright]
    rcases h.committed_cases with ⟨hnone, hnone'⟩ | ⟨m₁, hsome, hsome'⟩
    · rw [takeBoth_of_none hnone, takeBoth_of_none hnone']
      exact .ok hd (hset.account hd)
    · rcases apply_cases (π := π) (hs.committed m₁ hsome) c' with
        ⟨e, hleft', hright'⟩ | ⟨d', m₂, hleft', hd', hright'⟩
      · rw [takeBoth_of_error hsome hleft', takeBoth_of_error hsome' hright']
        exact .error e hset
      · cases hplus : d.plus d'.commitOnly with
        | error o =>
            rw [takeBoth_of_overflow hsome hleft' hplus,
              takeBoth_of_overflow hsome' hright' (hd.plus_error hd'.commitOnly hplus)]
            exact .error _ (hset.set_committed m₂)
        | ok sum =>
            obtain ⟨sum', hplus', hsum⟩ := hd.plus hd'.commitOnly hplus
            rw [takeBoth_of_ok hsome hleft' hplus, takeBoth_of_ok hsome' hright' hplus']
            exact .ok hsum ((hset.set_committed m₂).account hsum)

/-! ### Releasing mapped runs -/

/-- Runs released one after the other. -/
lemma releaseEach_renumber {m : RegionMap Placement} (hm : m.Represents m.sideAt) {sum : Deltas}
    (hsum : sum.Distinct) (runs : List (Run Placement)) :
    SameOutcome (Deltas.Renumbers π) (fun m n => n = m.renumber π) (releaseEach m sum runs)
      (releaseEach (m.renumber π) (sum.renumber π) (runs.map (Run.renumber π))) := by
  induction runs generalizing m sum with
  | nil => exact .ok ⟨hsum, rfl⟩ rfl
  | cons r rest ih =>
      rw [List.map_cons, releaseEach, releaseEach]
      rcases apply_cases (π := π) hm (.release r.start r.size) with
        ⟨e, hleft, hright⟩ | ⟨d, m', hleft, hd, hright⟩
      · have hleft' : m.release r.start r.size = .error e := hleft
        have hright' : (m.renumber π).release (r.renumber π).start (r.renumber π).size = .error e :=
          hright
        rw [hleft', hright']
        exact .error e rfl
      · have hleft' : m.release r.start r.size = .ok (d, m') := hleft
        have hright' : (m.renumber π).release (r.renumber π).start (r.renumber π).size =
            .ok (d.renumber π, m'.renumber π) := hright
        obtain ⟨_, hm', hsides, _⟩ := hm.apply_writes hleft
        rw [hleft', hright']
        dsimp only
        rw [Deltas.plus_renumber]
        cases hplus : sum.plus d with
        | error o => exact .error _ rfl
        | ok sum' => exact ih (hsides ▸ hm') (hsum.plus hplus)

lemma mapped_eq (h : Renumbers π s t) (target : SpaceId) (first last : Address) :
    t.mapped target first last = (s.mapped target first last).map (Run.renumber π) := by
  rw [Space.mapped_eq, Space.mapped_eq, h.reserved]
  exact RegionMap.filter_segments_renumber π s.reserved first last fun _ => rfl

lemma unmap (h : Renumbers π s t) (hs : s.Maps) (target : SpaceId) (first last : Address) :
    SameRenumbers π (s.unmap target first last) (t.unmap target first last) := by
  have heach := releaseEach_renumber (π := π) hs.reserved Deltas.distinct_empty
    (s.mapped target first last)
  rw [← h.mapped_eq, ← h.reserved] at heach
  generalize hp : Space.releaseEach s.reserved ∅ (s.mapped target first last) = p at heach
  generalize hq : Space.releaseEach t.reserved (Deltas.renumber π ∅) (t.mapped target first last) =
    q at heach
  cases heach with
  | @error e m _ related =>
      subst related
      rw [unmap_of_error hp, unmap_of_error hq]
      exact .error e (h.set_reserved m)
  | @ok d d' deltas m _ related =>
      subst related
      rw [unmap_of_ok hp, unmap_of_ok hq]
      exact .ok deltas ((h.set_reserved m).account deltas)

/-! ### The operations -/

/-- **An operation on a space under other tags.** -/
theorem act (h : Renumbers π s t) (hs : s.Maps) (op : Operation) (ref : StackRef) :
    SameRenumbers π (op.act ref s) ((op.renumber π).act ref t) := by
  cases op with
  | reserve id start size tag stack =>
      exact h.takeReserved hs (.reserve start size { stack := ref, tag })
  | map id base size offset tag stack =>
      exact h.takeReserved hs
        (.reserve base size { stack := ref, tag, mapping := some (.ofBase id base offset) })
  | commit id start size tag stack =>
      show SameRenumbers π (s.commit start size ref tag) (t.commit start size ref (π tag))
      rw [Space.commit, Space.commit]
      rcases h.committed_cases with ⟨hnone, hnone'⟩ | ⟨m, hsome, hsome'⟩
      · rw [hnone, hnone']
        exact h.takeReserved hs (.commit start size { stack := ref, tag } .adopt)
      · rw [hsome, hsome']
        exact h.takeCommitted (hs.committed m hsome)
          (.commit start size { stack := ref, tag } .replace)
  | uncommit id start size stack =>
      show SameRenumbers π (s.uncommit start size ref) (t.uncommit start size ref)
      rw [Space.uncommit, Space.uncommit]
      rcases h.committed_cases with ⟨hnone, hnone'⟩ | ⟨m, hsome, hsome'⟩
      · -- the tag of what is given does not matter, and it is that of untagged memory
        have hdata : Metadata.renumber π ({ stack := ref } : Placement) = { stack := ref } :=
          congrArg (fun tag => ({ stack := ref, tag } : Placement)) π.untagged
        have htake := h.takeReserved hs (.uncommit start size { stack := ref })
        rw [Mutation.renumber, hdata] at htake
        rw [hnone, hnone']
        exact htake
      · rw [hsome, hsome']
        exact h.takeCommitted (hs.committed m hsome) (.release start size)
  | release id start size => exact h.takeBoth hs (.release start size) (.release start size)
  | retag id start size tag => exact h.takeBoth hs (.retag start size tag) (.retag start size tag)
  | unmap id base size => exact h.unmap hs id base (base + size)

end Renumbers

end Space

/-! ## Ledgers -/

namespace Ledger

/-- The second ledger is the first under other tags. -/
structure Renumbers (π : Renumbering) (v w : Ledger) : Prop where
  spaces : Beside (Space.Renumbers π) v w
  callStacks : v.callStacks = w.callStacks
  seed : v.seed = w.seed

lemma seed_onSpace (v : Ledger) (id : SpaceId) (f : Space → Except RegionError Deltas × Space) :
    (v.onSpace id f).2.seed = v.seed := by
  rw [onSpace]
  cases v.space? id <;> rfl

namespace Renumbers

variable {v w : Ledger}

lemma create (π : Renumbering) (config : Config) : Renumbers π (create config) (create config) := by
  refine ⟨?_, rfl, rfl⟩
  intro i
  cases i with
  | zero => exact .some (.create π .process processName config.seed)
  | succ i => exact .none

/-- A space of each acts. -/
lemma onSpace (h : Renumbers π v w) (id : SpaceId) {f g : Space → Except RegionError Deltas × Space}
    (hfg : ∀ s t, v.space? id = some s → Space.Renumbers π s t → Space.SameRenumbers π (f s) (g t)) :
    SameOutcome (Deltas.Renumbers π) (Renumbers π) (v.onSpace id f) (w.onSpace id g) := by
  refine (h.spaces.onSpace id fun s t hs _ hst => hfg s t hs hst).imp ?_
  intro hspaces
  refine ⟨hspaces, ?_, ?_⟩
  · rw [callStacks_onSpace, callStacks_onSpace, h.callStacks]
  · rw [seed_onSpace, seed_onSpace, h.seed]

/-- **An operation of both ledgers.** -/
theorem apply (h : Renumbers π v w) (hv : v.Charted) (op : Operation) :
    SameOutcome (Deltas.Renumbers π) (Renumbers π) (v.apply op) (w.apply (op.renumber π)) := by
  have hobjection : (op.renumber π).objection? w.knows = op.objection? v.knows := by
    rw [h.spaces.knows_eq]
    cases op <;> rfl
  have htarget : (op.renumber π).target = op.target := by cases op <;> rfl
  have hstack : (op.renumber π).stack? = op.stack? := by cases op <;> rfl
  have hact : ∀ ref s t, v.space? op.target = some s → Space.Renumbers π s t →
      Space.SameRenumbers π (op.act ref s) ((op.renumber π).act ref t) := by
    intro ref s t hs hst
    exact hst.act (hv.maps _ s hs) op ref
  rw [apply_eq, apply_eq, hobjection]
  cases op.objection? v.knows with
  | some e => exact .error e h
  | none =>
      show SameOutcome _ _ (v.carryOut op) (w.carryOut (op.renumber π))
      rw [carryOut, carryOut, hstack, htarget]
      cases op.stack? with
      | none => exact h.onSpace op.target (hact {})
      | some stack =>
          show SameOutcome _ _ (v.withStack stack _) (w.withStack stack _)
          rw [withStack, withStack, ← h.callStacks]
          cases v.callStacks.push stack with
          | error e => exact .error _ h
          | ok stored =>
              have hstored : Renumbers π { v with callStacks := stored.2 }
                { w with callStacks := stored.2 } := ⟨h.spaces, rfl, h.seed⟩
              exact hstored.onSpace op.target (hact stored.1)

/-- **A registration of both ledgers.** -/
theorem register (h : Renumbers π v w) (name : String) :
    (∃ e, v.register name = .error e ∧ w.register name = .error e) ∨
      ∃ id v' w', v.register name = .ok (id, v') ∧ w.register name = .ok (id, w') ∧
        Renumbers π v' w' := by
  have hsize := h.spaces.size_eq
  by_cases hroom : v.spaces.size < UInt32.size
  · have hregister : w.register name = .ok (⟨UInt32.ofNat v.spaces.size⟩,
        { w with spaces := w.spaces.push (.create ⟨UInt32.ofNat v.spaces.size⟩ name v.seed) }) := by
      rw [register_of_lt name (hsize ▸ hroom), ← hsize, ← h.seed]
    refine .inr ⟨_, _, _, register_of_lt name hroom, hregister, ?_, h.callStacks, h.seed⟩
    intro i
    simp only [Array.getElem?_push, hsize]
    split_ifs
    · exact .some (.create π _ name v.seed)
    · exact h.spaces i
  · refine .inl ⟨_, register_of_not_lt name hroom, register_of_not_lt name ?_⟩
    rwa [← hsize]

end Renumbers

end Ledger

end RegionLedger
