import RegionLedger.Proofs.Region.Relabel
import RegionLedger.Proofs.Space.Answering

/-!
# Ledgers side by side

Two ledgers that get the same calls go through the same phases.  If each space of the one is related
to the space of the other that has its number, and related spaces answer alike and stay related, then
the ledgers answer alike and stay related.  What relates the maps, and when two deltas are the same,
is left open here.

* `SameOutcome` — two calls answer alike, and what they leave is related.
* `Deltas.Congruent` — a relation of deltas that sums and totals respect.
* `Space.Beside` — related spaces; `Space.Beside.takeReserved`, `Space.Beside.takeCommitted` and
  `Space.Beside.takeBoth` are the forms of an operation.
* `Ledger.Beside` — related ledgers, with `Ledger.Beside.apply_cases` and `Ledger.Beside.register`.
-/

namespace RegionLedger

/-- Two calls get the same answer up to related deltas, and what they leave is related, whether they
are carried out or not. -/
inductive SameOutcome {ε δ α β : Type} (D : δ → δ → Prop) (R : α → β → Prop) :
    Except ε δ × α → Except ε δ × β → Prop where
  | error (e : ε) {a : α} {b : β} (related : R a b) : SameOutcome D R (.error e, a) (.error e, b)
  | ok {d d' : δ} (deltas : D d d') {a : α} {b : β} (related : R a b) :
      SameOutcome D R (.ok d, a) (.ok d', b)

namespace SameOutcome

variable {ε δ α β γ : Type} {D : δ → δ → Prop} {R : α → β → Prop} {p : Except ε δ × α}
  {q : Except ε δ × β}

lemma related (h : SameOutcome D R p q) : R p.2 q.2 := by cases h <;> assumption

lemma eq (h : SameOutcome Eq R p q) : p.1 = q.1 := by
  cases h with
  | error e related => rfl
  | ok deltas related => exact congrArg Except.ok deltas

lemma imp (h : SameOutcome D R p q) {R' : α → β → Prop} (hR : R p.2 q.2 → R' p.2 q.2) :
    SameOutcome D R' p q := by
  cases h with
  | error e related => exact .error e (hR related)
  | ok deltas related => exact .ok deltas (hR related)

/-- What does not tell related deltas apart does not tell the answers apart. -/
lemma map_eq (h : SameOutcome D R p q) {k : δ → γ} (hk : ∀ d d', D d d' → k d = k d') :
    p.1.map k = q.1.map k := by
  cases h with
  | error e related => rfl
  | ok deltas related => exact congrArg Except.ok (hk _ _ deltas)

end SameOutcome

/-- A relation of deltas that sums and totals respect. -/
structure Deltas.Congruent (D : Deltas → Deltas → Prop) : Prop where
  apply : ∀ d e, D d e → ∀ m : Totals, m.apply d = m.apply e
  commitOnly : ∀ d e, D d e → D d.commitOnly e.commitOnly
  plus : ∀ d e d' e' s, D d e → D d' e' → d.plus d' = .ok s → ∃ s', e.plus e' = .ok s' ∧ D s s'
  plus_error : ∀ d e d' e' o, D d e → D d' e' → d.plus d' = .error o → e.plus e' = .error o

lemma Deltas.congruent_eq : Congruent Eq where
  apply := by
    rintro d _ rfl m
    rfl
  commitOnly := by
    rintro d _ rfl
    rfl
  plus := by
    rintro d _ d' _ s rfl rfl hs
    exact ⟨s, hs, rfl⟩
  plus_error := by
    rintro d _ d' _ o rfl rfl hs
    exact hs

/-! ## Spaces -/

namespace Space

variable {P : RegionMap Placement → RegionMap Placement → Prop}
  {A : RegionMap Attribution → RegionMap Attribution → Prop} {D : Deltas → Deltas → Prop}

/-- Spaces of one name with the same totals, whose maps are related. -/
structure Beside (P : RegionMap Placement → RegionMap Placement → Prop)
    (A : RegionMap Attribution → RegionMap Attribution → Prop) (s t : Space) : Prop where
  name : s.name = t.name
  totals : s.totals = t.totals
  reserved : P s.reserved t.reserved
  committed : (s.committed = none ∧ t.committed = none) ∨
    ∃ m n, s.committed = some m ∧ t.committed = some n ∧ A m n

namespace Beside

variable {s t : Space}

lemma mono (h : Beside P A s t) {P' : RegionMap Placement → RegionMap Placement → Prop}
    {A' : RegionMap Attribution → RegionMap Attribution → Prop} (hP : ∀ m n, P m n → P' m n)
    (hA : ∀ m n, A m n → A' m n) : Beside P' A' s t := by
  refine ⟨h.name, h.totals, hP _ _ h.reserved, h.committed.imp_right ?_⟩
  rintro ⟨m, n, hs, ht, hmn⟩
  exact ⟨m, n, hs, ht, hA m n hmn⟩

/-- New spaces are related if their maps are. -/
lemma create (hP : ∀ draws draws', P (.empty draws) (.empty draws'))
    (hA : ∀ draws draws', A (.empty draws) (.empty draws')) (id : SpaceId) (name : String)
    (seed seed' : UInt64) : Beside P A (.create id name seed) (.create id name seed') := by
  refine ⟨rfl, rfl, hP _ _, ?_⟩
  rw [Space.create, Space.create]
  dsimp only
  split_ifs
  · exact .inl ⟨rfl, rfl⟩
  · exact .inr ⟨_, _, rfl, rfl, hA _ _⟩

lemma account (h : Beside P A s t) (hD : Deltas.Congruent D) {d e : Deltas} (hde : D d e) :
    Beside P A (s.account d) (t.account e) := by
  refine ⟨h.name, ?_, h.reserved, h.committed⟩
  show s.totals.apply d = t.totals.apply e
  rw [h.totals, hD.apply d e hde]

lemma set_reserved (h : Beside P A s t) {m n : RegionMap Placement} (hmn : P m n) :
    Beside P A { s with reserved := m } { t with reserved := n } :=
  ⟨h.name, h.totals, hmn, h.committed⟩

lemma set_committed (h : Beside P A s t) {m n : RegionMap Attribution} (hmn : A m n) :
    Beside P A { s with committed := some m } { t with committed := some n } :=
  ⟨h.name, h.totals, h.reserved, .inr ⟨m, n, rfl, rfl, hmn⟩⟩

/-! ### The forms of an operation -/

lemma takeReserved (h : Beside P A s t) (hD : Deltas.Congruent D)
    {p q : Except RegionError (Deltas × RegionMap Placement)} (hpq : SameAnswer D P p q) :
    SameOutcome D (Beside P A) (s.takeReserved p) (t.takeReserved q) := by
  cases hpq with
  | error e => exact .error e h
  | ok deltas hmn => exact .ok deltas ((h.set_reserved hmn).account hD deltas)

lemma takeCommitted (h : Beside P A s t) (hD : Deltas.Congruent D)
    {p q : Except RegionError (Deltas × RegionMap Attribution)} (hpq : SameAnswer D A p q) :
    SameOutcome D (Beside P A) (s.takeCommitted p) (t.takeCommitted q) := by
  cases hpq with
  | error e => exact .error e h
  | ok deltas hmn =>
      have hcommits := hD.commitOnly _ _ deltas
      exact .ok hcommits ((h.set_committed hmn).account hD hcommits)

lemma takeBoth (h : Beside P A s t) (hD : Deltas.Congruent D)
    {p q : Except RegionError (Deltas × RegionMap Placement)} (hpq : SameAnswer D P p q)
    {f g : RegionMap Attribution → Except RegionError (Deltas × RegionMap Attribution)}
    (hfg : ∀ m n, s.committed = some m → t.committed = some n → A m n →
      SameAnswer D A (f m) (g n)) :
    SameOutcome D (Beside P A) (s.takeBoth p f) (t.takeBoth q g) := by
  cases hpq with
  | error e => exact .error e h
  | @ok d _ deltas _ _ hmn =>
      have hset := h.set_reserved hmn
      rcases h.committed with ⟨hs, ht⟩ | ⟨m', n', hs, ht, hmn'⟩
      · rw [takeBoth_of_none hs, takeBoth_of_none ht]
        exact .ok deltas (hset.account hD deltas)
      · have hanswer := hfg m' n' hs ht hmn'
        generalize hp : f m' = p' at hanswer
        generalize hq : g n' = q' at hanswer
        cases hanswer with
        | error e =>
            rw [takeBoth_of_error hs hp, takeBoth_of_error ht hq]
            exact .error e hset
        | @ok d' _ deltas' _ _ hmn'' =>
            have hcommits := hD.commitOnly _ _ deltas'
            cases hplus : d.plus d'.commitOnly with
            | error o =>
                rw [takeBoth_of_overflow hs hp hplus,
                  takeBoth_of_overflow ht hq (hD.plus_error _ _ _ _ _ deltas hcommits hplus)]
                exact .error _ (hset.set_committed hmn'')
            | ok sum =>
                obtain ⟨sum', hplus', hsum⟩ := hD.plus _ _ _ _ _ deltas hcommits hplus
                rw [takeBoth_of_ok hs hp hplus, takeBoth_of_ok ht hq hplus']
                exact .ok hsum ((hset.set_committed hmn'').account hD hsum)

end Beside

end Space

/-! ## Ledgers -/

namespace Ledger

variable {v w : Ledger} {op : Operation} {R R' : Space → Space → Prop}

/-- The spaces of the same number are related. -/
def Beside (R : Space → Space → Prop) (v w : Ledger) : Prop :=
  ∀ i : ℕ, Option.Rel R v.spaces[i]? w.spaces[i]?

lemma register_of_lt (name : String) (h : v.spaces.size < UInt32.size) :
    v.register name = .ok (⟨UInt32.ofNat v.spaces.size⟩, { v with
      spaces := v.spaces.push (.create ⟨UInt32.ofNat v.spaces.size⟩ name v.seed) }) := if_pos h

lemma register_of_not_lt (name : String) (h : ¬ v.spaces.size < UInt32.size) :
    v.register name = .error (.tooManySpaces name) := if_neg h

lemma callStacks_register (v : Ledger) (name : String) :
    (v.step (.register name)).callStacks = v.callStacks := by
  rw [step, register]
  split_ifs <;> rfl

lemma callStacks_onSpace (v : Ledger) (id : SpaceId)
    (f : Space → Except RegionError Deltas × Space) :
    (v.onSpace id f).2.callStacks = v.callStacks := by
  rw [Ledger.onSpace]
  cases v.space? id <;> rfl

/-- Every operation that acts has been checked. -/
lemma checked_of_objection? {known : SpaceId → Bool} (h : op.objection? known = none) :
    op.Checked := by
  rintro id base size rfl
  rw [Operation.objection?] at h
  split_ifs at h with hself hknown hrange
  rw [Bool.or_eq_true, decide_eq_true_eq, not_or, endOf?] at hrange
  obtain ⟨hend, hzero⟩ := hrange
  split_ifs at hend with hlt
  · refine ⟨Nat.pos_of_ne_zero fun h0 => hzero (UInt64.toNat_inj.mp h0), hlt⟩
  · exact absurd rfl hend

namespace Beside

lemma cases_getElem? (h : Beside R v w) (i : ℕ) :
    (v.spaces[i]? = none ∧ w.spaces[i]? = none) ∨
      ∃ s t, v.spaces[i]? = some s ∧ w.spaces[i]? = some t ∧ R s t := by
  have hi := h i
  generalize v.spaces[i]? = p at hi
  generalize w.spaces[i]? = q at hi
  cases hi with
  | none => exact .inl ⟨rfl, rfl⟩
  | some hst => exact .inr ⟨_, _, rfl, rfl, hst⟩

lemma cases_space? (h : Beside R v w) (id : SpaceId) :
    (v.space? id = none ∧ w.space? id = none) ∨
      ∃ s t, v.space? id = some s ∧ w.space? id = some t ∧ R s t := h.cases_getElem? id.raw.toNat

lemma mono (h : Beside R v w) (hR : ∀ s t, R s t → R' s t) : Beside R' v w := by
  intro i
  rcases h.cases_getElem? i with ⟨hv, hw⟩ | ⟨s, t, hv, hw, hst⟩
  · rw [hv, hw]
    exact .none
  · rw [hv, hw]
    exact .some (hR s t hst)

lemma size_eq (h : Beside R v w) : v.spaces.size = w.spaces.size := by
  have hnone : ∀ i : ℕ, v.spaces[i]? = none ↔ w.spaces[i]? = none := by
    intro i
    rcases h.cases_getElem? i with ⟨hv, hw⟩ | ⟨s, t, hv, hw, _⟩
    · simp only [hv, hw]
    · simp only [hv, hw, reduceCtorEq]
  have hv := hnone v.spaces.size
  have hw := hnone w.spaces.size
  simp only [Array.getElem?_eq_none_iff, le_refl, true_iff, iff_true] at hv hw
  omega

/-- They know the same spaces. -/
lemma knows_eq (h : Beside R v w) : v.knows = w.knows := by
  funext id
  rw [knows, knows]
  rcases h.cases_space? id with ⟨hv, hw⟩ | ⟨s, t, hv, hw, _⟩
  · rw [hv, hw]
  · rw [hv, hw]
    rfl

/-- What is said of every space, one after the other. -/
lemma mapM_toList_eq (h : Beside R v w) {ε β : Type} {f g : SpaceId × Space → Except ε β}
    (hfg : ∀ id s t, R s t → f (id, s) = g (id, t)) : v.toList.mapM f = w.toList.mapM g := by
  have hmap : v.toList.map f = w.toList.map g := by
    refine List.ext_getElem? ?_
    intro i
    simp only [toList, List.getElem?_map, List.getElem?_zipIdx, Array.getElem?_toList]
    rcases h.cases_getElem? i with ⟨hv, hw⟩ | ⟨s, t, hv, hw, hst⟩
    · rw [hv, hw]
      rfl
    · rw [hv, hw]
      exact congrArg some (hfg _ _ _ hst)
  have hmapM : ∀ (l : List (SpaceId × Space)) (k : SpaceId × Space → Except ε β),
      l.mapM k = (l.map k).mapM id := fun l k => (List.mapM_map (f := k) (g := id)).symm
  rw [hmapM, hmapM, hmap]

/-- **A space of each acts.** -/
theorem onSpace (h : Beside R v w) (id : SpaceId) {D : Deltas → Deltas → Prop}
    {f g : Space → Except RegionError Deltas × Space}
    (hfg : ∀ s t, v.space? id = some s → w.space? id = some t → R s t →
      SameOutcome D R (f s) (g t)) :
    SameOutcome D (Beside R) (v.onSpace id f) (w.onSpace id g) := by
  rcases h.cases_space? id with ⟨hv, hw⟩ | ⟨s, t, hv, hw, hst⟩
  · rw [Ledger.onSpace, Ledger.onSpace, hv, hw]
    exact .error _ h
  · have hset : ∀ s' t', R s' t' → Beside R
        { v with spaces := v.spaces.setIfInBounds id.raw.toNat s' }
        { w with spaces := w.spaces.setIfInBounds id.raw.toNat t' } := by
      intro s' t' hst' i
      simp only [Array.getElem?_setIfInBounds, h.size_eq]
      split_ifs
      · exact .some hst'
      · exact .none
      · exact h i
    have hanswer := hfg s t hv hw hst
    rw [onSpace_eq hv, onSpace_eq hw]
    generalize f s = p at hanswer
    generalize g t = q at hanswer
    cases hanswer with
    | error e related => exact .error _ (hset _ _ related)
    | ok deltas related => exact .ok deltas (hset _ _ related)

/-- **The phases of an operation**, if both ledgers find a place for its call stack. -/
theorem apply_cases (h : Beside R v w) {op : Operation} (hleft : v.Places op)
    (hright : w.Places op) :
    (∃ e, v.apply op = (.error e, v) ∧ w.apply op = (.error e, w)) ∨
      ∃ ref ref' a b, op.Checked ∧ v.Stores op ref a ∧ w.Stores op ref' b ∧
        v.apply op = Ledger.onSpace { v with callStacks := a } op.target (op.act ref) ∧
        w.apply op = Ledger.onSpace { w with callStacks := b } op.target (op.act ref') := by
  cases hnone : op.objection? v.knows with
  | some e => exact .inl ⟨e, apply_of_objection hnone, apply_of_objection (h.knows_eq ▸ hnone)⟩
  | none =>
      have hnone' : op.objection? w.knows = none := h.knows_eq ▸ hnone
      have hop := checked_of_objection? hnone
      cases hstack : op.stack? with
      | none =>
          refine .inr ⟨{}, {}, v.callStacks, w.callStacks, hop, ?_, ?_,
            apply_of_stackless hnone hstack, apply_of_stackless hnone' hstack⟩
          · rw [Stores, hstack]
            exact ⟨rfl, rfl⟩
          · rw [Stores, hstack]
            exact ⟨rfl, rfl⟩
      | some stack =>
          obtain ⟨ref, a, hpush⟩ := hleft hnone stack hstack
          obtain ⟨ref', b, hpush'⟩ := hright hnone' stack hstack
          refine .inr ⟨ref, ref', a, b, hop, ?_, ?_, apply_of_push hnone hstack hpush,
            apply_of_push hnone' hstack hpush'⟩
          · rw [Stores, hstack]
            exact hpush
          · rw [Stores, hstack]
            exact hpush'

/-- **A registration.** -/
theorem register (h : Beside R v w) (name : String)
    (hnew : ∀ id, R (.create id name v.seed) (.create id name w.seed)) :
    v.answer (.register name) = w.answer (.register name) ∧
      Beside R (v.step (.register name)) (w.step (.register name)) := by
  by_cases hroom : w.spaces.size < UInt32.size
  · have hv := register_of_lt (v := v) name (by rwa [h.size_eq])
    have hw := register_of_lt name hroom
    simp only [answer, step, hv, hw, h.size_eq, Except.map, true_and]
    intro i
    simp only [Array.getElem?_push, h.size_eq]
    split_ifs
    · exact .some (hnew _)
    · exact h i
  · have hv := register_of_not_lt (v := v) name (by rwa [h.size_eq])
    have hw := register_of_not_lt name hroom
    rw [answer, answer, step, step, hv, hw]
    exact ⟨rfl, h⟩

end Beside

end Ledger

end RegionLedger
