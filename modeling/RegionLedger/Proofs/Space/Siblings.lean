import RegionLedger.Proofs.Space.Exchange
import RegionLedger.Proofs.Space.Twins

/-!
# Two operations on one space, with other references

In the other order the call stacks of two operations may get other references.  A space whose own
references stay is its own twin, and the operations with the new references leave twins of what they
leave with the old ones.  So both orders leave maps that are twins.

* `Space.Siblings` — spaces whose maps are twins, whatever their totals.
* `Space.Maps.twins_self`, `Space.Twins.act_given` — a space beside itself.
* `Space.Maps.exchange_twins` — two operations on one space in both orders.
-/

namespace RegionLedger

variable {σ : StackRef → StackRef} {refs : Set StackRef}

/-! ## References that stay -/

section Fixed

variable {μ : Type} [Metadata μ] [Sited μ] [Signs μ]

lemma Side.relabel_of_fixed {s : Side μ} (h : ∀ ref ∈ s.site?, σ ref = ref) : s.relabel σ = s := by
  by_cases hs : s.state = .released
  · rw [relabel, if_pos hs]
  · rw [relabel_of_ne_released σ hs, Metadata.relabel, h _ (site?_of_ne_released hs),
      Signs.sign_site]

/-- A map is its own twin if its references stay. -/
lemma RegionMap.Twins.self {m : RegionMap μ} (hm : m.Represents m.sideAt) (hσ : Set.InjOn σ refs)
    (hfix : ∀ x, ∀ ref ∈ (m.sideAt x).site?, ref ∈ refs ∧ σ ref = ref) : Twins σ refs m m := by
  have hsides : Bytes.relabel σ m.sideAt = m.sideAt := by
    funext x
    exact Side.relabel_of_fixed fun ref href => (hfix x ref href).2
  refine ⟨⟨hm, ?_⟩, hσ, fun x ref href => (hfix x ref href).1⟩
  rw [hsides]
  exact hm

end Fixed

/-! ## Two operations on one space -/

namespace Space

variable {s t u : Space} {A B : Operation} {r r' q q' : StackRef}

/-- Spaces of one name whose maps are twins, whatever their totals. -/
structure Siblings (σ : StackRef → StackRef) (refs : Set StackRef) (s t : Space) : Prop where
  name : s.name = t.name
  reserved : RegionMap.Twins σ refs s.reserved t.reserved
  committed : (s.committed = none ∧ t.committed = none) ∨ ∃ m n, s.committed = some m ∧
    t.committed = some n ∧ RegionMap.Twins σ refs m n

lemma Twins.siblings (h : Twins σ refs s t) : Siblings σ refs s t := ⟨h.name, h.reserved, h.committed⟩

/-- A space is its own twin if its references stay. -/
lemma Maps.twins_self (hs : s.Maps) (hσ : Set.InjOn σ refs)
    (hfix : ∀ c x, ∀ ref ∈ s.site? c x, ref ∈ refs ∧ σ ref = ref) : Twins σ refs s s := by
  refine ⟨rfl, rfl, .self hs.reserved hσ (hfix .reserved), ?_⟩
  cases hcommitted : s.committed with
  | none => exact .inl ⟨rfl, rfl⟩
  | some m =>
      refine .inr ⟨m, m, rfl, rfl, .self (hs.committed m hcommitted) hσ ?_⟩
      intro x ref href
      refine hfix .committed x ref ?_
      rw [site?, hcommitted]
      exact href

/-- Twins of the same bytes. -/
lemma SameBytes.siblings (h : SameBytes s t) (htu : Twins σ refs t u) : Siblings σ refs s u := by
  refine ⟨h.name.trans htu.name, ?_, ?_⟩
  · exact .of_represents htu.reserved.injOn h.reserved htu.reserved.right htu.reserved.uses
  · rcases h.committed with ⟨hs, ht⟩ | ⟨m, n, hs, ht, hmn⟩
    · rcases htu.committed with ⟨_, hu⟩ | ⟨n', _, ht', _⟩
      · exact .inl ⟨hs, hu⟩
      · rw [ht] at ht'
        cases ht'
    · rcases htu.committed with ⟨ht', _⟩ | ⟨n', k, ht', hu, hnk⟩
      · rw [ht] at ht'
        cases ht'
      · obtain rfl := Option.some.inj (ht.symm.trans ht')
        exact .inr ⟨m, k, hs, hu, .of_represents hnk.injOn hmn hnk.right hnk.uses⟩

/-- An operation on twins, with the reference of its call stack or with any if it stores none. -/
lemma Twins.act_given (h : Twins σ refs s t) (hkind : s.committed = none ↔ A.target.isProcess)
    (hr : A.stack?.isSome → r ∈ refs ∧ σ r = r') : SameTwins σ refs (A.act r s) (A.act r' t) := by
  cases hstack : A.stack? with
  | none => exact h.act_of_stackless hstack hkind r r'
  | some stack =>
      rw [hstack] at hr
      obtain ⟨hmem, rfl⟩ := hr rfl
      exact h.act A hmem

lemma Twins.boundaries_eq (h : Twins σ refs s t) : s.boundaries = t.boundaries := by
  rw [boundaries, boundaries, h.reserved.size_eq]
  rcases h.committed with ⟨hs, ht⟩ | ⟨m, n, hs, ht, hmn⟩
  · rw [hs, ht]
  · rw [hs, ht]
    simp only [hmn.size_eq]

/-- Twins have slots left or not alike. -/
lemma Twins.starves (h : Twins σ refs s t) {p q : Except RegionError Deltas × Space}
    (hpq : SameTwins σ refs p q) (hp : s.Starves p) : t.Starves q := by
  obtain ⟨hfull, hlimit⟩ := hp
  exact ⟨hpq.eq ▸ hfull, h.boundaries_eq ▸ hlimit⟩

/-- **Two operations on different bytes of a space change places**, with other references.  The order
with the old references is between the two. -/
theorem Maps.exchange_twins (hs : s.Maps) (hself : Twins σ refs s s)
    (hkindA : s.committed = none ↔ A.target.isProcess)
    (hkindB : s.committed = none ↔ B.target.isProcess) (hA : A.Checked) (hB : B.Checked)
    (hlenA : A.size ≤ maxSpan) (hlenB : B.size ≤ maxSpan)
    (hapart : ∀ x, ¬ (A.Covers x ∧ B.Covers x)) (hr : A.stack?.isSome → r ∈ refs ∧ σ r = r')
    (hq : B.stack?.isSome → q ∈ refs ∧ σ q = q') :
    (s.Starves (A.act r s) ∨ (A.act r s).2.Starves (B.act q (A.act r s).2) ∨
      s.Starves (B.act q' s) ∨ (B.act q' s).2.Starves (A.act r' (B.act q' s).2)) ∨
    ((A.act r s).1.map Deltas.toList = (A.act r' (B.act q' s).2).1.map Deltas.toList ∧
      (B.act q (A.act r s).2).1.map Deltas.toList = (B.act q' s).1.map Deltas.toList ∧
      Siblings σ refs (B.act q (A.act r s).2).2 (A.act r' (B.act q' s).2).2) := by
  have hfirst := hself.act_given hkindB hq
  rcases hs.act_moves hkindB hB hlenB q with hfull | hmoves
  · exact .inl (.inr (.inr (.inl (hself.starves hfirst hfull))))
  have hsecond := hfirst.related.act_given (hmoves.committed_eq_none_iff.trans hkindA) hr
  rcases hs.exchange hkindA hkindB hA hB hlenA hlenB hapart r q with
    (hfull | hfull | hfull | hfull) | ⟨hleft, hright, hbytes⟩
  · exact .inl (.inl hfull)
  · exact .inl (.inr (.inl hfull))
  · exact .inl (.inr (.inr (.inl (hself.starves hfirst hfull))))
  · exact .inl (.inr (.inr (.inr (hfirst.related.starves hsecond hfull))))
  · refine .inr ⟨?_, ?_, hbytes.siblings hsecond.related⟩
    · rw [hleft, hsecond.eq]
    · rw [hright, hfirst.eq]

end Space

end RegionLedger
