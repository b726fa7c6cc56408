import RegionLedger.Proofs.CallStack.Twins

/-!
# Call stacks in another order

Two call stacks that share a slot take their places in the order in which they come.  In the other
order they get other references, but the store knows the same stacks, and each reference of the one
order becomes one of the other at which the same stack is read.  What was stored before keeps its
reference in both.

* `StackStore.Given` — one call stack is stored, or none.
* `StackStore.Renames` — references of one store become references of another.
* `StackStore.Numbers.swap`, `StackStore.swap_of_plain` — two call stacks in both orders.
-/

namespace RegionLedger

namespace StackStore

variable {fp : CallStack → UInt64} {s a b c : StackStore} {known : List CallStack}
  {x y : Option CallStack} {r r' q q' : StackRef}

/-- The store is given a call stack and answers with its reference, or it is given none. -/
inductive Given (fp : CallStack → UInt64) (s : StackStore) :
    Option CallStack → StackRef → StackStore → Prop where
  | nothing (r : StackRef) : Given fp s none r s
  | stack {x : CallStack} {r : StackRef} {s' : StackStore} (push : s.pushBy fp x = .ok (r, s')) :
      Given fp s (some x) r s'

/-- The references in a set become those of another store, where the same stacks are read, and
different references stay different. -/
structure Renames (σ : StackRef → StackRef) (refs : Set StackRef) (a b : StackStore) : Prop where
  injOn : Set.InjOn σ refs
  get_eq : ∀ r ∈ refs, b.get (σ r) = a.get r

lemma renames_self (refs : Set StackRef) (a : StackStore) : Renames id refs a a :=
  ⟨Set.injOn_id _, fun _ _ => rfl⟩

/-- The stacks of a store that was given one more, or none. -/
def learnAny (known : List CallStack) (x : Option CallStack) : List CallStack :=
  x.elim known (learn known)

lemma mem_learnAny {z : CallStack} : z ∈ learnAny known x ↔ z ∈ known ∨ z ∈ x := by
  cases x with
  | none => simp [learnAny]
  | some y => simp [learnAny, mem_learn, eq_comm]

/-- A store that was given a stack has all others where they were, and that one where it said. -/
lemma Numbers.given (h : s.Numbers fp known) (hx : Given fp s x r a) :
    a.Numbers fp (learnAny known x) ∧
      (∀ z ∈ known, a.home fp (learnAny known x) z = s.home fp known z) ∧
      ∀ z ∈ x, a.home fp (learnAny known x) z = r := by
  cases hx with
  | nothing => exact ⟨h, fun _ _ => rfl, fun z hz => by cases hz⟩
  | @stack y _ _ push =>
      rcases h.pushBy_cases y with ⟨a', hok, hwidth, hnumbers⟩ | ⟨herror, _⟩
      · obtain ⟨rfl, rfl⟩ := Prod.mk.inj (Except.ok.inj (push.symm.trans hok))
        refine ⟨hnumbers, fun z hz => home_of_mem hwidth hz, ?_⟩
        rintro z ⟨⟩
        exact home_of_learned hwidth
      · cases push.symm.trans herror

/-- Two stacks, one after the other. -/
lemma Numbers.given_both (h : s.Numbers fp known) (hx : Given fp s x r a) (hy : Given fp a y q b) :
    ∃ known', b.Numbers fp known' ∧ (∀ z, z ∈ known' ↔ z ∈ known ∨ z ∈ x ∨ z ∈ y) ∧
      (∀ z ∈ known, b.home fp known' z = s.home fp known z) ∧
      (∀ z ∈ x, b.home fp known' z = r) ∧ ∀ z ∈ y, b.home fp known' z = q := by
  obtain ⟨ha, hold, hnew⟩ := h.given hx
  obtain ⟨hb, hold', hnew'⟩ := ha.given hy
  refine ⟨_, hb, ?_, ?_, ?_, hnew'⟩
  · intro z
    rw [mem_learnAny, mem_learnAny, or_assoc]
  · intro z hz
    exact (hold' z (mem_learnAny.mpr (.inl hz))).trans (hold z hz)
  · intro z hz
    exact (hold' z (mem_learnAny.mpr (.inr hz))).trans (hnew z hz)

/-- **Two call stacks in both orders.**  Old references stay, and the two new ones become those of the
other order. -/
theorem Numbers.swap {ab ba : StackStore} (h : s.Numbers fp known) (hx : Given fp s x r a)
    (hy : Given fp a y q ab) (hy' : Given fp s y q' b) (hx' : Given fp b x r' ba) :
    ∃ σ refs, Renames σ refs ab ba ∧ (∀ p ∈ places fp s known, p ∈ refs ∧ σ p = p) ∧
      (x.isSome → r ∈ refs ∧ σ r = r') ∧ (y.isSome → q ∈ refs ∧ σ q = q') := by
  obtain ⟨known₁, hab, hmem₁, hold₁, hx₁, hy₁⟩ := h.given_both hx hy
  obtain ⟨known₂, hba, hmem₂, hold₂, hy₂, hx₂⟩ := h.given_both hy' hx'
  have hsame : ∀ z, z ∈ known₁ → z ∈ known₂ := by
    intro z hz
    rw [hmem₁] at hz
    rw [hmem₂]
    exact hz.imp_right Or.symm
  -- a place leads to its stack, and the stack to its place in the other order
  have hhome : ∀ z ∈ known₁, ba.home fp known₂ (ab.get (ab.home fp known₁ z)) =
      ba.home fp known₂ z := by
    intro z hz
    rw [hab.get_home hz]
  have hplace : ∀ z ∈ known₁, ∀ p p', ab.home fp known₁ z = p → ba.home fp known₂ z = p' →
      p ∈ places fp ab known₁ ∧ ba.home fp known₂ (ab.get p) = p' := by
    rintro z hz p p' rfl rfl
    exact ⟨⟨z, hz, rfl⟩, hhome z hz⟩
  refine ⟨fun p => ba.home fp known₂ (ab.get p), places fp ab known₁, ⟨?_, ?_⟩, ?_, ?_, ?_⟩
  · rintro _ ⟨z, hz, rfl⟩ _ ⟨w, hw, rfl⟩ heq
    dsimp only at heq
    rw [hhome z hz, hhome w hw, hba.home_inj (hsame z hz) (hsame w hw)] at heq
    rw [heq]
  · rintro _ ⟨z, hz, rfl⟩
    rw [hhome z hz, hba.get_home (hsame z hz), hab.get_home hz]
  · rintro p ⟨z, hz, rfl⟩
    exact hplace z ((hmem₁ z).mpr (.inl hz)) _ _ (hold₁ z hz) (hold₂ z hz)
  · intro hsome
    obtain ⟨z, hz⟩ := Option.isSome_iff_exists.mp hsome
    exact hplace z ((hmem₁ z).mpr (.inr (.inl hz))) _ _ (hx₁ z hz) (hx₂ z hz)
  · intro hsome
    obtain ⟨z, hz⟩ := Option.isSome_iff_exists.mp hsome
    exact hplace z ((hmem₁ z).mpr (.inr (.inr hz))) _ _ (hy₁ z hz) (hy₂ z hz)

/-- A store that keeps no stacks stays as it is and answers always the same. -/
lemma Given.of_plain (h : Given fp s x r a) (hs : s.detailed = false) :
    a = s ∧ (x.isSome → r = {}) := by
  cases h with
  | nothing => exact ⟨rfl, fun hsome => absurd hsome Bool.false_ne_true⟩
  | stack push =>
      rw [pushBy, hs, if_neg Bool.false_ne_true, Except.ok.injEq, Prod.mk.injEq] at push
      exact ⟨push.2.symm, fun _ => push.1.symm⟩

/-- Without stacks there is one reference only. -/
lemma swap_of_plain {ab ba : StackStore} (hs : s.detailed = false) (hx : Given fp s x r a)
    (hy : Given fp a y q ab) (hy' : Given fp s y q' b) (hx' : Given fp b x r' ba) :
    Renames id Set.univ ab ba ∧ (x.isSome → r = r') ∧ (y.isSome → q = q') := by
  obtain ⟨rfl, hr⟩ := hx.of_plain hs
  obtain ⟨rfl, hq⟩ := hy.of_plain hs
  obtain ⟨rfl, hq'⟩ := hy'.of_plain hs
  obtain ⟨rfl, hr'⟩ := hx'.of_plain hs
  refine ⟨renames_self _ _, ?_, ?_⟩
  · intro hsome
    rw [hr hsome, hr' hsome]
  · intro hsome
    rw [hq hsome, hq' hsome]

end StackStore

end RegionLedger
