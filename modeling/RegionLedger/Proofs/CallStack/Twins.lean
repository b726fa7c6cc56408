import Mathlib.Data.Set.Function
import RegionLedger.Proofs.CallStack.Numbering

/-!
# Stores of the same call stacks

Two stores that the same stacks were pushed into give them different references if their chunks have
different sizes.  Through the stacks the references of the one become those of the other.

* `StackStore.Twins` — stores of the same stacks, with the translation of references.
* `StackStore.Twins.injOn`, `StackStore.Twins.get_eq` — different references stay different, and the
  same stack is read.
* `StackStore.Twins.pushBy` — one more stack; the translation of the old references stays.
-/

namespace RegionLedger

namespace StackStore

variable {fp : CallStack → UInt64} {a b a' b' : StackStore} {known : List CallStack} {x : CallStack}
  {σ : StackRef → StackRef} {refs : Set StackRef} {r r' : StackRef}

/-- The places of the stacks of a list. -/
def places (fp : CallStack → UInt64) (a : StackStore) (known : List CallStack) : Set StackRef :=
  {r | ∃ x ∈ known, a.home fp known x = r}

/-- A place in the one store becomes the place of the same stack in the other. -/
def translate (fp : CallStack → UInt64) (a b : StackStore) (known : List CallStack) :
    StackRef → StackRef := fun r => b.home fp known (a.get r)

/-- The stores keep the same stacks, or none at all. -/
inductive Twins (fp : CallStack → UInt64) (a b : StackStore) :
    (StackRef → StackRef) → Set StackRef → Prop where
  | blank (left : a.detailed = false ∧ a.chunks = []) (right : b.detailed = false ∧ b.chunks = []) :
      Twins fp a b id {{}}
  | numbered (known : List CallStack) (left : a.Numbers fp known) (right : b.Numbers fp known) :
      Twins fp a b (translate fp a b known) (places fp a known)

lemma translate_home (ha : a.Numbers fp known) (hx : x ∈ known) :
    translate fp a b known (a.home fp known x) = b.home fp known x := by
  rw [translate, ha.get_home hx]

/-- A stack keeps its place when another one comes. -/
lemma home_of_mem (hwidth : a'.width = a.width) {y : CallStack} (hy : y ∈ known) :
    a'.home fp (learn known x) y = a.home fp known y := by
  rw [home_congr hwidth, home_mono prefix_learn hy]

/-- The place of the stack that came last. -/
lemma home_of_learned (hwidth : a'.width = a.width) :
    a'.home fp (learn known x) x = a.home fp known x := by
  rw [home_congr hwidth, home_learn]

namespace Twins

lemma empty {detailed : Bool} {n k : ℕ} (hn : allowsWidth n = true) (hk : allowsWidth k = true) :
    ∃ σ refs, Twins fp (.empty detailed n) (.empty detailed k) σ refs := by
  cases detailed with
  | false => exact ⟨_, _, .blank ⟨rfl, rfl⟩ ⟨rfl, rfl⟩⟩
  | true => exact ⟨_, _, .numbered [] (numbers_empty fp hn) (numbers_empty fp hk)⟩

lemma detailed_eq (h : Twins fp a b σ refs) : b.detailed = a.detailed := by
  cases h with
  | blank left right => rw [left.1, right.1]
  | numbered known left right => rw [left.detailed, right.detailed]

/-- **Different references stay different.** -/
lemma injOn (h : Twins fp a b σ refs) : Set.InjOn σ refs := by
  cases h with
  | blank => exact Set.injOn_id _
  | numbered known left right =>
      rintro _ ⟨x, hx, rfl⟩ _ ⟨y, hy, rfl⟩ heq
      rw [translate_home left hx, translate_home left hy, right.home_inj hx hy] at heq
      rw [heq]

/-- **The same stack is read.** -/
lemma get_eq (h : Twins fp a b σ refs) (hr : r ∈ refs) : b.get (σ r) = a.get r := by
  cases h with
  | blank left right =>
      rw [StackStore.get, StackStore.get, left.2, right.2]
      rfl
  | numbered known left right =>
      obtain ⟨x, hx, rfl⟩ := hr
      rw [translate_home left hx, left.get_home hx, right.get_home hx]

/-- **One more stack**: its references are translated as well, and all others as before. -/
theorem pushBy (h : Twins fp a b σ refs) (hleft : a.pushBy fp x = .ok (r, a'))
    (hright : b.pushBy fp x = .ok (r', b')) :
    ∃ σ' refs', Twins fp a' b' σ' refs' ∧ refs ⊆ refs' ∧ Set.EqOn σ σ' refs ∧ r ∈ refs' ∧
      σ' r = r' := by
  cases h with
  | blank left right =>
      rw [StackStore.pushBy, left.1, if_neg Bool.false_ne_true, Except.ok.injEq,
        Prod.mk.injEq] at hleft
      rw [StackStore.pushBy, right.1, if_neg Bool.false_ne_true, Except.ok.injEq,
        Prod.mk.injEq] at hright
      obtain ⟨rfl, rfl⟩ := hleft
      obtain ⟨rfl, rfl⟩ := hright
      exact ⟨_, _, .blank left right, Set.Subset.refl _, fun _ _ => rfl, rfl, rfl⟩
  | numbered known left right =>
      obtain ⟨a₁, ha, hawidth, hleft'⟩ | ⟨hfull, _⟩ := left.pushBy_cases x
      · obtain ⟨b₁, hb, hbwidth, hright'⟩ | ⟨hfull, _⟩ := right.pushBy_cases x
        · rw [ha, Except.ok.injEq, Prod.mk.injEq] at hleft
          rw [hb, Except.ok.injEq, Prod.mk.injEq] at hright
          obtain ⟨rfl, rfl⟩ := hleft
          obtain ⟨rfl, rfl⟩ := hright
          have hnew : x ∈ learn known x := mem_learn.mpr (.inr rfl)
          have hold : ∀ y ∈ known, y ∈ learn known x := fun y hy => mem_learn.mpr (.inl hy)
          refine ⟨_, _, .numbered _ hleft' hright', ?_, ?_, ⟨x, hnew, home_of_learned hawidth⟩, ?_⟩
          · rintro _ ⟨y, hy, rfl⟩
            exact ⟨y, hold y hy, home_of_mem hawidth hy⟩
          · rintro _ ⟨y, hy, rfl⟩
            rw [translate_home left hy, ← home_of_mem hawidth hy, translate_home hleft' (hold y hy),
              home_of_mem hbwidth hy]
          · rw [← home_of_learned hawidth, translate_home hleft' hnew, home_of_learned hbwidth]
        · rw [hfull] at hright
          cases hright
      · rw [hfull] at hleft
        cases hleft

end Twins

end StackStore

end RegionLedger
