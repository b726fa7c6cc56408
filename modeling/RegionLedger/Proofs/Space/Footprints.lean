import RegionLedger.Proofs.Space.Provenance

/-!
# The bytes an operation depends on

An operation writes to the bytes of its range only, and what it writes there depends on what it finds
there only: a run that a commit adopts from is found at the start of the range, not outside of it.
So operations on ranges without a common byte can change places, and each of them moves the same
bytes before the other as after it.

* `Bytes.Confined` — a change of bytes that keeps to a set of addresses.
* `Bytes.Confined.comm`, `Bytes.Confined.held_sub` — changes that keep to different addresses.
* `Operation.start`, `Operation.size`, `Operation.RangeValid` — the range of an operation.
* `Operation.confined_reservedWrite`, `Operation.confined_committedWrite` — operations keep to their
  range.
-/

namespace RegionLedger

/-! ## Confined changes -/

namespace Bytes

variable {μ : Type} [Metadata μ]

/-- The change neither writes nor reads outside of the addresses in `R`. -/
structure Confined (w : Bytes μ → Bytes μ) (R : Address → Prop) : Prop where
  outside : ∀ f x, ¬ R x → w f x = f x
  inside : ∀ f g, (∀ x, R x → f x = g x) → ∀ x, R x → w f x = w g x

namespace Confined

variable {w u : Bytes μ → Bytes μ} {R S : Address → Prop} {f g : Bytes μ}

omit [Metadata μ] in
lemma id (R : Address → Prop) : Confined (fun f : Bytes μ => f) R :=
  ⟨fun _ _ _ => rfl, fun _ _ hfg x hx => hfg x hx⟩

omit [Metadata μ] in
lemma congr (h : Confined w R) (hRS : ∀ x, R x ↔ S x) : Confined w S := by
  obtain rfl : R = S := funext fun x => propext (hRS x)
  exact h

omit [Metadata μ] in
/-- **Changes that keep to different addresses can change places.** -/
theorem comm (hw : Confined w R) (hu : Confined u S) (hRS : ∀ x, ¬ (R x ∧ S x)) (f : Bytes μ) :
    w (u f) = u (w f) := by
  funext x
  by_cases hx : R x
  · have hSx : ¬ S x := fun hS => hRS x ⟨hx, hS⟩
    rw [hu.outside (w f) x hSx]
    refine hw.inside _ _ ?_ x hx
    intro y hy
    exact hu.outside f y fun hS => hRS y ⟨hy, hS⟩
  · rw [hw.outside (u f) x hx]
    by_cases hSx : S x
    · refine hu.inside _ _ ?_ x hSx
      intro y hy
      exact (hw.outside f y fun hR => hRS y ⟨hR, hy⟩).symm
    · rw [hu.outside f x hSx, hu.outside (w f) x hSx, hw.outside f x hx]

/-- **A confined change moves the same bytes** wherever it finds the same. -/
theorem held_sub (hw : Confined w R) (hfg : ∀ x, R x → f x = g x) (c : Column) (t : Tag) :
    ((w f).held c t : ℤ) - f.held c t = ((w g).held c t : ℤ) - g.held c t := by
  have hparts : ∀ h : Bytes μ, (w h).held c t + {x | R x ∧ (h x).CountsIn c t}.ncard =
      h.held c t + {x | R x ∧ (w h x).CountsIn c t}.ncard := by
    intro h
    have hout : {x | ¬ R x ∧ (w h x).CountsIn c t} = {x | ¬ R x ∧ (h x).CountsIn c t} := by
      ext x
      simp only [Set.mem_ofPred_eq]
      exact and_congr_right fun hx => by rw [hw.outside h x hx]
    rw [held, held, ncard_add R, ncard_add R fun x => (h x).CountsIn c t, hout]
    omega
  have hbefore : {x | R x ∧ (f x).CountsIn c t} = {x | R x ∧ (g x).CountsIn c t} := by
    ext x
    simp only [Set.mem_ofPred_eq]
    exact and_congr_right fun hx => by rw [hfg x hx]
  have hafter : {x | R x ∧ (w f x).CountsIn c t} = {x | R x ∧ (w g x).CountsIn c t} := by
    ext x
    simp only [Set.mem_ofPred_eq]
    exact and_congr_right fun hx => by rw [hw.inside f g hfg x hx]
  have hf := hparts f
  have hg := hparts g
  rw [hbefore, hafter] at hf
  omega

end Confined

end Bytes

/-- A mutation keeps to its range, where it also finds the side that it adopts from. -/
lemma Mutation.confined_write {μ : Type} [Metadata μ] (c : Mutation μ) :
    Bytes.Confined c.write fun x => c.first ≤ x ∧ x.toNat < c.stop where
  outside f x hx := if_neg hx
  inside f g hfg x hx := by
    have hfirst : c.first ≤ c.first ∧ c.first.toNat < c.stop :=
      ⟨UInt64.le_refl _, lt_of_le_of_lt (UInt64.le_iff_toNat_le.mp hx.1) hx.2⟩
    rw [write, write, if_pos hx, if_pos hx, hfg x hx, hfg c.first hfirst]

/-- A removal of mappings looks at each byte of its range by itself. -/
lemma Bytes.confined_unmap (id : SpaceId) (first last : Address) :
    Confined (fun f => f.unmap id first last) fun x => first ≤ x ∧ x < last where
  outside f x hx := if_neg fun h => hx h.1
  inside f g hfg x hx := by
    show f.unmap id first last x = g.unmap id first last x
    rw [Bytes.unmap, Bytes.unmap, hfg x hx]

/-! ## The ranges of operations -/

namespace Operation

/-- The first byte of the range. -/
def start : Operation → Address
  | reserve _ start .. | commit _ start .. | uncommit _ start .. | release _ start _ |
    retag _ start .. => start
  | map _ base .. | unmap _ base _ => base

/-- The length of the range. -/
def size : Operation → UInt64
  | reserve _ _ size .. | commit _ _ size .. | uncommit _ _ size _ | release _ _ size |
    retag _ _ size _ | map _ _ size .. | unmap _ _ size => size

/-- The range is not empty, not longer than the longest span, and ends at an address. -/
def RangeValid (op : Operation) : Prop :=
  0 < op.size.toNat ∧ op.size.toNat ≤ 2 ^ 63 - 1 ∧ op.start.toNat + op.size.toNat < 2 ^ 64

/-- The byte at `x` is in the range of the operation. -/
abbrev Covers (op : Operation) (x : Address) : Prop := InRange op.start op.size x

/-- **The reservations after an operation** differ in its range only, and depend on it only. -/
theorem confined_reservedWrite {op : Operation} (hop : op.Checked) (ref : StackRef) (apart : Bool) :
    Bytes.Confined (op.reservedWrite ref apart) op.Covers := by
  cases op with
  | reserve id start size tag stack => exact Mutation.confined_write _
  | commit id start size tag stack =>
      cases apart with
      | false => exact Mutation.confined_write _
      | true => exact .id _
  | uncommit id start size stack =>
      cases apart with
      | false => exact Mutation.confined_write _
      | true => exact .id _
  | release id start size => exact Mutation.confined_write _
  | map id base size offset tag stack => exact Mutation.confined_write _
  | unmap id base size =>
      obtain ⟨_, hend⟩ := hop id base size rfl
      exact (Bytes.confined_unmap id base (base + size)).congr fun x => (inRange_iff hend x).symm
  | retag id start size tag => exact Mutation.confined_write _

/-- **The commits after an operation** likewise. -/
theorem confined_committedWrite (op : Operation) (ref : StackRef) :
    Bytes.Confined (op.committedWrite ref) op.Covers := by
  cases op with
  | commit id start size tag stack => exact Mutation.confined_write _
  | uncommit id start size stack => exact Mutation.confined_write _
  | release id start size => exact Mutation.confined_write _
  | retag id start size tag => exact Mutation.confined_write _
  | _ => exact .id _

end Operation

end RegionLedger
