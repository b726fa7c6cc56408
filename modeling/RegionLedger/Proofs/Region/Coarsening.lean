import RegionLedger.Proofs.Region.Accounting
import RegionLedger.Proofs.Region.Relabel

/-!
# Maps that know fewer call sites

Where different references are replaced by the same one, the side no longer changes between them.  The
map of the new bytes has fewer boundaries, its ranges are cut into other runs, and a mutation takes
other steps in it.  What comes of the mutation is the same: it is refused for the same cause or writes
the same bytes, up to the references, and books the same bytes.  Only the slots may run out in one map
and not in the other.

* `Deltas.Books.agree` — what is booked does not depend on the references.
* `RegionMap.Relabels.boundaries_subset` — the boundaries of the coarser map.
* `RegionMap.Full`, `RegionMap.Relabels.apply` — a mutation of both maps.
-/

namespace RegionLedger

variable {μ : Type} [Metadata μ] [Sited μ] [Signs μ] {σ : StackRef → StackRef}

/-- **The same bytes are booked.** -/
theorem Deltas.Books.agree {d e : Deltas} {f g : Bytes μ} (hd : d.Books f g)
    (he : e.Books (f.relabel σ) (g.relabel σ)) : d.Agree e := by
  refine ⟨hd.distinct, he.distinct, ?_⟩
  intro t
  refine get_eq_of_amount_eq ?_
  intro c
  rw [hd.amount, he.amount, Bytes.held_relabel, Bytes.held_relabel]

namespace RegionMap

variable {m n : RegionMap μ}

/-- The map has no slots left for a mutation. -/
def Full (m : RegionMap μ) (r : Except RegionError (Deltas × RegionMap μ)) : Prop :=
  r = .error (.outOfMemory .outOfSlots) ∧ Slots.limit < m.size + 2

namespace Relabels

/-- **The coarser map has no boundary of its own.** -/
theorem boundaries_subset (h : Relabels σ m n) :
    n.points.map Prod.fst ⊆ m.points.map Prod.fst := by
  intro x hx
  obtain ⟨p, hp, rfl⟩ := List.mem_map.mp hx
  have hjumps := Bytes.jumps_of_jumps_relabel σ ((h.right.mem_points_iff p).mp hp).1
  exact List.mem_map.mpr ⟨_, h.left.mem_points_of_jumps hjumps, rfl⟩

variable [DecidableEq μ]

/-- **A mutation of both maps.** -/
theorem apply (h : Relabels σ m n) (c : Mutation μ) :
    m.Full (c.apply m) ∨ n.Full ((c.relabel σ).apply n) ∨
      SameAnswer Deltas.Agree (Relabels σ) (c.apply m) ((c.relabel σ).apply n) := by
  have hvalid := c.valid_relabel σ
  rcases h.left.apply_cases c with ⟨hinvalid, hm⟩ | ⟨b, d, m', hc, _, _, _, hm, _⟩ | ⟨_, hfull⟩
  · have hn := Mutation.apply_invalid (mt hvalid.mp hinvalid) n
    rw [Mutation.first_relabel, Mutation.size_relabel] at hn
    rw [hm, hn]
    exact .inr (.inr (.error _))
  · rcases h.right.apply_cases (c.relabel σ) with ⟨hinvalid, _⟩ |
      ⟨b', e, n', _, _, _, _, hn, _⟩ | ⟨_, hfull⟩
    · exact absurd (hvalid.mpr hc) hinvalid
    · obtain ⟨_, hm', hsides, hbooks⟩ := h.left.apply_writes hm
      obtain ⟨_, hn', hsides', hbooks'⟩ := h.right.apply_writes hn
      rw [Mutation.write_relabel, ← hsides] at hsides'
      rw [hsides'] at hn' hbooks'
      rw [hm, hn]
      exact .inr (.inr (.ok (hbooks.agree hbooks') ⟨hm', hn'⟩))
    · exact .inr (.inl hfull)
  · exact .inl hfull

end Relabels

end RegionMap

end RegionLedger
