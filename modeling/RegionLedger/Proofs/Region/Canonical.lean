import Mathlib.Data.List.Chain
import RegionLedger.Proofs.Region.Refinement

/-!
# The boundaries are a normal form

The boundaries of a map stand in ascending order, each takes over the side that the one before left,
and there is none where the side stays.  So they are determined by the sides of the bytes, whatever
priorities and whatever history led to them.

* `RegionMap.Represents.head_released`, `RegionMap.Represents.getLast_released` — outside of all
  boundaries memory is released.
* `RegionMap.Represents.isChain_points` — a boundary takes over what the one before left.
* `RegionMap.run_canonical` — all of it, for every map that mutations lead to.
-/

namespace RegionLedger

namespace RegionMap

variable {μ : Type} [Metadata μ] {m m' : RegionMap μ} {f : Bytes μ}

namespace Represents

/-- Between two neighbouring boundaries, in front of the first and after the last, there is no
jump. -/
lemma not_jumps_between (h : m.Represents f) {before after : List (Address × Boundary μ)}
    (hpts : m.points = before ++ after) {z : Address} (hbefore : ∀ p ∈ before.getLast?, p.1 < z)
    (hafter : ∀ p ∈ after.head?, z < p.1) : ¬ f.Jumps z := by
  intro hjump
  have hsorted := h.pairwise_points
  have hin := h.mem_points_of_jumps hjump
  rw [hpts] at hsorted hin
  obtain ⟨hsorted₁, hsorted₂, _⟩ := List.pairwise_append.mp hsorted
  rcases List.mem_append.mp hin with hin | hin
  · rcases List.eq_nil_or_concat' before with rfl | ⟨init, p, rfl⟩
    · cases hin
    · have hpz := hbefore p (by simp)
      rcases List.mem_append.mp hin with hin | hin
      · have hzp := (List.pairwise_append.mp hsorted₁).2.2 _ hin p List.mem_cons_self
        grind
      · rw [← List.mem_singleton.mp hin] at hpz
        exact UInt64.lt_irrefl _ hpz
  · cases after with
    | nil => cases hin
    | cons p rest =>
        have hzp := hafter p rfl
        rcases List.mem_cons.mp hin with rfl | hin
        · exact UInt64.lt_irrefl _ hzp
        · have hpz := (List.pairwise_cons.mp hsorted₂).1 _ hin
          grind

lemma head_released (h : m.Represents f) {p : Address × Boundary μ} (hp : m.points.head? = some p) :
    p.2.incoming = .released := by
  have hnone : ∀ z, z < p.1 → ¬ f.Jumps z := by
    intro z hz
    refine h.not_jumps_between (List.nil_append _).symm (by simp) ?_
    intro q hq
    rw [hp] at hq
    exact Option.mem_some_iff.mp hq ▸ hz
  rw [((h.mem_points_iff p).mp (List.mem_of_head? hp)).2]
  show f.before p.1 = _
  by_cases h0 : p.1 = 0
  · rw [h0, Bytes.before_zero]
  · rw [Bytes.before_of_ne f h0]
    refine Bytes.eq_released_of_forall_not_jumps ?_
    intro z hz
    exact hnone z (by grind)

lemma getLast_released (h : m.Represents f) {p : Address × Boundary μ}
    (hp : m.points.getLast? = some p) : p.2.outgoing = .released := by
  have hnone : ∀ z, p.1 < z → ¬ f.Jumps z := by
    intro z hz
    refine h.not_jumps_between (List.append_nil _).symm ?_ (by simp)
    intro q hq
    rw [hp] at hq
    exact Option.mem_some_iff.mp hq ▸ hz
  have hlast : f lastAddress = f p.1 := by
    refine Bytes.eq_of_forall_not_jumps (le_lastAddress _) ?_
    intro z hz _
    exact hnone z hz
  rw [((h.mem_points_iff p).mp (List.mem_of_getLast? hp)).2, ← h.last_released, hlast]
  rfl

/-- A boundary takes over the side that the one before left. -/
lemma isChain_points (h : m.Represents f) :
    m.points.IsChain fun p q => q.2.incoming = p.2.outgoing := by
  rw [List.isChain_iff_forall_rel_of_append_cons_cons]
  intro p q first last hpts
  have hp : p ∈ m.points := by rw [hpts]; simp
  have hq : q ∈ m.points := by rw [hpts]; simp
  have hpq : p.1 < q.1 := by
    have hsorted := h.pairwise_points
    rw [hpts] at hsorted
    exact (List.pairwise_cons.mp (List.pairwise_append.mp hsorted).2.1).1 q List.mem_cons_self
  have hsplit : m.points = (first ++ [p]) ++ q :: last := by rw [hpts]; simp
  have hnone : ∀ z, p.1 < z → z < q.1 → ¬ f.Jumps z := by
    intro z hpz hzq
    exact h.not_jumps_between hsplit (by simpa using hpz) (by simpa using hzq)
  rw [((h.mem_points_iff p).mp hp).2, ((h.mem_points_iff q).mp hq).2]
  show f.before q.1 = f p.1
  rw [Bytes.before_of_ne f (by grind)]
  refine Bytes.eq_of_forall_not_jumps (by grind) ?_
  intro z hz hzq
  exact hnone z hz (by grind)

/-- Released sides of boundaries carry no metadata. -/
lemma released_of_mem_points (h : m.Represents f) {p : Address × Boundary μ} (hp : p ∈ m.points) :
    (p.2.incoming.state = .released → p.2.incoming = .released) ∧
      (p.2.outgoing.state = .released → p.2.outgoing = .released) := by
  rw [((h.mem_points_iff p).mp hp).2]
  refine ⟨?_, h.clean p.1⟩
  intro hstate
  simp only [Bytes.boundary, Bytes.before] at hstate ⊢
  split_ifs at hstate ⊢
  · rfl
  · exact h.clean _ hstate

lemma exists_mem_points_iff (h : m.Represents f) (x : Address) :
    (∃ b, (x, b) ∈ m.points) ↔ m.sideAt x ≠ if x = 0 then .released else m.sideAt (x - 1) := by
  have hjump : (∃ b, (x, b) ∈ m.points) ↔ f.Jumps x :=
    ⟨fun ⟨_, hb⟩ => ((h.mem_points_iff _).mp hb).1, fun hx => ⟨_, h.mem_points_of_jumps hx⟩⟩
  rw [hjump, h.sideAt_eq, h.sideAt_eq]
  exact ne_comm

end Represents

variable [DecidableEq μ]

/-- The boundaries of a map are in normal form. -/
structure Canonical (m : RegionMap μ) : Prop where
  /-- They stand in ascending order. -/
  ascending : m.points.Pairwise fun p q => p.1 < q.1
  /-- In front of the first one memory is released. -/
  starts_released : ∀ p ∈ m.points.head?, p.2.incoming.state = .released
  /-- After the last one memory is released. -/
  ends_released : ∀ p ∈ m.points.getLast?, p.2.outgoing.state = .released
  /-- Released memory carries no metadata. -/
  clean : ∀ p ∈ m.points, ∀ s : Side μ, s = p.2.incoming ∨ s = p.2.outgoing →
    s.state = .released → s = .released
  /-- Each takes over the side that the one before left. -/
  linked : m.points.IsChain fun p q => q.2.incoming = p.2.outgoing
  /-- Each changes the side. -/
  not_void : ∀ p ∈ m.points, p.2.isVoid = false
  /-- There is one exactly where a byte and the byte before differ. -/
  at_changes : ∀ x, (∃ b, (x, b) ∈ m.points) ↔
    m.sideAt x ≠ if x = 0 then .released else m.sideAt (x - 1)

/-- A map that stands for some bytes is in normal form. -/
theorem Represents.canonical (h : m.Represents f) : m.Canonical where
  ascending := h.pairwise_points
  starts_released p hp := by
    rw [h.head_released hp]
    rfl
  ends_released p hp := by
    rw [h.getLast_released hp]
    rfl
  clean p hp s hs := by
    rcases hs with rfl | rfl
    · exact (h.released_of_mem_points hp).1
    · exact (h.released_of_mem_points hp).2
  linked := h.isChain_points
  not_void p hp := by
    obtain ⟨hjump, hb⟩ := (h.mem_points_iff p).mp hp
    rw [hb]
    exact decide_eq_false hjump
  at_changes := h.exists_mem_points_iff

/-- **The normal form is unique.**  Every map that mutations lead to is in normal form, and two of
them store the same boundaries exactly if they show the same side for every byte, whatever their
priorities and histories. -/
theorem run_canonical (draws : Draws) (cs : List (Mutation μ)) :
    ((empty draws).run cs).Canonical ∧
      ∀ (draws' : Draws) (cs' : List (Mutation μ)),
        ((empty draws).run cs).points = ((empty draws').run cs').points ↔
          ∀ x, ((empty draws).run cs).sideAt x = ((empty draws').run cs').sideAt x := by
  have h := (represents_empty draws).run cs
  refine ⟨h.canonical, ?_⟩
  intro draws' cs'
  have h' := (represents_empty draws').run cs'
  constructor
  · intro hpts x
    rw [sideAt, sideAt, h.wellFormed.floor?_eq, h'.wellFormed.floor?_eq, ← points, hpts]
    rfl
  · intro hsides
    have hbytes : Bytes.run .untouched ((empty draws').served cs') =
        Bytes.run .untouched ((empty draws).served cs) := by
      funext x
      rw [← h.sideAt_eq, ← h'.sideAt_eq, hsides]
    rw [hbytes] at h'
    exact h.points_unique h'

end RegionMap

end RegionLedger
