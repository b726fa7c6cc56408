import RegionLedger.Proofs.Region.Refinement
import RegionLedger.Space.Placement

/-!
# The call sites of a region map

Memory in use carries the call site of the operation that wrote it last.  Reserving and committing
write every byte of the range, uncommitting writes the committed ones; a change of tag writes no call
site, and a release takes it away.

* `Sited`, `Side.site?` — metadata with a call site, and the call site of a byte in use.
* `Mutation.site?_write_of_some`, `Mutation.site?_write_of_none` — what a mutation does to the call
  site of a byte.
* `RegionMap.Represents.enclosing?_eq_none_iff`, `RegionMap.Represents.side_of_enclosing?` — the run
  around a byte.
-/

namespace RegionLedger

/-- Metadata with a call site, which a change of tag keeps and an adoption renews. -/
class Sited (μ : Type) [Metadata μ] where
  /-- The call site. -/
  site : μ → StackRef
  /-- Another tag leaves the call site. -/
  site_withTag (d : μ) (t : Tag) : site (Metadata.withTag d t) = site d
  /-- The call site is that of the new metadata. -/
  site_adopt (new old : μ) : site (Metadata.adopt new old) = site new

instance : Sited Attribution := ⟨Attribution.stack, fun _ _ => rfl, fun _ _ => rfl⟩

instance : Sited Placement := ⟨Placement.stack, fun _ _ => rfl, fun _ _ => rfl⟩

variable {μ : Type} [Metadata μ] [Sited μ]

/-- The call site of memory in use. -/
def Side.site? (s : Side μ) : Option StackRef :=
  if s.state = .released then none else some (Sited.site s.data)

@[simp] lemma Side.site?_released : (Side.released : Side μ).site? = none := rfl

lemma Side.site?_of_ne_released {s : Side μ} (h : s.state ≠ .released) :
    s.site? = some (Sited.site s.data) := if_neg h

/-- What stays of given metadata has its call site. -/
lemma Overwrite.site_keep (mode : Overwrite) (data : μ) (found : Side μ) :
    Sited.site (mode.keep data found) = Sited.site data := by
  cases mode with
  | replace => rfl
  | adopt =>
      rw [keep]
      split_ifs
      · rfl
      · exact Sited.site_adopt _ _

namespace Mutation

/-- The call site that the mutation writes, if it writes one to a byte in the given state. -/
def signature? (here : State) : Mutation μ → Option StackRef
  | reserve _ _ data | commit _ _ data _ => some (Sited.site data)
  | uncommit _ _ data => if here = .committed then some (Sited.site data) else none
  | release .. | retag .. => none
  | assign _ _ state data _ => if state = .released then none else some (Sited.site data)

lemma site?_rewritten_of_some {c : Mutation μ} {found here : Side μ} {ref : StackRef}
    (h : c.signature? here.state = some ref) : (c.rewritten found here).site? = some ref := by
  cases c with
  | reserve start size data => exact h
  | commit start size data mode =>
      rw [signature?, ← mode.site_keep data found] at h
      exact h
  | uncommit start size data =>
      rw [signature?] at h
      split_ifs at h with hcommitted
      rw [rewritten, if_pos hcommitted, ← h, ← Sited.site_adopt data here.data]
      rfl
  | release start size => cases h
  | retag start size tag => cases h
  | assign a b state data mode =>
      rw [signature?, ← mode.site_keep data found] at h
      cases state with
      | released => cases h
      | _ => exact h

lemma site?_rewritten_of_none {c : Mutation μ} {found here : Side μ}
    (h : c.signature? here.state = none) :
    (c.rewritten found here).site? = here.site? ∨ (c.rewritten found here).site? = none := by
  cases c with
  | reserve start size data => cases h
  | commit start size data mode => cases h
  | uncommit start size data =>
      rw [signature?] at h
      split_ifs at h with hcommitted
      rw [rewritten, if_neg hcommitted]
      exact .inl rfl
  | release start size => exact .inr rfl
  | retag start size tag =>
      refine .inl ?_
      rw [rewritten]
      split_ifs with hreleased
      · rfl
      · simp only [Side.site?, if_neg hreleased, Sited.site_withTag]
  | assign a b state data mode =>
      cases state with
      | released => exact .inr rfl
      | _ => cases h

/-- **A mutation writes its call site** to the bytes of its range that it signs. -/
theorem site?_write_of_some {c : Mutation μ} {f : Bytes μ} {x : Address} {ref : StackRef}
    (hin : c.first ≤ x ∧ x.toNat < c.stop) (h : c.signature? (f x).state = some ref) :
    (c.write f x).site? = some ref := by
  rw [write, if_pos hin]
  exact site?_rewritten_of_some h

/-- **Every other byte keeps its call site**, unless it is released. -/
theorem site?_write_of_none {c : Mutation μ} {f : Bytes μ} {x : Address}
    (h : c.first ≤ x ∧ x.toNat < c.stop → c.signature? (f x).state = none) :
    (c.write f x).site? = (f x).site? ∨ (c.write f x).site? = none := by
  rw [write]
  split_ifs with hin
  · exact site?_rewritten_of_none (h hin)
  · exact .inl rfl

end Mutation

/-! ## The run around a byte -/

namespace RegionMap

variable {m : RegionMap μ} {f : Bytes μ}

omit [Sited μ]

/-- After the last boundary all memory is released. -/
lemma Represents.released_of_higher?_eq_none (h : m.Represents f) {x : Address}
    (hx : m.boundaries.higher? x = none) : (f x).state = .released := by
  rw [h.wellFormed.higher?_eq, List.head?_eq_none_iff, List.filter_eq_nil_iff] at hx
  have hstay : f lastAddress = f x := by
    refine Bytes.eq_of_forall_not_jumps (le_lastAddress x) ?_
    intro z hz _ hjump
    exact hx _ (h.mem_points_of_jumps hjump) (decide_eq_true hz)
  rw [← hstay, h.last_released]
  rfl

/-- **Nothing is around a byte exactly if it is released.** -/
theorem Represents.enclosing?_eq_none_iff (h : m.Represents f) (x : Address) :
    m.enclosing? x = none ↔ (f x).state = .released := by
  rw [← h.sideAt_eq, enclosing?, RegionMap.sideAt]
  cases hfloor : m.boundaries.floor? x with
  | none => exact iff_of_true rfl rfl
  | some p =>
      cases hhigher : m.boundaries.higher? x with
      | none =>
          have hside := h.released_of_higher?_eq_none hhigher
          rw [← h.sideAt_eq, RegionMap.sideAt, hfloor] at hside
          exact iff_of_true rfl hside
      | some q => simp

/-- **The run around a byte has its side.** -/
theorem Represents.side_of_enclosing? (h : m.Represents f) {x : Address} {r : Run μ}
    (hr : m.enclosing? x = some r) : r.side = f x := by
  rw [← h.sideAt_eq, RegionMap.sideAt]
  rw [enclosing?] at hr
  split at hr
  · next hfloor _ =>
      split_ifs at hr
      rw [hfloor, ← Option.some.inj hr]
  · cases hr

end RegionMap

end RegionLedger
