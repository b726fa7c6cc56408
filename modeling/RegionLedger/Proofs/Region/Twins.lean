import RegionLedger.Proofs.Region.Relabel

/-!
# Maps that differ in their references only

Two maps are twins if one stands for the bytes of the other with their references replaced, so that
different references stay different.  Their boundaries stand at the same addresses, so their ranges
are cut into the same runs, and there is room in the one if there is room in the other.  A mutation
and its relabelled form get the same answer from them, deltas included, and leave twins.

* `RegionMap.Twins` — the relation; it says nothing about the priorities of the boundaries.
* `RegionMap.Twins.points_eq`, `RegionMap.Twins.segments_eq` — the same boundaries, the same runs.
* `RegionMap.Twins.apply` — a mutation of twins.
-/

namespace RegionLedger

variable {μ : Type} [Metadata μ] [Sited μ] [Signs μ] {σ : StackRef → StackRef}
  {refs : Set StackRef}

/-- The change of side with its references replaced. -/
def Boundary.relabel (σ : StackRef → StackRef) (b : Boundary μ) : Boundary μ :=
  { incoming := b.incoming.relabel σ, outgoing := b.outgoing.relabel σ }

/-- The run with its reference replaced. -/
def Run.relabel (σ : StackRef → StackRef) (r : Run μ) : Run μ := { r with side := r.side.relabel σ }

lemma Bytes.boundary_relabel (σ : StackRef → StackRef) (f : Bytes μ) (x : Address) :
    (f.relabel σ).boundary x = (f.boundary x).relabel σ := by
  rw [boundary, before_relabel]
  rfl

namespace RegionMap

/-- The second map stands for the bytes of the first with their references replaced, and different
references stay different. -/
structure Twins (σ : StackRef → StackRef) (refs : Set StackRef) (m n : RegionMap μ) : Prop
    extends Relabels σ m n where
  injOn : Set.InjOn σ refs
  uses : Bytes.Uses m.sideAt refs

namespace Twins

variable {m n : RegionMap μ} {f : Bytes μ} {a b : Address}

lemma of_represents (hσ : Set.InjOn σ refs) (h : m.Represents f) (h' : n.Represents (f.relabel σ))
    (huses : f.Uses refs) : Twins σ refs m n := by
  obtain rfl : m.sideAt = f := funext h.sideAt_eq
  exact ⟨⟨h, h'⟩, hσ, huses⟩

/-- New maps are twins. -/
lemma empty (hσ : Set.InjOn σ refs) (draws draws' : Draws) :
    Twins σ refs (.empty draws : RegionMap μ) (.empty draws') := by
  refine ⟨.empty σ draws draws', hσ, ?_⟩
  rw [funext (represents_empty draws).sideAt_eq]
  exact Bytes.uses_untouched

/-! ## The same boundaries -/

lemma keys_eq (h : Twins σ refs m n) : n.keys = m.keys := by
  ext x
  rw [h.right.mem_keys_iff, h.left.mem_keys_iff, Bytes.jumps_relabel_iff h.injOn h.uses]

lemma size_eq (h : Twins σ refs m n) : n.size = m.size := by
  rw [← card_keys h.right.wellFormed, ← card_keys h.left.wellFormed, h.keys_eq]

lemma missing_eq (h : Twins σ refs m n) (ks : List Address) : n.missing ks = m.missing ks := by
  have hcontains : ∀ k, n.boundaries.contains k = m.boundaries.contains k := by
    intro k
    have hiff : n.boundaries.contains k = true ↔ m.boundaries.contains k = true := by
      rw [h.right.wellFormed.contains_iff, h.left.wellFormed.contains_iff]
      show k ∈ n.keys ↔ k ∈ m.keys
      rw [h.keys_eq]
    exact Bool.eq_iff_iff.mpr hiff
  simp only [missing, hcontains]

lemma room_eq (h : Twins σ refs m n) (k : ℕ) : n.room k = m.room k := by
  rw [RegionMap.room_eq h.right.wellFormed, RegionMap.room_eq h.left.wellFormed, h.size_eq]

/-- **The boundaries are the same**, up to their references. -/
theorem points_eq (h : Twins σ refs m n) :
    n.points = m.points.map fun p => (p.1, p.2.relabel σ) := by
  have hirrefl : Std.Irrefl fun p q : Address × Boundary μ => p.1 < q.1 :=
    ⟨fun p => UInt64.lt_irrefl p.1⟩
  have hantisymm : Std.Antisymm fun p q : Address × Boundary μ => p.1 < q.1 :=
    ⟨fun p q hpq hqp => absurd (UInt64.lt_trans hpq hqp) (UInt64.lt_irrefl p.1)⟩
  refine h.right.pairwise_points.eq_of_mem_iff (List.pairwise_map.mpr h.left.pairwise_points) ?_
  intro p
  rw [h.right.mem_points_iff, Bytes.jumps_relabel_iff h.injOn h.uses, Bytes.boundary_relabel,
    List.mem_map]
  constructor
  · rintro ⟨hjump, hp⟩
    exact ⟨_, h.left.mem_points_of_jumps hjump, Prod.ext rfl hp.symm⟩
  · rintro ⟨q, hq, rfl⟩
    obtain ⟨hjump, hb⟩ := (h.left.mem_points_iff q).mp hq
    exact ⟨hjump, by rw [hb]⟩

lemma pointsIn_eq (h : Twins σ refs m n) (first last : Bound Address) :
    n.pointsIn first last = (m.pointsIn first last).map fun p => (p.1, p.2.relabel σ) := by
  have hpoints : n.boundaries.toList = m.boundaries.toList.map fun p => (p.1, p.2.relabel σ) :=
    h.points_eq
  rw [pointsIn, pointsIn, h.right.wellFormed.range_eq, h.left.wellFormed.range_eq, hpoints,
    List.filter_map]
  rfl

lemma cut_relabel (σ : StackRef → StackRef) (cursor stop : Address) (side : Side μ)
    (pts : List (Address × Boundary μ)) :
    cut cursor stop (side.relabel σ) (pts.map fun p => (p.1, p.2.relabel σ)) =
      (cut cursor stop side pts).map (Run.relabel σ) := by
  induction pts generalizing cursor side with
  | nil => rfl
  | cons p rest ih =>
      rw [List.map_cons, cut, cut, List.map_cons]
      exact congrArg _ (ih _ _)

/-- **A range is cut into the same runs**, up to their references. -/
theorem segments_eq (h : Twins σ refs m n) (a b : Address) :
    n.segments a b = (m.segments a b).map (Run.relabel σ) := by
  rw [segments, segments, h.pointsIn_eq, h.sideAt_eq]
  split_ifs
  · exact cut_relabel σ a b _ _
  · rfl

/-- The references of the runs of a range are in use. -/
lemma uses_of_mem_segments (h : Twins σ refs m n) {r : Run μ} (hr : r ∈ m.segments a b) :
    ∀ ref ∈ r.side.site?, ref ∈ refs := by
  by_cases hab : a < b
  · obtain ⟨⟨_, hlt, _⟩, hsame, _⟩ := (h.left.tiles_segments hab).mem hr
    rw [← hsame r.start (UInt64.le_refl _) hlt]
    exact h.uses r.start
  · rw [segments, if_neg hab] at hr
    cases hr

/-- **The tracked runs are the same**, up to their references. -/
theorem runs_eq (h : Twins σ refs m n) : n.runs = m.runs.map (Run.relabel σ) := by
  have hpoints : n.boundaries.toList = m.boundaries.toList.map fun p => (p.1, p.2.relabel σ) :=
    h.points_eq
  rw [runs, runs, Treap.min?_eq, Treap.max?_eq, Treap.min?_eq, Treap.max?_eq, hpoints,
    List.head?_map, List.getLast?_map]
  cases m.boundaries.toList.head? with
  | none => rfl
  | some first =>
      cases m.boundaries.toList.getLast? with
      | none => rfl
      | some last =>
          show n.runsIn first.1 last.1 = (m.runsIn first.1 last.1).map (Run.relabel σ)
          rw [runsIn, runsIn, h.segments_eq, List.filter_map]
          congr 1
          refine List.filter_congr ?_
          intro r _
          show (r.side.relabel σ).state.isReserved = _
          rw [Side.state_relabel]
          rfl

/-- A tracked run is not released, and its reference is in use. -/
lemma mem_runs (h : Twins σ refs m n) {r : Run μ} (hr : r ∈ m.runs) :
    r.side.state ≠ .released ∧ Sited.site r.side.data ∈ refs := by
  rw [runs] at hr
  split at hr
  · obtain ⟨hmem, htracked⟩ := List.mem_filter.mp hr
    have hne : r.side.state ≠ .released := by
      intro hreleased
      rw [Run.isTracked, hreleased] at htracked
      cases htracked
    exact ⟨hne, h.uses_of_mem_segments hmem _ (Side.site?_of_ne_released hne)⟩
  · cases hr

/-! ## The same answers -/

lemma retire_relabel (σ : StackRef → StackRef) (d : Deltas) (runs : List (Run μ)) :
    retire d (runs.map (Run.relabel σ)) = retire d runs := by
  rw [retire, retire, List.foldl_map]
  congr 1
  funext d r
  show d.charge (r.side.relabel σ).tag (r.side.relabel σ).state (-span r.size) = _
  rw [Side.tag_relabel, Side.state_relabel]

variable [DecidableEq μ]

lemma moved_eq (h : Twins σ refs m n) (a b : Address) (new : Side μ) :
    n.moved a b (new.relabel σ) = m.moved a b new := by
  rw [moved, moved, h.segments_eq, retire_relabel, enter, enter]
  simp only [Side.tag_relabel, Side.state_relabel]
  rfl

/-- **An assignment to twins.** -/
theorem assign (h : Twins σ refs m n) (a b : Address) (state : State) (data : μ) (mode : Overwrite)
    (hdata : state ≠ .released → Sited.site data ∈ refs) :
    SameAnswer Eq (Twins σ refs) (m.assign a b state data mode)
      (n.assign a b state (Metadata.relabel σ data) mode) := by
  by_cases hab : a < b ∧ b - a ≤ maxSpan
  · by_cases room : m.size + m.missing [a, b] ≤ Slots.limit
    · obtain ⟨m', hm, hleft⟩ := h.left.assign_ok state data mode hab.1 hab.2 room
      have room' : n.size + n.missing [a, b] ≤ Slots.limit := by
        rwa [h.size_eq, h.missing_eq]
      obtain ⟨n', hn, hright⟩ := h.right.assign_ok state (Metadata.relabel σ data) mode hab.1 hab.2
        room'
      have hnew : newSide (Bytes.relabel σ m.sideAt a) state (Metadata.relabel σ data) mode =
          (newSide (m.sideAt a) state data mode).relabel σ :=
        newSide_relabel σ (m.sideAt a) state data mode
      rw [hnew, ← Bytes.relabel_overwrite] at hright
      rw [hm, hn, hnew, h.moved_eq]
      refine .ok rfl (of_represents h.injOn hleft hright (h.uses.overwrite ?_ a b))
      intro ref href
      by_cases hstate : state.isReserved
      · rw [newSide_eq _ _ _ _ hstate] at href
        have hne : state ≠ .released := by
          rintro rfl
          cases hstate
        rw [Side.site?_of_ne_released hne, Option.mem_some_iff, mode.site_keep] at href
        exact href ▸ hdata hne
      · cases state with
        | released => cases href
        | _ => exact absurd rfl hstate
    · rw [h.left.assign_full state data mode hab.1 hab.2 (by omega),
        h.right.assign_full state _ mode hab.1 hab.2 (by rw [h.size_eq, h.missing_eq]; omega)]
      exact .error _
  · rw [assign_invalid state data mode hab, assign_invalid state _ mode hab]
    exact .error _

/-- The sides chosen for the runs of twins are the same, up to their references. -/
def Chooses (σ : StackRef → StackRef) (refs : Set StackRef)
    (c c' : Side μ → State × μ × Overwrite) (s : Side μ) : Prop :=
  c' (s.relabel σ) = ((c s).1, Metadata.relabel σ (c s).2.1, (c s).2.2) ∧
    Sited.site (c s).2.1 ∈ refs

/-- What one assignment has moved joins the sum. -/
def booked (sum : Deltas) (answer : Deltas × RegionMap μ) :
    Except RegionError (Deltas × RegionMap μ) := do
  let sum ← (sum.plus answer.1).mapError RegionError.overflow
  return (sum, answer.2)

/-- Several assignments, one after the other. -/
lemma foldlM_assignRun (h : Twins σ refs m n) {c c' : Side μ → State × μ × Overwrite}
    {runs : List (Run μ)} (hc : ∀ r ∈ runs, Chooses σ refs c c' r.side) (sum : Deltas) :
    SameAnswer Eq (Twins σ refs) (runs.foldlM (assignRun c) (sum, m))
      ((runs.map (Run.relabel σ)).foldlM (assignRun c') (sum, n)) := by
  induction runs generalizing m n sum with
  | nil => exact .ok rfl h
  | cons r rest ih =>
      obtain ⟨hchoose, hsite⟩ := hc r List.mem_cons_self
      have hassign := h.assign r.start r.stop (c r.side).1 (c r.side).2.1 (c r.side).2.2
        fun _ => hsite
      have hright : assignRun c' (sum, n) (r.relabel σ) =
          (n.assign r.start r.stop (c r.side).1 (Metadata.relabel σ (c r.side).2.1)
            (c r.side).2.2).bind (booked sum) := by
        show (n.assign r.start r.stop (c' (r.side.relabel σ)).1 (c' (r.side.relabel σ)).2.1
          (c' (r.side.relabel σ)).2.2 >>= _) = _
        rw [hchoose]
        rfl
      have hleft : assignRun c (sum, m) r =
          (m.assign r.start r.stop (c r.side).1 (c r.side).2.1 (c r.side).2.2).bind
            (booked sum) := rfl
      rw [List.map_cons, List.foldlM_cons, List.foldlM_cons, hleft, hright]
      generalize m.assign r.start r.stop _ _ _ = p at hassign
      generalize n.assign r.start r.stop _ _ _ = q at hassign
      cases hassign with
      | error e => exact .error e
      | @ok d _ deltas _ _ related =>
          subst deltas
          show SameAnswer Eq (Twins σ refs) ((booked sum (d, _)).bind _)
            ((booked sum (d, _)).bind _)
          rw [booked, booked]
          cases sum.plus d with
          | error o => exact .error (RegionError.overflow o)
          | ok sum => exact ih related (fun r hr => hc r (List.mem_cons_of_mem _ hr)) sum

/-- **An assignment to several runs of twins.** -/
theorem assignEach (h : Twins σ refs m n) {c c' : Side μ → State × μ × Overwrite}
    {runs : List (Run μ)} (hc : ∀ r ∈ runs, Chooses σ refs c c' r.side) :
    SameAnswer Eq (Twins σ refs) (m.assignEach runs c)
      (n.assignEach (runs.map (Run.relabel σ)) c') := by
  have hends : ends (runs.map (Run.relabel σ)) = ends runs := by
    rw [ends, List.flatMap_map]
    rfl
  have hfold := h.foldlM_assignRun hc ∅
  rw [assignEach_eq, assignEach_eq, hends, h.room_eq, h.missing_eq]
  cases m.room (m.missing (ends runs)) with
  | error e => exact .error e
  | ok u => exact hfold

omit [Sited μ] [Signs μ] in
/-- What is assigned as released memory does not matter. -/
lemma assign_released (m : RegionMap μ) (a b : Address) (data data' : μ) (mode : Overwrite) :
    m.assign a b .released data mode = m.assign a b .released data' mode := by
  cases mode <;> rfl

end Twins

end RegionMap

/-- The references that a mutation writes are in the set. -/
def Mutation.Names (refs : Set StackRef) : Mutation μ → Prop
  | reserve _ _ data | commit _ _ data _ | uncommit _ _ data => Sited.site data ∈ refs
  | release .. | retag .. => True
  | assign _ _ state data _ => state ≠ .released → Sited.site data ∈ refs

namespace RegionMap.Twins

variable [DecidableEq μ] {m n : RegionMap μ}

/-- An effect on a checked range. -/
lemma on_effect (h : Twins σ refs m n) (c : Mutation μ) (hc : c.Names refs) (a b : Address) :
    SameAnswer Eq (Twins σ refs) (c.effect.on m a b) ((c.relabel σ).effect.on n a b) := by
  have hparts : ∀ (selects : Side μ → Bool) (choose choose' : Side μ → State × μ × Overwrite),
      (∀ s, selects (s.relabel σ) = selects s) →
      (∀ s, selects s = true → (∀ ref ∈ s.site?, ref ∈ refs) → Chooses σ refs choose choose' s) →
      SameAnswer Eq (Twins σ refs) (Effect.on m a b (.parts selects choose))
        (Effect.on n a b (.parts selects choose')) := by
    intro selects choose choose' hselects hchoose
    have hruns : (n.segments a b).filter (fun r => selects r.side) =
        ((m.segments a b).filter fun r => selects r.side).map (Run.relabel σ) := by
      rw [h.segments_eq, List.filter_map]
      congr 1
      refine List.filter_congr ?_
      intro r _
      exact hselects r.side
    rw [Effect.on, Effect.on, hruns]
    refine h.assignEach ?_
    intro r hr
    obtain ⟨hr, hside⟩ := List.mem_filter.mp hr
    exact hchoose r.side hside (h.uses_of_mem_segments hr)
  cases c with
  | reserve start size data => exact h.assign a b .reserved data .replace fun _ => hc
  | commit start size data mode => exact h.assign a b .committed data mode fun _ => hc
  | release start size =>
      have hassign := h.assign a b .released Metadata.empty .replace fun hne => absurd rfl hne
      rwa [assign_released n a b (Metadata.relabel σ Metadata.empty) Metadata.empty] at hassign
  | assign first stop state data mode => exact h.assign a b state data mode hc
  | uncommit start size data =>
      refine hparts _ _ _ (fun s => by rw [Side.state_relabel]) ?_
      intro s _ _
      exact ⟨rfl, hc⟩
  | retag start size tag =>
      refine hparts _ _ _ (fun s => by rw [Side.state_relabel, Side.tag_relabel]) ?_
      intro s hs hsite
      have hne : s.state ≠ .released := by
        intro hreleased
        rw [hreleased] at hs
        cases hs
      refine ⟨?_, ?_⟩
      · rw [Side.relabel_of_ne_released σ hne]
        exact congrArg (fun d => (s.state, d, Overwrite.replace))
          (Metadata.withTag_relabel σ s.data tag)
      · show Sited.site (Metadata.withTag s.data tag) ∈ refs
        rw [Sited.site_withTag]
        exact hsite _ (Side.site?_of_ne_released hne)

/-- **A mutation of twins** and its relabelled form get the same answer and leave twins. -/
theorem apply (h : Twins σ refs m n) {c : Mutation μ} (hc : c.Names refs) :
    SameAnswer Eq (Twins σ refs) (c.apply m) ((c.relabel σ).apply n) := by
  have hstop : (c.relabel σ).checkedStop = c.checkedStop := by cases c <;> rfl
  rw [Mutation.apply_eq, Mutation.apply_eq, hstop, Mutation.first_relabel]
  cases c.checkedStop with
  | error e => exact .error e
  | ok b => exact h.on_effect c hc c.first b

end RegionMap.Twins

end RegionLedger
