import RegionLedger.Proofs.Accounting.Renumbering
import RegionLedger.Proofs.Region.Accounting
import RegionLedger.Proofs.Region.CallSites
import RegionLedger.Proofs.Treap.Mapping

/-!
# Maps under other tags

A map compares tags with each other and writes untagged memory where it releases, and that is all it
does with their numbers.  So a mutation of a map under other tags, with its own tag exchanged as
well, gets the same answer and leaves the same map under the other tags: the same boundaries in the
same nodes, with other tags in them.

* `Tagged` — metadata in which the tag stands by itself.
* `Metadata.renumber`, `Side.renumber`, `RegionMap.renumber`, `Mutation.renumber` — other tags.
* `RegionMap.sideAt_renumber`, `RegionMap.segments_renumber` — what is found in a map.
* `RegionMap.assign_renumber`, `Mutation.apply_renumber` — what is done to it.
-/

namespace RegionLedger

/-- Metadata in which the tag stands by itself. -/
class Tagged (μ : Type) [Metadata μ] : Prop where
  /-- Released memory is untagged. -/
  tag_empty : Metadata.tag (Metadata.empty : μ) = .untagged
  /-- Only the last tag counts. -/
  withTag_withTag (d : μ) (s t : Tag) :
    Metadata.withTag (Metadata.withTag d s) t = Metadata.withTag d t
  /-- An adoption takes nothing of the tag of the new metadata, and the old tag as it is. -/
  adopt_withTag (d e : μ) (s t : Tag) :
    Metadata.adopt (Metadata.withTag d s) (Metadata.withTag e t) =
      Metadata.withTag (Metadata.adopt d e) t

instance : Tagged Attribution where
  tag_empty := rfl
  withTag_withTag _ _ _ := rfl
  adopt_withTag _ _ _ _ := rfl

instance : Tagged Placement where
  tag_empty := rfl
  withTag_withTag _ _ _ := rfl
  adopt_withTag _ _ _ _ := rfl

variable {μ : Type} [Metadata μ] (π : Renumbering)

/-! ## Sides -/

/-- The metadata under its other tag. -/
def Metadata.renumber (d : μ) : μ := withTag d (π (tag d))

/-- The side under its other tag. -/
def Side.renumber (s : Side μ) : Side μ := { s with data := Metadata.renumber π s.data }

/-- The change of side under other tags. -/
def Boundary.renumber (b : Boundary μ) : Boundary μ where
  incoming := b.incoming.renumber π
  outgoing := b.outgoing.renumber π

/-- The run under its other tag. -/
def Run.renumber (r : Run μ) : Run μ := { r with side := r.side.renumber π }

/-- The edit under other tags. -/
def Edit.renumber : Edit μ → Edit μ
  | .drop key => .drop key
  | .put key b => .put key (b.renumber π)

lemma Metadata.tag_renumber (d : μ) : tag (renumber π d) = π (tag d) := tag_withTag _ _

lemma Side.tag_renumber (s : Side μ) : (s.renumber π).tag = π s.tag := Metadata.tag_renumber π s.data

section Tagged

variable [Tagged μ]

namespace Metadata

lemma renumber_empty : renumber π (empty : μ) = empty := by
  have hempty : tag (empty : μ) = .untagged := Tagged.tag_empty
  rw [renumber, hempty, π.untagged, ← hempty, withTag_tag]

lemma renumber_withTag (d : μ) (t : Tag) :
    renumber π (withTag d t) = withTag (renumber π d) (π t) := by
  rw [renumber, renumber, tag_withTag, Tagged.withTag_withTag, Tagged.withTag_withTag]

lemma renumber_adopt (d e : μ) : renumber π (adopt d e) = adopt (renumber π d) (renumber π e) := by
  rw [renumber, renumber, renumber, Tagged.adopt_withTag, tag_adopt]

lemma renumber_injective : Function.Injective (renumber π : μ → μ) := by
  intro d e h
  have htag : tag d = tag e := by
    refine π.injective ?_
    rw [← tag_renumber, ← tag_renumber, h]
  have hback : withTag (renumber π d) (tag d) = withTag (renumber π e) (tag e) := by rw [h, htag]
  rwa [renumber, renumber, Tagged.withTag_withTag, Tagged.withTag_withTag, withTag_tag,
    withTag_tag] at hback

end Metadata

lemma Side.renumber_released : (released : Side μ).renumber π = released :=
  congrArg _ (Metadata.renumber_empty π)

lemma Side.renumber_injective : Function.Injective (renumber π : Side μ → Side μ) := by
  rintro ⟨state, data⟩ ⟨state', data'⟩ h
  obtain ⟨rfl, hdata⟩ := (Side.mk.injEq ..).mp h
  exact congrArg _ (Metadata.renumber_injective π hdata)

lemma Boundary.isVoid_renumber [DecidableEq μ] (b : Boundary μ) :
    (b.renumber π).isVoid = b.isVoid := by
  rw [isVoid, isVoid]
  exact decide_eq_decide.mpr (Side.renumber_injective π).eq_iff

end Tagged

/-! ## What is found in a map -/

namespace RegionMap

variable {m : RegionMap μ}

/-- The map under other tags, with its boundaries in the same nodes. -/
def renumber (m : RegionMap μ) : RegionMap μ := ⟨m.boundaries.map (Boundary.renumber π)⟩

lemma room_renumber (m : RegionMap μ) (n : ℕ) : (m.renumber π).room n = m.room n := rfl

lemma missing_renumber (m : RegionMap μ) (keys : List Address) :
    (m.renumber π).missing keys = m.missing keys := by
  rw [missing, missing]
  simp only [renumber, Treap.contains_map]

lemma pointsIn_renumber (m : RegionMap μ) (first last : Bound Address) :
    (m.renumber π).pointsIn first last =
      (m.pointsIn first last).map (Prod.map id (Boundary.renumber π)) :=
  Treap.range_map _ m.boundaries first last

lemma cut_renumber (cursor stop : Address) (side : Side μ) (pts : List (Address × Boundary μ)) :
    cut cursor stop (side.renumber π) (pts.map (Prod.map id (Boundary.renumber π))) =
      (cut cursor stop side pts).map (Run.renumber π) := by
  induction pts generalizing cursor side with
  | nil => rfl
  | cons p rest ih =>
      rw [List.map_cons, cut, cut, List.map_cons]
      exact congrArg _ (ih _ _)

variable [Tagged μ]

/-- **The side of a byte.** -/
theorem sideAt_renumber (m : RegionMap μ) (x : Address) :
    (m.renumber π).sideAt x = (m.sideAt x).renumber π := by
  rw [sideAt, sideAt, renumber, Treap.floor?_map]
  cases m.boundaries.floor? x with
  | none => exact (Side.renumber_released π).symm
  | some p => rfl

lemma sideBefore_renumber (m : RegionMap μ) (x : Address) :
    (m.renumber π).sideBefore x = (m.sideBefore x).renumber π := by
  rw [sideBefore, sideBefore, renumber, Treap.floor?_map]
  cases m.boundaries.floor? x with
  | none => exact (Side.renumber_released π).symm
  | some p => exact (apply_ite (Side.renumber π) _ _ _).symm

/-- **A range is cut into the same runs.** -/
theorem segments_renumber (m : RegionMap μ) (a b : Address) :
    (m.renumber π).segments a b = (m.segments a b).map (Run.renumber π) := by
  rw [segments, segments, pointsIn_renumber, sideAt_renumber, cut_renumber]
  split_ifs <;> rfl

/-- Runs are selected by what does not depend on their tags. -/
lemma filter_segments_renumber (m : RegionMap μ) (a b : Address) {p q : Run μ → Bool}
    (hpq : ∀ r, q (r.renumber π) = p r) :
    ((m.renumber π).segments a b).filter q = ((m.segments a b).filter p).map (Run.renumber π) := by
  rw [segments_renumber, List.filter_map]
  exact congrArg _ (List.filter_congr fun r _ => hpq r)

/-! ## What is done to a map -/

omit [Tagged μ] in
lemma newSide_renumber [Tagged μ] (found : Side μ) (state : State) (data : μ) (mode : Overwrite) :
    newSide (found.renumber π) state (Metadata.renumber π data) mode =
      (newSide found state data mode).renumber π := by
  cases state with
  | released => exact (Side.renumber_released π).symm
  | reserved | committed =>
      cases mode with
      | replace => rfl
      | adopt =>
          rw [newSide, newSide, apply_ite (Side.renumber π)]
          · refine if_congr Iff.rfl rfl ?_
            exact congrArg _ (Metadata.renumber_adopt π data found.data).symm
          all_goals simp

variable [DecidableEq μ]

omit [Tagged μ] [DecidableEq μ] in
lemma retire_renumber (d : Deltas) (runs : List (Run μ)) :
    retire (d.renumber π) (runs.map (Run.renumber π)) = (retire d runs).renumber π := by
  induction runs generalizing d with
  | nil => rfl
  | cons r rest ih =>
      have hcharge : (d.renumber π).charge (r.side.renumber π).tag r.side.state (-span r.size) =
          (d.charge r.side.tag r.side.state (-span r.size)).renumber π := by
        rw [Side.tag_renumber, Deltas.charge_renumber]
      show retire ((d.renumber π).charge (r.side.renumber π).tag r.side.state (-span r.size))
        (rest.map (Run.renumber π)) =
          (retire (d.charge r.side.tag r.side.state (-span r.size)) rest).renumber π
      rw [hcharge, ih]

lemma moved_renumber (m : RegionMap μ) (a b : Address) (new : Side μ) :
    (m.renumber π).moved a b (new.renumber π) = (m.moved a b new).renumber π := by
  rw [moved, moved, segments_renumber, show (∅ : Deltas) = (∅ : Deltas).renumber π from rfl,
    retire_renumber, enter, enter, Side.tag_renumber, Deltas.charge_renumber]
  rfl

/-- The edits of an assignment. -/
lemma edits_renumber (m : RegionMap μ) (a b : Address) (new : Side μ) :
    (m.renumber π).edits a b (new.renumber π) = (m.edits a b new).map (Edit.renumber π) := by
  have hplace : ∀ key (c : Boundary μ), place key (c.renumber π) = (place key c).renumber π := by
    intro key c
    rw [place, place, Boundary.isVoid_renumber, apply_ite (Edit.renumber π)]
    rfl
  rw [edits, edits, List.map_append, pointsIn_renumber, sideBefore_renumber, sideAt_renumber,
    List.map_map, List.map_map]
  refine congrArg _ (congrArg₂ (fun p q => [p, q]) ?_ ?_)
  · exact hplace a { incoming := m.sideBefore a, outgoing := new }
  · exact hplace b { incoming := new, outgoing := m.sideAt b }

omit [DecidableEq μ] [Tagged μ] in
/-- Edits carried out one after the other. -/
lemma foldlM_apply_renumber (t : Treap Address (Boundary μ)) (es : List (Edit μ)) :
    (es.map (Edit.renumber π)).foldlM Edit.apply (t.map (Boundary.renumber π)) =
      (es.foldlM Edit.apply t).map (Treap.map (Boundary.renumber π)) := by
  induction es generalizing t with
  | nil => rfl
  | cons e rest ih =>
      have hone : Edit.apply (t.map (Boundary.renumber π)) (e.renumber π) =
          (Edit.apply t e).map (Treap.map (Boundary.renumber π)) := by
        cases e with
        | drop key => exact congrArg (fun p => Except.ok p.2) (t.erase_map (Boundary.renumber π) key)
        | put key b => exact t.insert_map (Boundary.renumber π) key b
      rw [List.map_cons, List.foldlM_cons, List.foldlM_cons, hone]
      cases Edit.apply t e with
      | error e => rfl
      | ok t' => exact ih t'

/-- What is answered and what is left, under other tags. -/
def renumberAnswer (p : Except RegionError (Deltas × RegionMap μ)) :
    Except RegionError (Deltas × RegionMap μ) :=
  p.map (Prod.map (Deltas.renumber π) (renumber π))

/-- **An assignment.** -/
theorem assign_renumber (m : RegionMap μ) (a b : Address) (state : State) (data : μ)
    (mode : Overwrite) : (m.renumber π).assign a b state (Metadata.renumber π data) mode =
      renumberAnswer π (m.assign a b state data mode) := by
  by_cases hab : b ≤ a ∨ maxSpan < b - a
  · rw [assign, assign, if_pos hab, if_pos hab]
    rfl
  · have hedits := foldlM_apply_renumber π m.boundaries
      (m.edits a b (newSide (m.sideAt a) state data mode))
    rw [← edits_renumber] at hedits
    rw [assign_eq _ hab, assign_eq _ hab, room_renumber, missing_renumber, sideAt_renumber,
      newSide_renumber, moved_renumber, show (m.renumber π).boundaries =
        m.boundaries.map (Boundary.renumber π) from rfl, hedits]
    cases m.room (m.missing [a, b]) with
    | error e => rfl
    | ok u => cases List.foldlM Edit.apply m.boundaries _ <;> rfl

/-- Assignments to several runs. -/
lemma foldlM_assignRun_renumber {choose choose' : Side μ → State × μ × Overwrite}
    (hchoose : ∀ s, choose' (s.renumber π) =
      ((choose s).1, Metadata.renumber π (choose s).2.1, (choose s).2.2))
    (runs : List (Run μ)) (sum : Deltas) (m : RegionMap μ) :
    (runs.map (Run.renumber π)).foldlM (assignRun choose') (sum.renumber π, m.renumber π) =
      renumberAnswer π (runs.foldlM (assignRun choose) (sum, m)) := by
  induction runs generalizing sum m with
  | nil => rfl
  | cons r rest ih =>
      have hone : assignRun choose' (sum.renumber π, m.renumber π) (r.renumber π) =
          renumberAnswer π (assignRun choose (sum, m) r) := by
        have hassign := assign_renumber π m r.start r.stop (choose r.side).1 (choose r.side).2.1
          (choose r.side).2.2
        show ((m.renumber π).assign r.start r.stop (choose' (r.side.renumber π)).1
          (choose' (r.side.renumber π)).2.1 (choose' (r.side.renumber π)).2.2 >>= _) =
            renumberAnswer π (m.assign r.start r.stop (choose r.side).1 (choose r.side).2.1
              (choose r.side).2.2 >>= _)
        rw [hchoose, hassign]
        cases m.assign r.start r.stop (choose r.side).1 (choose r.side).2.1 (choose r.side).2.2 with
        | error e => rfl
        | ok answer =>
            show ((sum.renumber π).plus (answer.1.renumber π)).mapError RegionError.overflow >>= _ =
              renumberAnswer π ((sum.plus answer.1).mapError RegionError.overflow >>= _)
            rw [Deltas.plus_renumber]
            cases sum.plus answer.1 <;> rfl
      rw [List.map_cons, List.foldlM_cons, List.foldlM_cons, hone]
      cases assignRun choose (sum, m) r with
      | error e => rfl
      | ok acc => exact ih acc.1 acc.2

/-- **Several assignments.** -/
theorem assignEach_renumber {choose choose' : Side μ → State × μ × Overwrite}
    (hchoose : ∀ s, choose' (s.renumber π) =
      ((choose s).1, Metadata.renumber π (choose s).2.1, (choose s).2.2))
    (m : RegionMap μ) (runs : List (Run μ)) :
    (m.renumber π).assignEach (runs.map (Run.renumber π)) choose' =
      renumberAnswer π (m.assignEach runs choose) := by
  have hends : ends (runs.map (Run.renumber π)) = ends runs := by
    rw [ends, List.flatMap_map]
    rfl
  have hfold := foldlM_assignRun_renumber π hchoose runs ∅ m
  rw [assignEach_eq, assignEach_eq, hends, room_renumber, missing_renumber]
  cases m.room (m.missing (ends runs)) with
  | error e => rfl
  | ok u => exact hfold

end RegionMap

/-! ## Mutations -/

namespace Mutation

/-- The mutation under its other tag. -/
def renumber : Mutation μ → Mutation μ
  | reserve start size data => reserve start size (Metadata.renumber π data)
  | commit start size data mode => commit start size (Metadata.renumber π data) mode
  | uncommit start size data => uncommit start size (Metadata.renumber π data)
  | release start size => release start size
  | retag start size tag => retag start size (π tag)
  | assign first stop state data mode => assign first stop state (Metadata.renumber π data) mode

lemma first_renumber (c : Mutation μ) : (c.renumber π).first = c.first := by cases c <;> rfl

variable [Tagged μ] [DecidableEq μ]

/-- An effect on runs that are selected by what does not depend on their tags. -/
lemma on_parts_renumber {selects selects' : Side μ → Bool}
    {choose choose' : Side μ → State × μ × Overwrite}
    (hselects : ∀ s, selects' (s.renumber π) = selects s)
    (hchoose : ∀ s, choose' (s.renumber π) =
      ((choose s).1, Metadata.renumber π (choose s).2.1, (choose s).2.2))
    (m : RegionMap μ) (a b : Address) :
    Effect.on (m.renumber π) a b (.parts selects' choose') =
      RegionMap.renumberAnswer π (Effect.on m a b (.parts selects choose)) := by
  have hruns := RegionMap.filter_segments_renumber π m a b (p := fun r => selects r.side)
    (q := fun r => selects' r.side) fun r => hselects r.side
  rw [Effect.on, Effect.on, hruns]
  exact RegionMap.assignEach_renumber π hchoose m _

/-- An effect on a checked range. -/
lemma on_effect_renumber (c : Mutation μ) (m : RegionMap μ) (a b : Address) :
    (c.renumber π).effect.on (m.renumber π) a b =
      RegionMap.renumberAnswer π (c.effect.on m a b) := by
  cases c with
  | reserve start size data => exact RegionMap.assign_renumber π m a b .reserved data .replace
  | commit start size data mode => exact RegionMap.assign_renumber π m a b .committed data mode
  | assign first stop state data mode => exact RegionMap.assign_renumber π m a b state data mode
  | release start size =>
      have hassign := RegionMap.assign_renumber π m a b .released Metadata.empty .replace
      rwa [Metadata.renumber_empty] at hassign
  | uncommit start size data =>
      exact on_parts_renumber π (fun _ => rfl) (fun _ => rfl) m a b
  | retag start size tag =>
      refine on_parts_renumber π (fun s => ?_) (fun s => ?_) m a b
      · -- the tag of a run is that of the mutation if it is so under other tags
        rw [Side.tag_renumber]
        exact congrArg (s.state.isReserved && !·) (decide_eq_decide.mpr π.injective.eq_iff)
      · exact congrArg (fun d => (s.state, d, Overwrite.replace))
          (Metadata.renumber_withTag π s.data tag).symm

/-- **A mutation under other tags** gets the same answer and leaves the same map under other tags. -/
theorem apply_renumber (c : Mutation μ) (m : RegionMap μ) :
    (c.renumber π).apply (m.renumber π) = RegionMap.renumberAnswer π (c.apply m) := by
  have hstop : (c.renumber π).checkedStop = c.checkedStop := by cases c <;> rfl
  rw [apply_eq, apply_eq, hstop, first_renumber]
  cases c.checkedStop with
  | error e => rfl
  | ok b => exact on_effect_renumber π c m c.first b

end Mutation

end RegionLedger
