import RegionLedger.Proofs.Region.Repeating

/-!
# Boundaries on the way

A mutation is one list of edits.  It rewrites its runs one after the other; each rewrite drops the
boundaries inside the run and then places those at its ends.  Before the first edit room is made for
the ends at which no boundary is stored.  Every edit is at one of these ends or at a boundary that is
there, so on the way there are never more boundaries than room was made for.

What has been rewritten is not selected again.  So it differs from a selected run that follows it, and
the boundary between the two stays until the later run has its turn.

* `Edit.key`, `Edit.foldlM_within` — edits at the addresses of a set find room if the set does.
* `RegionMap.editsEach` — the edits of the rewrites of some runs.
* `Mutation.targets`, `Mutation.needed`, `Mutation.edits` — the runs that a mutation rewrites, the room
  that it asks for, and all its edits.
* `RegionMap.editsEach_within` — the bound, for any runs.
* `RegionMap.Represents.drop_not_mem_editsEach` — the start of a run to come is not dropped.
* `RegionMap.rewrites_within_room` — both, for every mutation of a map that mutations lead to.
-/

namespace RegionLedger

variable {μ : Type}

/-! ## Edits within a set of addresses -/

namespace Edit

variable {t : Treap Address (Boundary μ)} {s : Finset Address}

/-- The address whose boundary is dropped or stored. -/
def key : Edit μ → Address
  | drop key => key
  | put key _ => key

/-- **An edit at an address of a set** that has room keeps to the set, and takes away the boundary
that it drops and no other. -/
lemma apply_within (ht : t.WellFormed) (hs : s.card ≤ Slots.limit) (hkeys : t.keys ⊆ s) {e : Edit μ}
    (he : e.key ∈ s) :
    ∃ t', e.apply t = .ok t' ∧ t'.WellFormed ∧ t'.keys ⊆ s ∧
      ∀ x ∈ t.keys, drop x ≠ e → x ∈ t'.keys := by
  cases e with
  | drop k =>
      obtain ⟨hwf, hmem, -⟩ := ht.erase_spec k
      refine ⟨(t.erase k).2, rfl, hwf, ?_, ?_⟩
      · intro x hx
        obtain ⟨b, hb⟩ := Treap.mem_keys.mp hx
        exact hkeys (Treap.mem_keys.mpr ⟨b, ((hmem _).mp hb).1⟩)
      · intro x hx hne
        obtain ⟨b, hb⟩ := Treap.mem_keys.mp hx
        exact Treap.mem_keys.mpr ⟨b, (hmem _).mpr ⟨hb, fun hxk => hne (congrArg drop hxk)⟩⟩
  | put k b =>
      obtain ⟨t', hinsert, hwf, hmem⟩ := ht.insert_spec k b (ht.room_of_mem hkeys he hs)
      refine ⟨t', hinsert, hwf, ?_, ?_⟩
      · intro x hx
        obtain ⟨c, hc⟩ := Treap.mem_keys.mp hx
        rcases (hmem _).mp hc with heq | ⟨hc, -⟩
        · exact (Prod.mk.inj heq).1 ▸ he
        · exact hkeys (Treap.mem_keys.mpr ⟨c, hc⟩)
      · intro x hx _
        obtain ⟨c, hc⟩ := Treap.mem_keys.mp hx
        by_cases hxk : x = k
        · exact Treap.mem_keys.mpr ⟨b, (hmem _).mpr (.inl (congrArg (·, b) hxk))⟩
        · exact Treap.mem_keys.mpr ⟨c, (hmem _).mpr (.inr ⟨hc, hxk⟩)⟩

/-- **Edits one after the other**, all at addresses of a set that has room. -/
theorem foldlM_within (ht : t.WellFormed) (hs : s.card ≤ Slots.limit) (hkeys : t.keys ⊆ s)
    {es : List (Edit μ)} (hes : ∀ e ∈ es, e.key ∈ s) :
    ∃ t', es.foldlM apply t = .ok t' ∧ t'.WellFormed ∧ t'.keys ⊆ s ∧
      ∀ x ∈ t.keys, drop x ∉ es → x ∈ t'.keys := by
  induction es generalizing t with
  | nil => exact ⟨t, rfl, ht, hkeys, fun x hx _ => hx⟩
  | cons e rest ih =>
      rw [List.forall_mem_cons] at hes
      obtain ⟨t₁, happly, hwf₁, hkeys₁, hstay₁⟩ := apply_within ht hs hkeys hes.1
      obtain ⟨t', hfold, hwf, hkeys', hstay⟩ := ih hwf₁ hkeys₁ hes.2
      refine ⟨t', ?_, hwf, hkeys', ?_⟩
      · rw [List.foldlM_cons, happly]
        exact hfold
      · intro x hx hnot
        rw [List.mem_cons, not_or] at hnot
        exact hstay x (hstay₁ x hx hnot.1) hnot.2

end Edit

/-! ## The edits of several rewrites -/

namespace RegionMap

variable [Metadata μ] [DecidableEq μ] {m m' : RegionMap μ} {f : Bytes μ} {a b : Address} {d : Deltas}

/-- The edits of a rewrite: inner boundaries are dropped, and the two ends are placed. -/
lemma cases_of_mem_edits (hm : m.boundaries.WellFormed) {new : Side μ} {e : Edit μ}
    (he : e ∈ m.edits a b new) :
    (∃ x ∈ m.keys, a < x ∧ x < b ∧ e = .drop x) ∨
      e = place a { incoming := m.sideBefore a, outgoing := new } ∨
      e = place b { incoming := new, outgoing := m.sideAt b } := by
  rw [edits, List.mem_append, List.mem_map] at he
  rcases he with ⟨p, hp, rfl⟩ | he
  · rw [pointsIn, hm.range_eq, List.mem_filter] at hp
    simp only [Bound.endsAfter, Bound.startsBy, Bool.and_eq_true, decide_eq_true_eq] at hp
    exact .inl ⟨p.1, Treap.mem_keys.mpr ⟨p.2, hp.1⟩, hp.2.2, hp.2.1, rfl⟩
  · exact .inr (by simpa using he)

omit [Metadata μ] in
lemma key_place (k : Address) (c : Boundary μ) : (place k c).key = k := by
  rw [place]
  split_ifs <;> rfl

/-- Every edit of a rewrite is at a boundary that is there or at an end. -/
lemma key_mem_of_mem_edits (hm : m.boundaries.WellFormed) {new : Side μ} {e : Edit μ}
    (he : e ∈ m.edits a b new) {s : Finset Address} (hkeys : m.keys ⊆ s) (ha : a ∈ s) (hb : b ∈ s) :
    e.key ∈ s := by
  rcases cases_of_mem_edits hm he with ⟨x, hx, -, -, rfl⟩ | rfl | rfl
  · exact hkeys hx
  · rwa [key_place]
  · rwa [key_place]

/-- The edits of assignments to some runs, each on what the ones before leave. -/
def editsEach (c : Side μ → State × μ × Overwrite) (m : RegionMap μ) : List (Run μ) → List (Edit μ)
  | [] => []
  | r :: rest =>
    let es := m.edits r.start r.stop
      (newSide (m.sideAt r.start) (c r.side).1 (c r.side).2.1 (c r.side).2.2)
    es ++ match es.foldlM Edit.apply m.boundaries with
      | .ok t => editsEach c ⟨t⟩ rest
      | .error _ => []

variable {c : Side μ → State × μ × Overwrite}

/-- Fewer runs need the first few of the edits. -/
lemma editsEach_append_prefix (c : Side μ → State × μ × Overwrite) (m : RegionMap μ)
    (runs more : List (Run μ)) : editsEach c m runs <+: editsEach c m (runs ++ more) := by
  induction runs generalizing m with
  | nil => exact List.nil_prefix
  | cons r rest ih =>
      rw [List.cons_append, editsEach, editsEach, List.prefix_append_right_inj]
      split
      · exact ih _
      · exact List.nil_prefix

/-- Every edit is at a boundary that was there before the first one, or at an end of a run. -/
lemma key_mem_of_mem_editsEach (hm : m.boundaries.WellFormed) {runs : List (Run μ)}
    {s : Finset Address} (hs : s.card ≤ Slots.limit) (hkeys : m.keys ⊆ s)
    (hends : ∀ x ∈ ends runs, x ∈ s) {e : Edit μ} (he : e ∈ editsEach c m runs) : e.key ∈ s := by
  induction runs generalizing m with
  | nil => cases he
  | cons r rest ih =>
      rw [ends, List.flatMap_cons] at hends
      have hfirst : ∀ e' ∈ m.edits r.start r.stop
          (newSide (m.sideAt r.start) (c r.side).1 (c r.side).2.1 (c r.side).2.2), e'.key ∈ s :=
        fun e' he' => key_mem_of_mem_edits hm he' hkeys (hends _ (by simp)) (hends _ (by simp))
      obtain ⟨t, hfold, hwf, hkeys', -⟩ := Edit.foldlM_within hm hs hkeys hfirst
      rw [editsEach, hfold, List.mem_append] at he
      rcases he with he | he
      · exact hfirst e he
      · exact ih (m := ⟨t⟩) hwf hkeys' (fun x hx => hends x (List.mem_append_right _ hx)) he

/-- **Within the room made for the ends of the runs**, every first few of the edits are carried out.
They take away the boundaries that they drop and no other. -/
theorem editsEach_within (hm : m.boundaries.WellFormed) {runs : List (Run μ)}
    (room : m.size + m.missing (ends runs) ≤ Slots.limit) {before : List (Edit μ)}
    (hbefore : before <+: editsEach c m runs) :
    ∃ t, before.foldlM Edit.apply m.boundaries = .ok t ∧
      t.size ≤ m.size + m.missing (ends runs) ∧ t.WellFormed ∧
      ∀ x ∈ m.keys, Edit.drop x ∉ before → x ∈ t.keys := by
  have hcard := card_union_le hm (ends runs)
  have hkey : ∀ e ∈ before, e.key ∈ m.keys ∪ (ends runs).toFinset := fun e he =>
    key_mem_of_mem_editsEach hm (hcard.trans room) Finset.subset_union_left
      (fun x hx => Finset.mem_union_right _ (List.mem_toFinset.mpr hx)) (hbefore.subset he)
  obtain ⟨t, hfold, hwf, hkeys, hstay⟩ :=
    Edit.foldlM_within hm (hcard.trans room) Finset.subset_union_left hkey
  refine ⟨t, hfold, ?_, hwf, hstay⟩
  rw [← hwf.card_keys]
  exact (Finset.card_le_card hkeys).trans hcard

/-! ## The assignments that make these edits -/

/-- An assignment leaves what its edits leave. -/
lemma foldlM_edits_of_assign_eq_ok {state : State} {data : μ} {mode : Overwrite}
    (hok : m.assign a b state data mode = .ok (d, m')) :
    (m.edits a b (newSide (m.sideAt a) state data mode)).foldlM Edit.apply m.boundaries =
      .ok m'.boundaries := by
  by_cases hab : b ≤ a ∨ maxSpan < b - a
  · rw [assign, if_pos hab] at hok
    cases hok
  · rw [assign_eq m hab] at hok
    cases hroom : m.room (m.missing [a, b]) with
    | error e =>
        rw [hroom] at hok
        cases hok
    | ok u =>
        rw [hroom] at hok
        cases hfold : (m.edits a b (newSide (m.sideAt a) state data mode)).foldlM Edit.apply
            m.boundaries with
        | error e =>
            rw [hfold] at hok
            cases hok
        | ok t =>
            rw [hfold] at hok
            cases hok
            rfl

/-- The first of several assignments, and the others. -/
lemma exists_of_foldlM_assignRun_cons {r : Run μ} {rest : List (Run μ)} {sum : Deltas}
    {answer : Deltas × RegionMap μ}
    (hok : (r :: rest).foldlM (assignRun c) (sum, m) = .ok answer) :
    ∃ d₁ m₁ sum₁,
      m.assign r.start r.stop (c r.side).1 (c r.side).2.1 (c r.side).2.2 = .ok (d₁, m₁) ∧
      rest.foldlM (assignRun c) (sum₁, m₁) = .ok answer ∧
      editsEach c m (r :: rest) = m.edits r.start r.stop
        (newSide (m.sideAt r.start) (c r.side).1 (c r.side).2.1 (c r.side).2.2) ++
          editsEach c m₁ rest := by
  rw [List.foldlM_cons] at hok
  cases hfirst : assignRun c (sum, m) r with
  | error e =>
      rw [hfirst] at hok
      cases hok
  | ok first =>
      rw [hfirst] at hok
      obtain ⟨d₁, hassign, _⟩ := exists_of_assignRun_eq_ok hfirst
      refine ⟨d₁, first.2, first.1, hassign, hok, ?_⟩
      rw [editsEach]
      simp only [foldlM_edits_of_assign_eq_ok hassign]

/-- **Several assignments leave what all their edits leave.** -/
lemma foldlM_editsEach_of_eq_ok {runs : List (Run μ)} {sum : Deltas} {answer : Deltas × RegionMap μ}
    (hok : runs.foldlM (assignRun c) (sum, m) = .ok answer) :
    (editsEach c m runs).foldlM Edit.apply m.boundaries = .ok answer.2.boundaries := by
  induction runs generalizing sum m with
  | nil =>
      cases hok
      rfl
  | cons r rest ih =>
      obtain ⟨d₁, m₁, _, hassign, hrest, hedits⟩ := exists_of_foldlM_assignRun_cons hok
      rw [hedits, List.foldlM_append, foldlM_edits_of_assign_eq_ok hassign]
      exact ih hrest

/-! ## Runs to come -/

/-- A rewrite in front of a boundary does not drop it, if it brings another side than follows. -/
lemma Represents.drop_not_mem_edits (h : m.Represents f) (hab : a < b) {x : Address} (hx : b ≤ x)
    {new : Side μ} (hnew : new ≠ f x) : Edit.drop x ∉ m.edits a b new := by
  intro hdrop
  rcases cases_of_mem_edits h.wellFormed hdrop with ⟨y, -, -, hy, heq⟩ | heq | heq
  · cases heq
    grind
  · have hkey := congrArg Edit.key heq
    rw [key_place] at hkey
    simp only [Edit.key] at hkey
    grind
  · have hkey := congrArg Edit.key heq
    rw [key_place] at hkey
    obtain rfl : x = b := hkey
    rw [place, Boundary.isVoid, if_neg (by simpa [h.sideAt_eq] using hnew)] at heq
    cases heq

/-- **The start of a run to come is not dropped**, if each earlier run gets another side than the run
to come has.  The induction is on the earlier runs. -/
theorem Represents.drop_not_mem_editsEach (h : m.Represents f) {earlier later : List (Run μ)}
    {r : Run μ} (hruns : f.Shows b a (earlier ++ r :: later))
    (hnew : ∀ r' ∈ earlier, newSideBy c r'.side ≠ r.side) {sum : Deltas}
    {answer : Deltas × RegionMap μ}
    (hok : earlier.foldlM (assignRun c) (sum, m) = .ok answer) :
    Edit.drop r.start ∉ editsEach c m earlier := by
  induction earlier generalizing m f a sum with
  | nil => exact List.not_mem_nil
  | cons r₀ rest ih =>
      rw [List.cons_append] at hruns
      have hnext := hruns.tail_overwrite (newSideBy c r₀.side)
      obtain ⟨d₁, m₁, _, hassign, hrest, hedits⟩ := exists_of_foldlM_assignRun_cons hok
      obtain ⟨-, -, -, h₁⟩ := h.of_assign_eq_ok _ _ _ hassign
      rw [hedits, List.mem_append, not_or]
      cases hruns with
      | cons hstart hlt hstop same tail =>
          have hr : r ∈ rest ++ r :: later := by simp
          have hfound : f r₀.start = r₀.side := same _ (UInt64.le_refl _) hlt
          have hside : f r.start = r.side :=
            tail.same_of_mem hr _ (UInt64.le_refl _) (tail.start_lt_of_mem hr)
          rw [hfound] at h₁
          refine ⟨?_, ih h₁ hnext (fun r' hr' => hnew r' (List.mem_cons_of_mem _ hr')) hrest⟩
          refine h.drop_not_mem_edits hlt (tail.le_start_of_mem hr) ?_
          rw [h.sideAt_eq, hfound, hside]
          exact hnew r₀ List.mem_cons_self

end RegionMap

/-! ## The edits of a mutation -/

namespace Effect

variable [Metadata μ] [DecidableEq μ] {m m' : RegionMap μ} {f : Bytes μ} {a b : Address} {d : Deltas}

/-- The runs of the range from `a` to `b` that are rewritten, one after the other. -/
def targets (m : RegionMap μ) (a b : Address) : Effect μ → List (Run μ)
  | whole .. => [⟨a, b, m.sideAt a⟩]
  | parts selects _ => (m.segments a b).filter fun r => selects r.side

/-- What a run is assigned, by the side that it has. -/
def choice : Effect μ → Side μ → State × μ × Overwrite
  | whole state data mode => fun _ => (state, data, mode)
  | parts _ choose => choose

/-- An effect that is carried out has found room, and has rewritten its runs. -/
lemma of_on_eq_ok (h : m.Represents f) (hab : a < b) (hlen : b - a ≤ maxSpan) {e : Effect μ}
    (hok : e.on m a b = .ok (d, m')) :
    m.size + m.missing (RegionMap.ends (e.targets m a b)) ≤ Slots.limit ∧
      ∃ sum, (e.targets m a b).foldlM (RegionMap.assignRun e.choice) (∅, m) = .ok (sum, m') := by
  cases e with
  | whole state data mode =>
      rw [on] at hok
      obtain ⟨-, -, hbooks⟩ := h.assign_books hok
      obtain ⟨sum, hplus, -⟩ := (Deltas.books_empty f).exists_plus hbooks
        (RegionMap.fits_held_sub (RegionMap.toNat_sub_le hab hlen)
          fun x hx => Bytes.overwrite_of_not_mem hx)
      refine ⟨?_, sum, ?_⟩
      · by_contra hfull
        rw [h.assign_full state data mode hab hlen (Nat.lt_of_not_le hfull)] at hok
        cases hok
      · rw [targets, List.foldlM_cons, RegionMap.assignRun_eq_ok hok hplus]
        rfl
  | parts selects choose =>
      have room : m.size + m.missing (RegionMap.ends ((m.segments a b).filter
          fun r => selects r.side)) ≤ Slots.limit := by
        by_contra hfull
        rw [on, h.assignEach_full choose (Nat.lt_of_not_le hfull)] at hok
        cases hok
      rw [on, RegionMap.assignEach_eq, RegionMap.room_eq h.wellFormed, if_pos room] at hok
      exact ⟨room, d, hok⟩

omit [DecidableEq μ] in
/-- At most the two ends of the range are asked room for. -/
lemma missing_targets_le (h : m.Represents f) (hab : a < b) (e : Effect μ) :
    m.missing (RegionMap.ends (e.targets m a b)) ≤ 2 := by
  cases e with
  | whole state data mode => exact List.length_filter_le _ _
  | parts selects choose =>
      have hle := RegionMap.missing_ends_le h (h.tiles_segments hab) fun r => selects r.side
      have ha : m.missing [a] ≤ 1 := List.length_filter_le _ _
      have hb : m.missing [b] ≤ 1 := List.length_filter_le _ _
      exact hle.trans (by omega)

end Effect

namespace Mutation

variable [Metadata μ] {m m' : RegionMap μ} {f : Bytes μ} {d : Deltas}

/-- The runs that a mutation rewrites, one after the other. -/
def targets (c : Mutation μ) (m : RegionMap μ) : List (Run μ) :=
  c.effect.targets m c.first (.ofNat c.stop)

/-- The boundaries that a mutation asks room for before its first edit. -/
def needed (c : Mutation μ) (m : RegionMap μ) : ℕ := m.missing (RegionMap.ends (c.targets m))

variable [DecidableEq μ]

/-- The edits that a mutation makes, one after the other. -/
def edits (c : Mutation μ) (m : RegionMap μ) : List (Edit μ) :=
  RegionMap.editsEach c.effect.choice m (c.targets m)

omit [DecidableEq μ] in
/-- A run that was selected gets a side that is not selected. -/
lemma newSideBy_ne {c : Mutation μ} {selects : Side μ → Bool}
    {choose : Side μ → State × μ × Overwrite} (hc : c.effect = .parts selects choose)
    {s s' : Side μ} (hs : selects s = true) (hs' : selects s' = true) :
    RegionMap.newSideBy choose s ≠ s' := by
  have hagain := RegionMap.selects_again hc s s
  rw [← rewritten_eq, hc, Effect.rewritten, if_pos hs] at hagain
  rintro rfl
  rw [hs'] at hagain
  cases hagain

/-- A mutation that is carried out rewrites its runs, for which it has found room. -/
lemma of_apply_eq_ok (h : m.Represents f) {c : Mutation μ} (hok : c.apply m = .ok (d, m')) :
    c.first < .ofNat c.stop ∧ m.size + c.needed m ≤ Slots.limit ∧
      ∃ sum, (c.targets m).foldlM (RegionMap.assignRun c.effect.choice) (∅, m) = .ok (sum, m') := by
  obtain ⟨b, hvalid, hb, -⟩ := h.of_apply_eq_ok hok
  obtain ⟨b', hb', hab, hlen⟩ := hvalid.exists_stop
  rw [apply_valid hvalid m hb'] at hok
  obtain rfl : b' = .ofNat c.stop := by rw [← hb', UInt64.ofNat_toNat]
  exact ⟨hab, Effect.of_on_eq_ok h hab hlen hok⟩

/-- **A run to come starts at a boundary that stays** while the earlier runs are rewritten. -/
lemma start_stays (h : m.Represents f) {c : Mutation μ} (hok : c.apply m = .ok (d, m'))
    {earlier later : List (Run μ)} {r : Run μ} (hsplit : c.targets m = earlier ++ r :: later)
    (hearlier : earlier ≠ []) :
    r.start ∈ m.keys ∧
      Edit.drop r.start ∉ RegionMap.editsEach c.effect.choice m earlier := by
  obtain ⟨hab, -, sum, hfold⟩ := of_apply_eq_ok h hok
  rw [hsplit, List.foldlM_append] at hfold
  obtain ⟨answer, hfirst⟩ : ∃ answer,
      earlier.foldlM (RegionMap.assignRun c.effect.choice) (∅, m) = .ok answer := by
    cases hfirst : earlier.foldlM (RegionMap.assignRun c.effect.choice) (∅, m) with
    | error e =>
        rw [hfirst] at hfold
        cases hfold
    | ok answer => exact ⟨answer, rfl⟩
  rw [targets] at hsplit
  cases hc : c.effect with
  | whole state data mode =>
      -- one run has none before it
      rw [hc, Effect.targets, List.singleton_eq_append_iff] at hsplit
      simp [hearlier] at hsplit
  | parts selects choose =>
      rw [hc] at hfirst hsplit
      have htiles := h.tiles_segments hab
      have hshows := htiles.shows_filter fun r => selects r.side
      rw [Effect.targets] at hsplit
      have hmem : ∀ r' ∈ earlier ++ r :: later,
          r' ∈ m.segments c.first (.ofNat c.stop) ∧ selects r'.side = true := by
        intro r' hr'
        rwa [← hsplit, List.mem_filter] at hr'
      rw [hsplit] at hshows
      have hr := hmem r (by simp)
      refine ⟨?_, ?_⟩
      · have hlt := hshows.lt_start_of_append hearlier
        rcases (htiles.mem hr.1).2.2.1 with heq | hjump
        · exact absurd (heq ▸ hlt) (UInt64.lt_irrefl _)
        · exact (h.mem_keys_iff _).mpr hjump
      · refine h.drop_not_mem_editsEach hshows ?_ hfirst
        intro r' hr'
        exact newSideBy_ne hc (hmem r' (List.mem_append_left _ hr')).2 hr.2

end Mutation

namespace RegionMap

variable [Metadata μ] [DecidableEq μ]

/-- **A mutation stays within the room that it asks for.**  Every mutation that is carried out on a map
that mutations lead to asks room for two boundaries at most, and has it.  Its edits lead to the map that
it leaves; after any first few of them there are no more boundaries than before the mutation and those
asked for; and a run that is rewritten after others starts at a boundary that is there from before the
first edit until the turn of the run has come. -/
theorem rewrites_within_room (draws : Draws) (cs : List (Mutation μ)) (c : Mutation μ) {d : Deltas}
    {m' : RegionMap μ} (hok : c.apply ((empty draws).run cs) = .ok (d, m')) :
    let m := (empty draws).run cs
    c.needed m ≤ 2 ∧ m.room (c.needed m) = .ok () ∧
    (c.edits m).foldlM Edit.apply m.boundaries = .ok m'.boundaries ∧
    (∀ before, before <+: c.edits m → ∃ t, before.foldlM Edit.apply m.boundaries = .ok t ∧
      t.size ≤ m.size + c.needed m) ∧
    ∀ earlier r later, c.targets m = earlier ++ r :: later → earlier ≠ [] →
      editsEach c.effect.choice m earlier <+: c.edits m ∧
      ∀ before, before <+: editsEach c.effect.choice m earlier →
        ∃ t, before.foldlM Edit.apply m.boundaries = .ok t ∧ t.contains r.start = true := by
  intro m
  have h := (represents_empty draws).run cs
  obtain ⟨hab, room, sum, hfold⟩ := Mutation.of_apply_eq_ok h hok
  refine ⟨Effect.missing_targets_le h hab c.effect, ?_, foldlM_editsEach_of_eq_ok hfold, ?_, ?_⟩
  · rw [room_eq h.wellFormed, if_pos room]
  · intro before hbefore
    obtain ⟨t, hrun, hsize, -⟩ := editsEach_within h.wellFormed room hbefore
    exact ⟨t, hrun, hsize⟩
  · intro earlier r later hsplit hearlier
    obtain ⟨hstart, hnot⟩ := Mutation.start_stays h hok hsplit hearlier
    have hfirst : editsEach c.effect.choice m earlier <+: c.edits m := by
      rw [Mutation.edits, hsplit]
      exact editsEach_append_prefix _ _ _ _
    refine ⟨hfirst, ?_⟩
    intro before hbefore
    obtain ⟨t, hrun, -, hwf, hstay⟩ := editsEach_within h.wellFormed room (hbefore.trans hfirst)
    exact ⟨t, hrun, (hwf.contains_iff _).mpr (hstay _ hstart fun hdrop => hnot (hbefore.subset hdrop))⟩

/-- Two adjoining runs with different tags. -/
def twoTags : List (Mutation Attribution) :=
  [.commit 0x1000 0x2000 { tag := ⟨1⟩ } .replace, .commit 0x3000 0x1000 { tag := ⟨2⟩ } .replace]

/-- A third tag is given to the last half of one run and the first half of the next.  The boundary
between the two stays while the first is rewritten, and goes with the second. -/
theorem retag_across_within_room :
    let m := (empty (Draws.ofSeed defaultSeed)).run twoTags
    let c := Mutation.retag 0x1800 0x2000 ⟨5⟩
    ∃ first last d m', c.targets m = [first, last] ∧ last.start = 0x3000 ∧
      c.apply m = .ok (d, m') ∧ m.size = 3 ∧ c.needed m = 2 ∧ m'.size = 4 ∧
      (∀ before, before <+: editsEach c.effect.choice m [first] →
        ∃ t, before.foldlM Edit.apply m.boundaries = .ok t ∧ t.contains 0x3000 = true) ∧
      m'.boundaries.contains 0x3000 = false := by
  intro m c
  have htargets : c.targets m =
      [⟨0x1800, 0x3000, ⟨.committed, { tag := ⟨1⟩ }⟩⟩, ⟨0x3000, 0x3800, ⟨.committed, { tag := ⟨2⟩ }⟩⟩] := by
    decide +kernel
  have hanswer : (c.apply m).map (fun r => (r.2.size, r.2.boundaries.contains 0x3000)) =
      .ok (4, false) := by decide +kernel
  cases happly : c.apply m with
  | error e =>
      rw [happly] at hanswer
      cases hanswer
  | ok answer =>
      obtain ⟨d, m'⟩ := answer
      rw [happly] at hanswer
      obtain ⟨hsize, hgone⟩ := Prod.mk.inj (Except.ok.inj hanswer)
      obtain ⟨-, -, -, -, hlater⟩ :=
        rewrites_within_room (Draws.ofSeed defaultSeed) twoTags c happly
      obtain ⟨-, hstays⟩ := hlater [_] _ [] htargets (List.cons_ne_nil _ _)
      exact ⟨_, _, d, m', htargets, rfl, rfl, by decide +kernel, by decide +kernel, hsize, hstays,
        hgone⟩

end RegionMap

end RegionLedger
