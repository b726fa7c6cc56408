import RegionLedger.Proofs.Region.Canonical
import RegionLedger.Proofs.Region.Count

/-!
# Stretches of memory

Something is to be shown at some addresses: the side of tracked memory, or the tag and the mapping
of reservations.  The longest ranges that all show the same are its stretches.  They are determined
by what is shown at every address, and they come out of ascending pieces when each piece that
continues the one before is joined to it.

* `Stretch` — a range of addresses with what they show.
* `Pieces`, `Stretches` — ascending ranges that show everything, and those that are longest.
* `Stretches.mem_iff`, `Stretches.unique` — what is shown determines its stretches.
* `Stretch.gather`, `Pieces.gathered` — joining pieces gives the stretches.
* `RegionMap.Represents.shows_runs`, `RegionMap.Represents.pieces_runs` — the runs of a map show what
  is tracked.
-/

namespace RegionLedger

/-- A range of addresses that show the same. -/
structure Stretch (κ : Type) where
  /-- The first byte. -/
  start : Address
  /-- The byte after the last one. -/
  stop : Address
  /-- What the addresses show. -/
  shown : κ
deriving DecidableEq, Repr

variable {κ : Type} {v : Address → Option κ} {r r' : Stretch κ} {xs ys : List (Stretch κ)}
  {x : Address}

/-- The byte at `x` lies in the stretch. -/
def Stretch.Holds (r : Stretch κ) (x : Address) : Prop := r.start ≤ x ∧ x < r.stop

instance (r : Stretch κ) (x : Address) : Decidable (r.Holds x) :=
  inferInstanceAs (Decidable (_ ∧ _))

/-- The stretches have bytes, and one stands after the other. -/
structure Stretch.Ascending (xs : List (Stretch κ)) : Prop where
  nonempty : ∀ r ∈ xs, r.start < r.stop
  ascending : xs.Pairwise fun r r' => r.stop ≤ r'.start

/-- Ascending stretches that show, address by address, what `v` shows. -/
structure Pieces (v : Address → Option κ) (xs : List (Stretch κ)) : Prop
    extends Stretch.Ascending xs where
  shows_iff : ∀ x k, (∃ r ∈ xs, r.Holds x ∧ r.shown = k) ↔ v x = some k

/-- Ascending stretches that show what `v` shows, where no two that touch show the same. -/
structure Stretches (v : Address → Option κ) (xs : List (Stretch κ)) : Prop
    extends Pieces v xs where
  apart : ∀ r ∈ xs, ∀ r' ∈ xs, r.stop = r'.start → r.shown ≠ r'.shown

/-! ## What is shown determines its stretches -/

namespace Stretch

lemma Ascending.holds_start (h : Ascending xs) (hr : r ∈ xs) : r.Holds r.start :=
  ⟨UInt64.le_refl _, h.nonempty r hr⟩

lemma Ascending.tail (h : Ascending (r :: xs)) : Ascending xs :=
  ⟨fun r' hr' => h.nonempty r' (List.mem_cons_of_mem _ hr'), (List.pairwise_cons.mp h.ascending).2⟩

lemma Ascending.append (h : Ascending xs) (h' : Ascending ys)
    (hle : ∀ r ∈ xs, ∀ r' ∈ ys, r.stop ≤ r'.start) : Ascending (xs ++ ys) := by
  refine ⟨?_, List.pairwise_append.mpr ⟨h.ascending, h'.ascending, hle⟩⟩
  intro r hr
  rcases List.mem_append.mp hr with hr | hr
  · exact h.nonempty r hr
  · exact h'.nonempty r hr

/-- Of two stretches one stands in front of the other. -/
lemma Ascending.eq_or_le (h : Ascending xs) (hr : r ∈ xs) (hr' : r' ∈ xs) :
    r = r' ∨ r.stop ≤ r'.start ∨ r'.stop ≤ r.start := by
  induction xs with
  | nil => cases hr
  | cons q rest ih =>
      have hle := (List.pairwise_cons.mp h.ascending).1
      rcases List.mem_cons.mp hr with heq | hin
      · rcases List.mem_cons.mp hr' with heq' | hin'
        · exact .inl (heq.trans heq'.symm)
        · exact .inr (.inl (heq ▸ hle r' hin'))
      · rcases List.mem_cons.mp hr' with heq' | hin'
        · exact .inr (.inr (heq' ▸ hle r hin))
        · exact ih h.tail hin hin'

end Stretch

lemma Pieces.shown_eq (h : Pieces v xs) (hr : r ∈ xs) (hx : r.Holds x) : v x = some r.shown :=
  (h.shows_iff x r.shown).mp ⟨r, hr, hx, rfl⟩

lemma Pieces.exists_mem (h : Pieces v xs) {k : κ} (hk : v x = some k) :
    ∃ r ∈ xs, r.Holds x ∧ r.shown = k := (h.shows_iff x k).mpr hk

/-- A range shows one thing throughout and cannot be made longer. -/
structure Stretch.Longest (v : Address → Option κ) (r : Stretch κ) : Prop where
  nonempty : r.start < r.stop
  shown : ∀ x, r.Holds x → v x = some r.shown
  start : r.start ≠ 0 → v (r.start - 1) ≠ some r.shown
  stop : v r.stop ≠ some r.shown

/-- **The stretches are the longest ranges that show the same.** -/
theorem Stretches.mem_iff (h : Stretches v xs) : r ∈ xs ↔ r.Longest v := by
  have hlongest : ∀ r ∈ xs, r.Longest v := by
    intro r hr
    refine ⟨h.nonempty r hr, fun x hx => h.shown_eq hr hx, ?_, ?_⟩
    · intro hzero hsame
      obtain ⟨r', hr', hx, hshown⟩ := h.exists_mem hsame
      have hpos := h.nonempty r hr
      obtain ⟨_, _⟩ := hx
      rcases h.eq_or_le hr hr' with rfl | hle | hle
      · grind
      · grind
      · exact h.apart r' hr' r hr (by grind) hshown
    · intro hsame
      obtain ⟨r', hr', hx, hshown⟩ := h.exists_mem hsame
      have hpos := h.nonempty r hr
      obtain ⟨_, _⟩ := hx
      rcases h.eq_or_le hr hr' with rfl | hle | hle
      · grind
      · exact h.apart r hr r' hr' (by grind) hshown.symm
      · grind
  refine ⟨hlongest r, ?_⟩
  intro hr
  have hpos := hr.nonempty
  obtain ⟨q, hq, ⟨hle, hlt⟩, hshown⟩ :=
    h.exists_mem (hr.shown r.start ⟨UInt64.le_refl _, hr.nonempty⟩)
  have hqlong := hlongest q hq
  -- both are longest and share a byte, so neither end of one lies inside the other
  have hstart : q.start = r.start := by
    by_contra hne
    refine hr.start (by grind) ?_
    rw [← hshown]
    exact hqlong.shown _ ⟨by grind, by grind⟩
  have hstop : q.stop = r.stop := by
    by_contra hne
    by_cases hlt' : q.stop < r.stop
    · refine hqlong.stop ?_
      rw [hshown]
      exact hr.shown _ ⟨by grind, hlt'⟩
    · refine hr.stop ?_
      rw [← hshown]
      exact hqlong.shown _ ⟨by grind, by grind⟩
  have heq : q = r := by
    obtain ⟨_, _, _⟩ := q
    obtain ⟨_, _, _⟩ := r
    exact (Stretch.mk.injEq ..).mpr ⟨hstart, hstop, hshown⟩
  exact heq ▸ hq

/-- **What is shown determines its stretches.** -/
theorem Stretches.unique (h : Stretches v xs) (h' : Stretches v ys) : xs = ys := by
  -- along non-empty stretches the starts ascend
  have hstarts : ∀ {zs : List (Stretch κ)}, Stretches v zs →
      zs.Pairwise fun r r' => r.start < r'.start := by
    intro zs hzs
    refine hzs.ascending.imp_of_mem ?_
    intro r r' hr _ hle
    have hpos := hzs.nonempty r hr
    grind
  have hirrefl : Std.Irrefl fun r r' : Stretch κ => r.start < r'.start :=
    ⟨fun r => UInt64.lt_irrefl r.start⟩
  have hantisymm : Std.Antisymm fun r r' : Stretch κ => r.start < r'.start :=
    ⟨fun r r' hlt hgt => absurd (UInt64.lt_trans hlt hgt) (UInt64.lt_irrefl r.start)⟩
  refine (hstarts h).eq_of_mem_iff (hstarts h') ?_
  intro r
  rw [h.mem_iff, h'.mem_iff]

/-! ## Joining pieces -/

namespace Stretch

/-- Lengthens `current` by each piece that continues it, and starts anew with each that does not. -/
def gather [DecidableEq κ] (current : Stretch κ) : List (Stretch κ) → List (Stretch κ)
  | [] => [current]
  | r :: rest =>
    if current.stop = r.start ∧ current.shown = r.shown then
      gather { current with stop := r.stop } rest
    else current :: gather r rest

/-- The pieces joined. -/
def gathered [DecidableEq κ] : List (Stretch κ) → List (Stretch κ)
  | [] => []
  | first :: rest => gather first rest

variable [DecidableEq κ] {current : Stretch κ}

/-- The first stretch starts where the first piece does and shows the same. -/
lemma gather_eq_cons (current : Stretch κ) (xs : List (Stretch κ)) :
    ∃ stop rest, gather current xs = ⟨current.start, stop, current.shown⟩ :: rest := by
  induction xs generalizing current with
  | nil => exact ⟨_, _, rfl⟩
  | cons r xs ih =>
      rw [gather]
      split_ifs
      · exact ih _
      · exact ⟨_, _, rfl⟩

omit [DecidableEq κ] in
/-- A piece that continues the one before can be joined to it. -/
lemma Ascending.join (h : Ascending (current :: r :: xs)) (htouch : current.stop = r.start) :
    Ascending ({ current with stop := r.stop } :: xs) := by
  obtain ⟨hfirst, hrest⟩ := List.pairwise_cons.mp h.ascending
  obtain ⟨hsecond, hrest⟩ := List.pairwise_cons.mp hrest
  have hcurrent := h.nonempty current List.mem_cons_self
  have hr := h.nonempty r (by simp)
  refine ⟨?_, List.pairwise_cons.mpr ⟨hsecond, hrest⟩⟩
  intro q hq
  rcases List.mem_cons.mp hq with rfl | hq
  · show current.start < r.stop
    grind
  · exact h.nonempty q (by simp [hq])

/-- Joining keeps what is shown. -/
lemma Ascending.shows_gather (h : Ascending (current :: xs)) (x : Address) (k : κ) :
    (∃ r ∈ gather current xs, r.Holds x ∧ r.shown = k) ↔
      ∃ r ∈ current :: xs, r.Holds x ∧ r.shown = k := by
  induction xs generalizing current with
  | nil => rfl
  | cons r xs ih =>
      have hcurrent := h.nonempty current List.mem_cons_self
      have hr := h.nonempty r (by simp)
      rw [gather]
      split_ifs with hjoin
      · rw [ih (h.join hjoin.1)]
        simp only [List.mem_cons, exists_eq_or_imp, Holds]
        grind
      · simp only [List.mem_cons, exists_eq_or_imp]
        rw [ih h.tail]
        simp only [List.mem_cons, exists_eq_or_imp]

lemma Ascending.gather (h : Ascending (current :: xs)) : Ascending (gather current xs) := by
  induction xs generalizing current with
  | nil => exact h
  | cons r xs ih =>
      rw [Stretch.gather]
      split_ifs with hjoin
      · exact ih (h.join hjoin.1)
      · have hnext := ih h.tail
        refine ⟨?_, List.pairwise_cons.mpr ⟨?_, hnext.ascending⟩⟩
        · intro q hq
          rcases List.mem_cons.mp hq with rfl | hq
          · exact h.nonempty _ List.mem_cons_self
          · exact hnext.nonempty q hq
        · intro q hq
          -- the first byte of a stretch lies in one of the pieces
          obtain ⟨r', hr', hx, _⟩ :=
            (h.tail.shows_gather q.start q.shown).mp ⟨q, hq, hnext.holds_start hq, rfl⟩
          have hle := (List.pairwise_cons.mp h.ascending).1 r' hr'
          exact UInt64.le_trans hle hx.1

/-- Two stretches that touch do not show the same. -/
lemma Ascending.apart_gather (h : Ascending (current :: xs)) :
    ∀ r ∈ Stretch.gather current xs, ∀ r' ∈ Stretch.gather current xs, r.stop = r'.start →
      r.shown ≠ r'.shown := by
  induction xs generalizing current with
  | nil =>
      intro r hr r' hr' htouch
      obtain rfl := List.mem_singleton.mp hr
      obtain rfl := List.mem_singleton.mp hr'
      have hpos := h.nonempty _ List.mem_cons_self
      grind
  | cons r xs ih =>
      have hall := h.gather
      rw [Stretch.gather] at hall ⊢
      split_ifs at hall ⊢ with hjoin
      · exact ih (h.join hjoin.1)
      · intro q hq q' hq' htouch
        have hqpos := hall.nonempty q hq
        have hqpos' := hall.nonempty q' hq'
        obtain ⟨stop, rest, hcons⟩ := gather_eq_cons r xs
        rw [hcons] at hq hq' hall
        have hfirst := (List.pairwise_cons.mp hall.ascending).1
        have hsecond := (List.pairwise_cons.mp (List.pairwise_cons.mp hall.ascending).2).1
        have hr := hall.nonempty ⟨r.start, stop, r.shown⟩ (by simp)
        rcases List.mem_cons.mp hq with rfl | hin
        · rcases List.mem_cons.mp hq' with rfl | hin'
          · grind
          · rcases List.mem_cons.mp hin' with rfl | hin'
            · exact fun hshown => hjoin ⟨htouch, hshown⟩
            · have hle := hsecond q' hin'
              have hle' := hfirst ⟨r.start, stop, r.shown⟩ List.mem_cons_self
              grind
        · rcases List.mem_cons.mp hq' with rfl | hin'
          · have hle := hfirst q hin
            grind
          · exact ih h.tail q (hcons ▸ hin) q' (hcons ▸ hin') htouch

end Stretch

/-- **Joining pieces gives the stretches.** -/
theorem Pieces.gathered [DecidableEq κ] (h : Pieces v xs) : Stretches v (Stretch.gathered xs) := by
  cases xs with
  | nil => exact ⟨h, fun r hr => by cases hr⟩
  | cons first rest =>
      refine ⟨⟨h.toAscending.gather, ?_⟩, h.toAscending.apart_gather⟩
      intro x k
      exact (h.toAscending.shows_gather x k).trans (h.shows_iff x k)

/-! ## Every byte once -/

namespace Stretch

/-- The stretches that hold the byte at `x`. -/
def holding (xs : List (Stretch κ)) (x : Address) : List (Stretch κ) :=
  xs.filter fun r => r.Holds x

lemma mem_holding : r ∈ holding xs x ↔ r ∈ xs ∧ r.Holds x := by
  rw [holding, List.mem_filter, decide_eq_true_iff]

lemma holding_cons (r : Stretch κ) (xs : List (Stretch κ)) (x : Address) :
    holding (r :: xs) x = if r.Holds x then r :: holding xs x else holding xs x := by
  simp only [holding, List.filter_cons, decide_eq_true_eq]

/-- A byte lies in at most one stretch. -/
lemma Ascending.length_holding_le (h : Ascending xs) (x : Address) : (holding xs x).length ≤ 1 := by
  induction xs with
  | nil => exact Nat.zero_le 1
  | cons r xs ih =>
      rw [holding_cons]
      split_ifs with hx
      · have hnone : holding xs x = [] := by
          refine List.eq_nil_iff_forall_not_mem.mpr ?_
          intro r' hr'
          obtain ⟨hr', hx'⟩ := mem_holding.mp hr'
          have hle := (List.pairwise_cons.mp h.ascending).1 r' hr'
          obtain ⟨_, _⟩ := hx
          obtain ⟨_, _⟩ := hx'
          grind
        rw [hnone, List.length_singleton]
      · exact ih h.tail

/-- The length in bytes. -/
def length (r : Stretch κ) : ℕ := r.stop.toNat - r.start.toNat

/-- **The lengths add up to the number of bytes**, if no byte lies in two of the stretches. -/
theorem sum_length (hxs : ∀ x, (holding xs x).length ≤ 1) :
    (xs.map length).sum = {x | ∃ r ∈ xs, r.Holds x}.ncard := by
  induction xs with
  | nil => simp
  | cons r xs ih =>
      have htail : ∀ x, (holding xs x).length ≤ 1 := by
        intro x
        have hle := hxs x
        rw [holding_cons] at hle
        split_ifs at hle
        · rw [List.length_cons] at hle
          omega
        · exact hle
      have hapart : ∀ x, r.Holds x → ¬ ∃ r' ∈ xs, r'.Holds x := by
        rintro x hx ⟨r', hr', hx'⟩
        have hle := hxs x
        rw [holding_cons, if_pos hx, List.length_cons] at hle
        have hpos := List.length_pos_of_mem (mem_holding.mpr ⟨hr', hx'⟩)
        omega
      rw [List.map_cons, List.sum_cons, ih htail,
        Bytes.ncard_add r.Holds fun x => ∃ r' ∈ r :: xs, r'.Holds x, length, ← ncard_range]
      congr 2 <;> ext x <;> simp only [Set.mem_ofPred_eq, List.mem_cons, exists_eq_or_imp]
      · exact ⟨fun hx => ⟨hx, .inl hx⟩, fun hx => hx.1⟩
      · exact ⟨fun hx => ⟨fun hr => hapart x hr hx, .inr hx⟩, fun hx => hx.2.resolve_left hx.1⟩

end Stretch

/-- **A byte lies in one piece, which shows what the byte shows, or in none.** -/
theorem Pieces.map_shown_holding (h : Pieces v xs) (x : Address) :
    (Stretch.holding xs x).map Stretch.shown = (v x).toList := by
  have hshown : ∀ r ∈ Stretch.holding xs x, v x = some r.shown := fun r hr =>
    h.shown_eq (Stretch.mem_holding.mp hr).1 (Stretch.mem_holding.mp hr).2
  have hle := h.length_holding_le x
  rcases hholding : Stretch.holding xs x with _ | ⟨r, _ | ⟨r', rest⟩⟩
  · have hnone : v x = none := by
      refine Option.eq_none_iff_forall_ne_some.mpr ?_
      intro k hk
      obtain ⟨r, hr, hx, _⟩ := h.exists_mem hk
      have hin := Stretch.mem_holding.mpr ⟨hr, hx⟩
      rw [hholding] at hin
      cases hin
    rw [hnone]
    rfl
  · rw [hshown r (by rw [hholding]; exact List.mem_singleton_self r)]
    rfl
  · rw [hholding, List.length_cons, List.length_cons] at hle
    omega

/-- **The bytes of some of the stretches**, if every byte lies once in a stretch that shows what the
byte shows. -/
theorem Stretch.sum_length_filter
    (hxs : ∀ x, (holding xs x).map Stretch.shown = (v x).toList) (q : κ → Bool) :
    ((xs.filter fun r => q r.shown).map length).sum = {x | ∃ k ∈ v x, q k = true}.ncard := by
  rw [sum_length]
  · congr 1
    ext x
    simp only [Set.mem_ofPred_eq, List.mem_filter]
    have hmem : ∀ k, k ∈ v x ↔ ∃ r ∈ xs, r.Holds x ∧ r.shown = k := by
      intro k
      have htoList : k ∈ v x ↔ k ∈ (v x).toList := Option.mem_toList.symm
      rw [htoList, ← hxs x, List.mem_map]
      simp only [mem_holding, and_assoc]
    simp only [hmem]
    constructor
    · rintro ⟨r, ⟨hr, hq⟩, hx⟩
      exact ⟨r.shown, ⟨r, hr, hx, rfl⟩, hq⟩
    · rintro ⟨_, ⟨r, hr, hx, rfl⟩, hq⟩
      exact ⟨r, ⟨hr, hq⟩, hx⟩
  · intro x
    have hle : (holding xs x).length ≤ 1 := by
      rw [← List.length_map Stretch.shown, hxs]
      cases v x <;> simp
    refine Nat.le_trans (List.Sublist.length_le ?_) hle
    exact List.filter_sublist.filter _

/-! ## The runs of a map -/

section Runs

variable {μ : Type} {f : Bytes μ} {a b : Address} {runs : List (Run μ)}

/-- The stretch of a run, which shows what `g` makes of its side. -/
def Run.stretch (g : Side μ → κ) (r : Run μ) : Stretch κ := ⟨r.start, r.stop, g r.side⟩

/-- What a byte of a side shows, if it is selected. -/
def Side.shows (p : Side μ → Bool) (g : Side μ → κ) (s : Side μ) : Option κ :=
  if p s then some (g s) else none

lemma Side.shows_eq_some_iff {p : Side μ → Bool} {g : Side μ → κ} {s : Side μ} {k : κ} :
    s.shows p g = some k ↔ p s = true ∧ g s = k := by
  rw [Side.shows]
  split_ifs with hp <;> simp [hp]

namespace Bytes

lemma Shows.filter (h : f.Shows b a runs) (p : Run μ → Bool) : f.Shows b a (runs.filter p) := by
  induction h with
  | nil => exact .nil
  | cons hstart hlt hstop same tail ih =>
      rw [List.filter_cons]
      split_ifs
      · exact .cons hstart hlt hstop same ih
      · exact ih.mono (by grind)

lemma Shows.ascending_map (h : f.Shows b a runs) (g : Side μ → κ) :
    Stretch.Ascending (runs.map (Run.stretch g)) := by
  induction h with
  | nil => exact ⟨fun r hr => absurd hr List.not_mem_nil, List.Pairwise.nil⟩
  | cons hstart hlt hstop same tail ih =>
      refine ⟨?_, List.pairwise_cons.mpr ⟨?_, ih.ascending⟩⟩
      · intro q hq
        rcases List.mem_cons.mp hq with rfl | hq
        · exact hlt
        · exact ih.nonempty q hq
      · intro q hq
        obtain ⟨r', hr', rfl⟩ := List.mem_map.mp hq
        exact tail.le_start_of_mem hr'

/-- Runs of selected sides that cover all bytes of such sides show what the bytes show. -/
lemma Shows.pieces (h : f.Shows b a runs) {p : Side μ → Bool} (g : Side μ → κ)
    (hcover : ∀ x, (∃ r ∈ runs, r.start ≤ x ∧ x < r.stop) ↔ p (f x) = true) :
    Pieces (fun x => (f x).shows p g) (runs.map (Run.stretch g)) := by
  refine ⟨h.ascending_map g, ?_⟩
  intro x k
  rw [Side.shows_eq_some_iff, ← hcover]
  constructor
  · rintro ⟨q, hq, hx, rfl⟩
    obtain ⟨r, hr, rfl⟩ := List.mem_map.mp hq
    exact ⟨⟨r, hr, hx⟩, congrArg g (h.same_of_mem hr x hx.1 hx.2)⟩
  · rintro ⟨⟨r, hr, hx⟩, rfl⟩
    exact ⟨r.stretch g, List.mem_map_of_mem hr, hx, congrArg g (h.same_of_mem hr x hx.1 hx.2).symm⟩

end Bytes

variable [Metadata μ] {m : RegionMap μ}

lemma RegionMap.runs_of_points_eq_nil (hpts : m.points = []) : m.runs = [] := by
  rw [runs, Treap.min?_eq, Treap.max?_eq, ← points, hpts]
  rfl

lemma RegionMap.runs_of_points_eq_cons {p q : Address × Boundary μ}
    {rest : List (Address × Boundary μ)} (hpts : m.points = p :: rest)
    (hq : (p :: rest).getLast? = some q) : m.runs = m.runsIn p.1 q.1 := by
  rw [runs, Treap.min?_eq, Treap.max?_eq, ← points, hpts, hq]
  rfl

namespace RegionMap.Represents

lemma eq_released_of_points_eq_nil (h : m.Represents f) (hpts : m.points = []) (x : Address) :
    f x = .released := by
  refine Bytes.eq_released_of_forall_not_jumps ?_
  intro z _ hjump
  have hin := h.mem_points_of_jumps hjump
  rw [hpts] at hin
  cases hin

lemma eq_released_of_lt_head (h : m.Represents f) {p : Address × Boundary μ}
    (hp : m.points.head? = some p) {x : Address} (hx : x < p.1) : f x = .released := by
  refine Bytes.eq_released_of_forall_not_jumps ?_
  intro z hz
  refine h.not_jumps_between (List.nil_append _).symm (by simp) ?_
  intro q hq
  rw [hp] at hq
  rw [← Option.mem_some_iff.mp hq]
  grind

lemma eq_released_of_getLast_le (h : m.Represents f) {p : Address × Boundary μ}
    (hp : m.points.getLast? = some p) {x : Address} (hx : p.1 ≤ x) : f x = .released := by
  have hlast : f lastAddress = f x := by
    refine Bytes.eq_of_forall_not_jumps (le_lastAddress x) ?_
    intro z hz _
    refine h.not_jumps_between (List.append_nil _).symm ?_ (by simp)
    intro q hq
    rw [hp] at hq
    rw [← Option.mem_some_iff.mp hq]
    grind
  rw [← hlast, h.last_released]

/-- The runs of a map are those of a range outside of which all memory is released. -/
lemma exists_runs_eq (h : m.Represents f) :
    ∃ a b, m.runs = m.runsIn a b ∧ ∀ x, ¬ (a ≤ x ∧ x < b) → f x = .released := by
  cases hpts : m.points with
  | nil =>
      refine ⟨0, 0, (runs_of_points_eq_nil hpts).trans ?_, ?_⟩
      · rw [runsIn, segments, if_neg (UInt64.lt_irrefl 0), List.filter_nil]
      · intro x _
        exact h.eq_released_of_points_eq_nil hpts x
  | cons p rest =>
      obtain ⟨q, hq⟩ : ∃ q, (p :: rest).getLast? = some q := ⟨_, List.getLast?_cons⟩
      refine ⟨p.1, q.1, runs_of_points_eq_cons hpts hq, ?_⟩
      intro x hx
      by_cases hlt : x < p.1
      · exact h.eq_released_of_lt_head (by rw [hpts]; rfl) hlt
      · exact h.eq_released_of_getLast_le (by rw [hpts]; exact hq) (by grind)

/-- **The runs of a map** are ascending and cover the tracked bytes. -/
theorem shows_runs (h : m.Represents f) :
    (∃ a b, f.Shows b a m.runs) ∧
      ∀ x, (∃ r ∈ m.runs, r.start ≤ x ∧ x < r.stop) ↔ (f x).state.isReserved = true := by
  obtain ⟨a, b, hruns, hout⟩ := h.exists_runs_eq
  have hin : ∀ x, (f x).state.isReserved = true → a ≤ x ∧ x < b := by
    intro x hx
    by_contra hnot
    rw [hout x hnot] at hx
    exact Bool.false_ne_true hx
  rw [hruns, runsIn]
  by_cases hab : a < b
  · have htiles := h.tiles_segments hab
    refine ⟨⟨_, _, htiles.shows_filter _⟩, ?_⟩
    intro x
    refine (htiles.exists_mem_filter_iff (·.state.isReserved) x).trans ?_
    exact ⟨fun hx => hx.2, fun hx => ⟨hin x hx, hx⟩⟩
  · rw [segments, if_neg hab]
    refine ⟨⟨0, 0, .nil⟩, ?_⟩
    intro x
    have hnone : ¬ (f x).state.isReserved = true := fun hx => by grind
    simp [hnone]

/-- **Selected runs** show what the selected bytes show. -/
theorem pieces_runs (h : m.Represents f) {p : Side μ → Bool}
    (hp : ∀ s, p s = true → s.state.isReserved = true) (g : Side μ → κ) :
    Pieces (fun x => (f x).shows p g) ((m.runs.filter fun r => p r.side).map (Run.stretch g)) := by
  obtain ⟨⟨_, _, hshows⟩, hcover⟩ := h.shows_runs
  refine (hshows.filter _).pieces g ?_
  intro x
  constructor
  · rintro ⟨r, hr, hx⟩
    obtain ⟨hr, hside⟩ := List.mem_filter.mp hr
    rwa [hshows.same_of_mem hr x hx.1 hx.2]
  · intro hside
    obtain ⟨r, hr, hx⟩ := (hcover x).mpr (hp _ hside)
    refine ⟨r, List.mem_filter.mpr ⟨hr, ?_⟩, hx⟩
    rwa [← hshows.same_of_mem hr x hx.1 hx.2]

end RegionMap.Represents

end Runs

end RegionLedger
