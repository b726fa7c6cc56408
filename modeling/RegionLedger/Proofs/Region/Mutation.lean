import Mathlib.Algebra.Order.Ring.Int
import RegionLedger.Proofs.Region.Several

/-!
# Mutations

There are six ways to change a region map.  All check their range in the same way; then they give
one side to the whole range, or a side of its own to each run of some sides in it.

* `Mutation` — the six mutations with their arguments; `Mutation.apply` carries one out.
* `Mutation.Valid` — the range is not empty, not longer than the longest span, and ends at an
  address; `Mutation.apply_invalid` and `Mutation.apply_valid` are the two cases.
* `Effect` — what a mutation does to a valid range.
* `RegionMap.Represents.effect_answers` — the answers to a mutation of a valid range.
* `RegionMap.step`, `RegionMap.run` — mutations one after the other; a refused one changes nothing.
-/

namespace RegionLedger

/-- A mutation of a region map. -/
inductive Mutation (μ : Type) where
  /-- Marks a range reserved. -/
  | reserve (start : Address) (size : UInt64) (data : μ)
  /-- Marks a range committed. -/
  | commit (start : Address) (size : UInt64) (data : μ) (mode : Overwrite)
  /-- Turns the committed parts of a range back into reserved memory. -/
  | uncommit (start : Address) (size : UInt64) (data : μ)
  /-- Marks a range released. -/
  | release (start : Address) (size : UInt64)
  /-- Books the tracked parts of a range under a tag. -/
  | retag (start : Address) (size : UInt64) (tag : Tag)
  /-- Gives a range any state and metadata. -/
  | assign (first stop : Address) (state : State) (data : μ) (mode : Overwrite)

/-- What a mutation does to its range. -/
inductive Effect (μ : Type) where
  /-- The whole range gets one side. -/
  | whole (state : State) (data : μ) (mode : Overwrite)
  /-- Each run of a selected side gets the side chosen for it. -/
  | parts (selects : Side μ → Bool) (choose : Side μ → State × μ × Overwrite)

variable {μ : Type} [Metadata μ]

/-! ## Effects -/

namespace Effect

variable [DecidableEq μ]

/-- Carries out the effect on the range from `a` to `b`. -/
def on (m : RegionMap μ) (a b : Address) : Effect μ → Except RegionError (Deltas × RegionMap μ)
  | whole state data mode => m.assign a b state data mode
  | parts selects choose =>
      m.assignEach ((m.segments a b).filter fun r => selects r.side) choose

/-- What becomes of the side `here` in a range that starts with the side `found`. -/
def rewritten (found here : Side μ) : Effect μ → Side μ
  | whole state data mode => RegionMap.newSide found state data mode
  | parts selects choose => if selects here then RegionMap.newSideBy choose here else here

/-- The bytes after the effect on the range from `a` to `b`. -/
def write (f : Bytes μ) (a b : Address) (e : Effect μ) : Bytes μ := fun x =>
  if a ≤ x ∧ x < b then e.rewritten (f a) (f x) else f x

omit [DecidableEq μ] in
/-- An effect makes no new jumps inside its range. -/
lemma jumps_of_jumps_write {e : Effect μ} {f : Bytes μ} {a b x : Address}
    (h : (e.write f a b).Jumps x) : x = a ∨ x = b ∨ f.Jumps x := by
  by_contra hne
  simp only [not_or, Bytes.Jumps, not_not] at hne
  obtain ⟨hxa, hxb, hsame⟩ := hne
  refine h ?_
  rw [Bytes.before] at hsame ⊢
  unfold write
  split_ifs at hsame ⊢ with hzero hin hin' hin''
  · grind
  · exact hsame
  · rw [hsame]
  · grind
  · grind
  · exact hsame

end Effect

/-- **The answers to a mutation of a valid range.**  It is carried out, unless two more boundaries
than there are do not fit. -/
theorem RegionMap.Represents.effect_answers [DecidableEq μ] {m : RegionMap μ} {f : Bytes μ}
    {a b : Address} (h : m.Represents f) (hab : a < b) (hlen : b - a ≤ maxSpan) (e : Effect μ) :
    (∃ d m', e.on m a b = .ok (d, m') ∧ m'.Represents (e.write f a b)) ∨
      e.on m a b = .error (.outOfMemory .outOfSlots) ∧ Slots.limit < m.size + 2 := by
  cases e with
  | whole state data mode =>
      by_cases room : m.size + m.missing [a, b] ≤ Slots.limit
      · obtain ⟨m', hassign, h'⟩ := h.assign_ok state data mode hab hlen room
        exact .inl ⟨_, m', hassign, h'⟩
      · refine .inr ⟨h.assign_full state data mode hab hlen (by omega), ?_⟩
        have hle : m.missing [a, b] ≤ 2 := List.length_filter_le _ _
        omega
  | parts selects choose =>
      have htiles := h.tiles_segments hab
      have hshows := htiles.shows_filter fun r => selects r.side
      by_cases room : m.size +
          m.missing (ends ((m.segments a b).filter fun r => selects r.side)) ≤ Slots.limit
      · obtain ⟨d, m', hassign, h', -, -⟩ :=
          h.assignEach_ok hshows (toNat_sub_le hab hlen) choose room
        refine .inl ⟨d, m', hassign, ?_⟩
        have hwrite : f.overwriteEach (newSideBy choose)
            ((m.segments a b).filter fun r => selects r.side) =
              (Effect.parts selects choose).write f a b := by
          funext x
          rw [hshows.overwriteEach_apply]
          simp only [htiles.exists_mem_filter_iff selects x, Effect.write, Effect.rewritten]
          by_cases hin : a ≤ x ∧ x < b
          · simp only [hin, and_self, true_and, if_true]
          · simp only [hin, false_and, if_false]
        rwa [hwrite] at h'
      · refine .inr ⟨h.assignEach_full choose (by omega), ?_⟩
        have hle := missing_ends_le h htiles fun r => selects r.side
        have ha : m.missing [a] ≤ 1 := List.length_filter_le _ _
        have hb : m.missing [b] ≤ 1 := List.length_filter_le _ _
        omega

/-! ## Mutations and their ranges -/

namespace Mutation

/-- The first byte of the range. -/
def first : Mutation μ → Address
  | reserve start .. | commit start .. | uncommit start .. | release start _ | retag start .. => start
  | assign first .. => first

/-- The length that is named if the range is refused. -/
def size : Mutation μ → UInt64
  | reserve _ size _ | commit _ size .. | uncommit _ size _ | release _ size | retag _ size _ => size
  | assign first stop .. => stop - first

/-- The number after that of the last byte, which need not be an address. -/
def stop : Mutation μ → ℕ
  | assign _ stop .. => stop.toNat
  | c => c.first.toNat + c.size.toNat

/-- The range is not empty, not longer than `2 ^ 63 - 1` bytes, and ends at an address. -/
def Valid (c : Mutation μ) : Prop :=
  c.first.toNat < c.stop ∧ c.stop - c.first.toNat ≤ 2 ^ 63 - 1 ∧ c.stop < 2 ^ 64

instance (c : Mutation μ) : Decidable c.Valid := inferInstanceAs (Decidable (_ ∧ _ ∧ _))

/-- What the mutation does to its range. -/
def effect : Mutation μ → Effect μ
  | reserve _ _ data => .whole .reserved data .replace
  | commit _ _ data mode => .whole .committed data mode
  | uncommit _ _ data => .parts (fun s => s.state.isCommitted) fun _ => (.reserved, data, .adopt)
  | release .. => .whole .released Metadata.empty .replace
  | retag _ _ tag => .parts (fun s => s.state.isReserved && s.tag != tag) fun s =>
      (s.state, Metadata.withTag s.data tag, .replace)
  | assign _ _ state data mode => .whole state data mode

variable [DecidableEq μ]

/-- Carries out a mutation. -/
def apply (m : RegionMap μ) : Mutation μ → Except RegionError (Deltas × RegionMap μ)
  | reserve start size data => m.reserve start size data
  | commit start size data mode => m.commit start size data mode
  | uncommit start size data => m.uncommit start size data
  | release start size => m.release start size
  | retag start size tag => m.retag start size tag
  | assign first stop state data mode => m.assign first stop state data mode

/-- The end of the range as far as it is checked first: a range given by its two ends is checked by
the assignment itself. -/
def checkedStop : Mutation μ → Except RegionError Address
  | assign _ stop .. => .ok stop
  | c => RegionMap.rangeEnd c.first c.size

lemma apply_eq (c : Mutation μ) (m : RegionMap μ) :
    c.apply m = c.checkedStop >>= fun b => c.effect.on m c.first b := by
  cases c <;> rfl

omit [Metadata μ] [DecidableEq μ] in
/-- The end of a valid range is an address, and within the longest span. -/
lemma Valid.exists_stop {c : Mutation μ} (hc : c.Valid) :
    ∃ b : Address, b.toNat = c.stop ∧ c.first < b ∧ b - c.first ≤ maxSpan := by
  obtain ⟨hlt, hlen, hstop⟩ := hc
  refine ⟨.ofNat c.stop, UInt64.toNat_ofNat_of_lt' hstop, ?_⟩
  have hb : (UInt64.ofNat c.stop).toNat = c.stop := UInt64.toNat_ofNat_of_lt' hstop
  have hab : c.first < .ofNat c.stop := by
    rw [UInt64.lt_iff_toNat_lt, hb]
    exact hlt
  refine ⟨hab, ?_⟩
  rw [UInt64.le_iff_toNat_le, UInt64.toNat_sub_of_le _ _ (UInt64.le_of_lt hab), hb]
  exact hlen

/-- A length is refused if it is zero or beyond the longest span. -/
lemma size_invalid_iff (size : UInt64) :
    (size = 0 ∨ maxSpan < size) ↔ ¬ (0 < size.toNat ∧ size.toNat ≤ 2 ^ 63 - 1) := by
  rw [UInt64.lt_iff_toNat_lt, ← UInt64.toNat_inj]
  simp only [maxSpan, UInt64.reduceToNat]
  omega

lemma rangeEnd_invalid {start : Address} {size : UInt64} (h : ¬ (0 < size.toNat ∧
    size.toNat ≤ 2 ^ 63 - 1 ∧ start.toNat + size.toNat < 2 ^ 64)) :
    RegionMap.rangeEnd start size = .error (.invalidRange start size) := by
  rw [RegionMap.rangeEnd]
  simp only [size_invalid_iff]
  split_ifs with hsize
  · have hend : ¬ start.toNat + size.toNat < UInt64.size := by
      intro hlt
      exact h ⟨hsize.1, hsize.2, hlt⟩
    rw [endOf?, if_neg hend]
  · rfl

lemma rangeEnd_valid {start stop : Address} {size : UInt64} (hpos : 0 < size.toNat)
    (hlen : size.toNat ≤ 2 ^ 63 - 1) (hstop : stop.toNat = start.toNat + size.toNat) :
    RegionMap.rangeEnd start size = .ok stop := by
  have hlt := stop.toNat_lt
  rw [RegionMap.rangeEnd]
  simp only [size_invalid_iff]
  rw [hstop] at hlt
  have hsum : start + size = stop := by
    rw [← UInt64.toNat_inj, UInt64.toNat_add, hstop]
    exact Nat.mod_eq_of_lt hlt
  rw [if_neg (not_not_intro ⟨hpos, hlen⟩), endOf?, if_pos hlt, hsum]

/-- **A mutation of an invalid range is refused.** -/
theorem apply_invalid {c : Mutation μ} (hc : ¬ c.Valid) (m : RegionMap μ) :
    c.apply m = .error (.invalidRange c.first c.size) := by
  rw [apply_eq]
  cases c with
  | assign a b state data mode =>
      refine RegionMap.assign_invalid state data mode ?_
      rintro ⟨hlt, hlen⟩
      refine hc ?_
      rw [UInt64.le_iff_toNat_le, UInt64.toNat_sub_of_le _ _ (UInt64.le_of_lt hlt)] at hlen
      exact ⟨hlt, hlen, b.toNat_lt⟩
  | _ start size =>
      have hstop : RegionMap.rangeEnd start size = .error (.invalidRange start size) := by
        refine rangeEnd_invalid ?_
        intro h
        refine hc ?_
        simp only [Valid, first, stop, Mutation.size]
        omega
      simp only [checkedStop, first, Mutation.size, hstop]
      rfl

omit [Metadata μ] [DecidableEq μ] in
lemma Valid.checkedStop_eq {c : Mutation μ} (hc : c.Valid) {b : Address} (hb : b.toNat = c.stop) :
    c.checkedStop = .ok b := by
  obtain ⟨hlt, hlen, hstop⟩ := hc
  cases c with
  | assign a b' state data mode =>
      rw [UInt64.toNat_inj.mp hb]
      rfl
  | _ start size =>
      show RegionMap.rangeEnd start size = .ok b
      simp only [first, stop, Mutation.size] at hlt hlen hb
      exact rangeEnd_valid (by omega) (by omega) hb

/-- **A mutation of a valid range has its effect on it.** -/
theorem apply_valid {c : Mutation μ} (hc : c.Valid) (m : RegionMap μ) {b : Address}
    (hb : b.toNat = c.stop) : c.apply m = c.effect.on m c.first b := by
  rw [apply_eq, hc.checkedStop_eq hb]
  rfl

end Mutation

/-! ## Runs of mutations -/

namespace RegionMap

variable [DecidableEq μ]

/-- The map after a mutation.  A refused one leaves it as it is. -/
def step (m : RegionMap μ) (c : Mutation μ) : RegionMap μ :=
  match c.apply m with
  | .ok (_, m') => m'
  | .error _ => m

/-- The map after several mutations. -/
def run (m : RegionMap μ) (cs : List (Mutation μ)) : RegionMap μ := cs.foldl step m

/-- A mutation is refused for want of memory. -/
def starves (m : RegionMap μ) (c : Mutation μ) : Bool :=
  match c.apply m with
  | .error (.outOfMemory _) => true
  | _ => false

/-- The mutations of a run that are not refused for want of memory. -/
def served (m : RegionMap μ) : List (Mutation μ) → List (Mutation μ)
  | [] => []
  | c :: cs => if m.starves c then served m cs else c :: served (m.step c) cs

variable {m : RegionMap μ} {f : Bytes μ}

lemma Represents.apply_cases (h : m.Represents f) (c : Mutation μ) :
    (¬ c.Valid ∧ c.apply m = .error (.invalidRange c.first c.size)) ∨
    (∃ b d m', c.Valid ∧ b.toNat = c.stop ∧ c.first < b ∧ b - c.first ≤ maxSpan ∧
      c.apply m = .ok (d, m') ∧
      m'.Represents (c.effect.write f c.first b)) ∨
    (c.Valid ∧ c.apply m = .error (.outOfMemory .outOfSlots) ∧ Slots.limit < m.size + 2) := by
  by_cases hc : c.Valid
  · obtain ⟨b, hb, hab, hlen⟩ := hc.exists_stop
    rw [Mutation.apply_valid hc m hb]
    rcases h.effect_answers hab hlen c.effect with ⟨d, m', happly, h'⟩ | hfull
    · exact .inr (.inl ⟨b, d, m', hc, hb, hab, hlen, happly, h'⟩)
    · exact .inr (.inr ⟨hc, hfull⟩)
  · exact .inl ⟨hc, Mutation.apply_invalid hc m⟩

/-- What it means that a mutation is carried out. -/
lemma Represents.of_apply_eq_ok (h : m.Represents f) {c : Mutation μ} {d : Deltas}
    {m' : RegionMap μ} (hok : c.apply m = .ok (d, m')) :
    ∃ b : Address, c.Valid ∧ b.toNat = c.stop ∧ m'.Represents (c.effect.write f c.first b) := by
  rcases h.apply_cases c with ⟨_, happly⟩ | ⟨b, d', m'', hvalid, hb, _, _, happly, h'⟩ |
    ⟨_, happly, _⟩
  · rw [happly] at hok
    cases hok
  · rw [happly, Except.ok.injEq, Prod.mk.injEq] at hok
    rw [hok.2] at h'
    exact ⟨b, hvalid, hb, h'⟩
  · rw [happly] at hok
    cases hok

/-- A mutation adds boundaries at the ends of its range only. -/
lemma Represents.size_le_of_apply (h : m.Represents f) {c : Mutation μ} {d : Deltas}
    {m' : RegionMap μ} (hok : c.apply m = .ok (d, m')) : m'.size ≤ m.size + 2 := by
  obtain ⟨b, _, _, h'⟩ := h.of_apply_eq_ok hok
  have hsub : m'.keys ⊆ m.keys ∪ {c.first, b} := by
    intro x hx
    rw [h'.mem_keys_iff] at hx
    simp only [Finset.mem_union, h.mem_keys_iff, Finset.mem_insert, Finset.mem_singleton]
    rcases Effect.jumps_of_jumps_write hx with hx | hx | hx
    · exact .inr (.inl hx)
    · exact .inr (.inr hx)
    · exact .inl hx
  rw [← card_keys h'.wellFormed]
  exact (Finset.card_le_card hsub).trans (card_union_pair_le h.wellFormed c.first b)

end RegionMap

end RegionLedger
