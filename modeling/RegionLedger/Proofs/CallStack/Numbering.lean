import Mathlib.Data.Finset.Dedup
import Mathlib.Data.Finset.Lattice.Fold
import Mathlib.Data.List.Nodup
import Mathlib.Order.Lattice.Nat
import Mathlib.Tactic.Common
import RegionLedger.CallStack.Store

/-!
# The numbering of call stacks

A store numbers the stacks pushed into it.  A slot is filled chunk by chunk, in the order in which
its stacks first came, so the stacks of a slot stand in the chunks without a gap: the place of a
stack is its position among the stacks of its slot.  This holds whatever the fingerprint is.

* `StackStore.inSlot`, `StackStore.home` — the stacks of a slot in order, and the place of a stack.
* `StackStore.Numbers` — the store keeps just the stacks of a list, each at its place.
* `StackStore.Numbers.pushBy_cases` — a push returns the place of the stack, or finds its slot taken
  in as many chunks as there can be.
* `StackStore.pushAllBy`, `StackStore.pushes_number` — several pushes, and the numbering they make.
-/

namespace RegionLedger

namespace StackStore

variable {fp : CallStack → UInt64} {s s' : StackStore} {known : List CallStack} {x y : CallStack}

/-! ## Places -/

/-- The stack in a slot of a chunk, both by number. -/
def cell (s : StackStore) (i slot : ℕ) : Option CallStack := s.chunks[i]?.bind (held? · slot)

/-- The stacks of a list that belong in a slot, in the order of the list. -/
def inSlot (fp : CallStack → UInt64) (s : StackStore) (known : List CallStack) (slot : ℕ) :
    List CallStack :=
  known.filter fun x => s.slotOf fp x = slot

/-- The place of a stack: its position among the stacks of its slot, and the slot. -/
def home (fp : CallStack → UInt64) (s : StackStore) (known : List CallStack) (x : CallStack) :
    StackRef :=
  ref ((s.inSlot fp known (s.slotOf fp x)).idxOf x) (s.slotOf fp x)

/-- The list with a stack at its end, unless the list has it already. -/
def learn (known : List CallStack) (x : CallStack) : List CallStack :=
  if x ∈ known then known else known ++ [x]

lemma mem_learn {z : CallStack} : z ∈ learn known x ↔ z ∈ known ∨ z = x := by
  rw [learn]
  split_ifs with hx
  · constructor
    · exact Or.inl
    · rintro (hz | rfl)
      · exact hz
      · exact hx
  · rw [List.mem_append, List.mem_singleton]

lemma nodup_learn (h : known.Nodup) : (learn known x).Nodup := by
  rw [learn]
  split_ifs with hx
  · exact h
  · refine List.nodup_append.mpr ⟨h, List.nodup_singleton x, ?_⟩
    rintro a ha b hb rfl
    exact hx (List.mem_singleton.mp hb ▸ ha)

lemma prefix_learn : known <+: learn known x := by
  rw [learn]
  split_ifs
  · exact List.prefix_refl _
  · exact List.prefix_append _ _

lemma mem_inSlot {slot : ℕ} : x ∈ s.inSlot fp known slot ↔ x ∈ known ∧ s.slotOf fp x = slot := by
  rw [inSlot, List.mem_filter, decide_eq_true_eq]

/-- A stack at the end of the list is the last one of its slot. -/
lemma inSlot_concat : s.inSlot fp (known ++ [x]) (s.slotOf fp x) =
    s.inSlot fp known (s.slotOf fp x) ++ [x] := by
  simp [inSlot]

lemma inSlot_mono (fp : CallStack → UInt64) (s : StackStore) {known' : List CallStack}
    (h : known <+: known') (slot : ℕ) : s.inSlot fp known slot <+: s.inSlot fp known' slot :=
  h.filter _

lemma slotOf_congr (h : s'.width = s.width) (x : CallStack) :
    s'.slotOf fp x = s.slotOf fp x := by
  rw [slotOf, slotOf, h]

lemma inSlot_congr (h : s'.width = s.width) (known : List CallStack) (slot : ℕ) :
    s'.inSlot fp known slot = s.inSlot fp known slot := by
  simp only [inSlot, slotOf_congr h]

lemma home_congr (h : s'.width = s.width) (known : List CallStack) :
    s'.home fp known = s.home fp known := by
  funext x
  simp only [home, inSlot_congr h, slotOf_congr h]

/-- A stack stays at its place when others come. -/
lemma home_mono {known' : List CallStack} (h : known <+: known') (hx : x ∈ known) :
    s.home fp known' x = s.home fp known x := by
  have hin : x ∈ s.inSlot fp known (s.slotOf fp x) := mem_inSlot.mpr ⟨hx, rfl⟩
  rw [home, home, (inSlot_mono fp s h _).idxOf_eq_of_mem hin]

/-- The place that a new stack takes is that after all stacks of its slot. -/
lemma home_learn : s.home fp (learn known x) x = s.home fp known x := by
  by_cases hx : x ∈ known
  · rw [learn, if_pos hx]
  · have hout : x ∉ s.inSlot fp known (s.slotOf fp x) := fun h => hx (mem_inSlot.mp h).1
    rw [learn, if_neg hx, home, home, inSlot_concat, List.idxOf_append_of_notMem hout,
      List.idxOf_of_notMem hout, List.idxOf_cons_self, Nat.add_zero]

/-! ## Chunks -/

lemma held?_put (chunk : StackChunk) (x : CallStack) {i slot : ℕ} (h : i < chunk.size) :
    held? (put i x chunk) slot = if slot = i then some x else held? chunk slot := by
  rw [held?, held?, put, Array.getElem?_setIfInBounds]
  by_cases hslot : slot = i
  · simp [hslot, h]
  · rw [if_neg (Ne.symm hslot), if_neg hslot]

@[simp] lemma size_put (slot : ℕ) (x : CallStack) (chunk : StackChunk) :
    (put slot x chunk).size = chunk.size := Array.size_setIfInBounds

/-- Writing a stack into a chunk changes the size of none. -/
lemma size_of_mem_modify {chunks : List StackChunk} {n slot : ℕ} {chunk : StackChunk}
    (h : chunk ∈ chunks.modify n (put slot x)) : ∃ old ∈ chunks, old.size = chunk.size := by
  obtain ⟨i, hi, rfl⟩ := List.getElem_of_mem h
  rw [List.getElem_modify]
  refine ⟨_, List.getElem_mem (by simpa using hi), ?_⟩
  split_ifs <;> simp

lemma held?_blank (n slot : ℕ) : held? (Array.replicate n none) slot = none := by
  rw [held?, Array.getElem?_replicate]
  split_ifs <;> rfl

/-- A chunk takes a stack unless another one is in its slot. -/
lemma accepts_iff {slot : ℕ} {chunk : StackChunk} :
    accepts slot x chunk = true ↔ ∀ y, held? chunk slot = some y → y = x := by
  rw [accepts]
  cases held? chunk slot with
  | none => simp
  | some y => simp

/-- Writing a stack into a chunk fills one cell. -/
lemma cell_modify {n slot : ℕ} (hn : n < s.chunks.length)
    (hslot : ∀ chunk ∈ s.chunks, slot < chunk.size) (i slot' : ℕ) :
    (s.chunks.modify n (put slot x))[i]?.bind (held? · slot') =
      if i = n ∧ slot' = slot then some x else s.cell i slot' := by
  rw [List.getElem?_modify, cell]
  by_cases hi : i = n
  · subst hi
    rw [List.getElem?_eq_getElem hn]
    simp [held?_put _ x (hslot _ (List.getElem_mem hn))]
  · simp [hi, Ne.symm hi]

/-- A new chunk with one stack fills one cell. -/
lemma cell_append {slot : ℕ} (hslot : slot < s.width) (i slot' : ℕ) :
    (s.chunks ++ [put slot x (Array.replicate s.width none)])[i]?.bind (held? · slot') =
      if i = s.chunks.length ∧ slot' = slot then some x else s.cell i slot' := by
  have hput : held? (put slot x (Array.replicate s.width none)) slot' = _ := held?_put _ x (by simpa)
  rw [held?_blank] at hput
  rw [List.getElem?_append, cell]
  split_ifs with hlt h h
  · omega
  · rfl
  · rw [h.2, if_pos rfl] at hput
    simp [h.1, h.2, hput]
  · by_cases hi : i = s.chunks.length
    · subst hi
      have hne : slot' ≠ slot := fun heq => h ⟨rfl, heq⟩
      simp [hput, hne]
    · rw [List.getElem?_eq_none (by simp; omega), List.getElem?_eq_none (by omega)]

/-! ## The relation -/

/-- The store keeps just the stacks of a list.  Each slot is filled chunk by chunk, in the order of
the list, and there are no more chunks than the fullest slot needs. -/
structure Numbers (fp : CallStack → UInt64) (s : StackStore) (known : List CallStack) : Prop where
  detailed : s.detailed = true
  width_pos : 0 < s.width
  width_le : s.width ≤ limit
  sized : ∀ chunk ∈ s.chunks, chunk.size = s.width
  nodup : known.Nodup
  cell_eq : ∀ i slot, s.cell i slot = (s.inSlot fp known slot)[i]?
  needed : s.chunks = [] ∨ ∃ slot, s.chunks.length ≤ (s.inSlot fp known slot).length
  chunks_le : s.chunks.length ≤ limit
  size_eq : s.size = known.length

lemma numbers_empty (fp : CallStack → UInt64) {width : ℕ} (h : allowsWidth width = true) :
    (empty true width).Numbers fp [] := by
  rw [allowsWidth, Bool.and_eq_true, decide_eq_true_eq, decide_eq_true_eq] at h
  exact ⟨rfl, h.1, h.2, by simp [empty], List.nodup_nil, fun _ _ => rfl, .inl rfl,
    Nat.zero_le _, rfl⟩

namespace Numbers

lemma slotOf_lt (h : s.Numbers fp known) (x : CallStack) : s.slotOf fp x < s.width :=
  Nat.mod_lt _ h.width_pos

/-- A slot has no more stacks than there are chunks. -/
lemma length_inSlot_le (h : s.Numbers fp known) (slot : ℕ) :
    (s.inSlot fp known slot).length ≤ s.chunks.length := by
  by_contra hlt
  have hcell := h.cell_eq s.chunks.length slot
  rw [cell, List.getElem?_eq_none (le_refl _), List.getElem?_eq_getElem (by omega)] at hcell
  cases hcell

/-- The first chunk that takes a stack is the one at its place. -/
lemma findIdx?_eq (h : s.Numbers fp known) (x : CallStack) :
    s.chunks.findIdx? (accepts (s.slotOf fp x) x) =
      if (s.inSlot fp known (s.slotOf fp x)).idxOf x < s.chunks.length
      then some ((s.inSlot fp known (s.slotOf fp x)).idxOf x) else none := by
  have hheld : ∀ i (hi : i < s.chunks.length),
      held? s.chunks[i] (s.slotOf fp x) = (s.inSlot fp known (s.slotOf fp x))[i]? := by
    intro i hi
    rw [← h.cell_eq, cell, List.getElem?_eq_getElem hi, Option.bind_some]
  generalize s.inSlot fp known (s.slotOf fp x) = ys at hheld ⊢
  have hbefore : ∀ i (hi : i < s.chunks.length), i < ys.idxOf x →
      accepts (s.slotOf fp x) x s.chunks[i] = false := by
    intro i hi hlt
    have hlen : i < ys.length := hlt.trans_le List.idxOf_le_length
    have hne : (ys[i] == x) = false := List.not_of_lt_findIdx hlt
    rw [← Bool.not_eq_true, accepts_iff, hheld i hi, List.getElem?_eq_getElem hlen]
    intro hall
    exact beq_eq_false_iff_ne.mp hne (hall _ rfl)
  split_ifs with hroom
  · refine List.findIdx?_eq_some_iff_getElem.mpr ⟨hroom, ?_, ?_⟩
    · rw [accepts_iff, hheld _ hroom]
      intro y hy
      obtain ⟨hlen, hget⟩ := List.getElem?_eq_some_iff.mp hy
      rw [← hget, List.getElem_idxOf hlen]
    · intro i hi
      rw [hbefore i (hi.trans hroom) hi]
      exact Bool.false_ne_true
  · refine List.findIdx?_eq_none_iff.mpr ?_
    intro chunk hchunk
    obtain ⟨i, hi, rfl⟩ := List.getElem_of_mem hchunk
    exact hbefore i hi (by omega)

/-- A stack is kept in the cell of its place, and in no other. -/
lemma cell_eq_some_iff (h : s.Numbers fp known) {i slot : ℕ} :
    s.cell i slot = some x ↔ x ∈ known ∧ slot = s.slotOf fp x ∧
      i = (s.inSlot fp known (s.slotOf fp x)).idxOf x := by
  rw [h.cell_eq]
  constructor
  · intro hget
    obtain ⟨hx, rfl⟩ := mem_inSlot.mp (List.mem_of_getElem? hget)
    obtain ⟨hi, hget⟩ := List.getElem?_eq_some_iff.mp hget
    have hnodup : (s.inSlot fp known (s.slotOf fp x)).Nodup := h.nodup.filter _
    have hpos := hnodup.idxOf_getElem i hi
    rw [hget] at hpos
    exact ⟨hx, rfl, hpos.symm⟩
  · rintro ⟨hx, rfl, rfl⟩
    exact List.getElem?_idxOf (mem_inSlot.mpr ⟨hx, rfl⟩)

/-- One more stack, in the first free cell of its slot. -/
lemma extend (h : s.Numbers fp known) (hx : x ∉ known) (hwidth : s'.width = s.width)
    (hdetailed : s'.detailed = s.detailed) (hsized : ∀ chunk ∈ s'.chunks, chunk.size = s.width)
    (hcell : ∀ i slot, s'.cell i slot =
      if i = (s.inSlot fp known (s.slotOf fp x)).length ∧ slot = s.slotOf fp x then some x
      else s.cell i slot)
    (hneeded : ∃ slot, s'.chunks.length ≤ (s.inSlot fp (known ++ [x]) slot).length)
    (hle : s'.chunks.length ≤ limit) (hsize : s'.size = s.size + 1) :
    s'.Numbers fp (known ++ [x]) where
  detailed := hdetailed.trans h.detailed
  width_pos := hwidth ▸ h.width_pos
  width_le := hwidth ▸ h.width_le
  sized chunk hchunk := (hsized chunk hchunk).trans hwidth.symm
  nodup := by
    refine List.nodup_append.mpr ⟨h.nodup, List.nodup_singleton x, ?_⟩
    rintro a ha b hb rfl
    exact hx (List.mem_singleton.mp hb ▸ ha)
  cell_eq i slot := by
    rw [hcell, inSlot_congr hwidth, h.cell_eq]
    by_cases hslot : slot = s.slotOf fp x
    · subst hslot
      rw [inSlot_concat, List.getElem?_append]
      split_ifs with hi hlt
      · omega
      · simp [hi.1]
      · rfl
      · rw [List.getElem?_eq_none (by omega), List.getElem?_eq_none (by simp; omega)]
    · have hsame : s.inSlot fp (known ++ [x]) slot = s.inSlot fp known slot := by
        simp [inSlot, Ne.symm hslot]
      rw [hsame, if_neg fun hi => hslot hi.2]
  needed := by
    obtain ⟨slot, hslot⟩ := hneeded
    exact .inr ⟨slot, by rwa [inSlot_congr hwidth]⟩
  chunks_le := hle
  size_eq := by rw [hsize, h.size_eq, List.length_append, List.length_singleton]

/-- A stack that is kept is found at its place, and the store stays as it is. -/
lemma pushBy_of_mem (h : s.Numbers fp known) (hx : x ∈ known) :
    s.pushBy fp x = .ok (s.home fp known x, s) := by
  have hin : x ∈ s.inSlot fp known (s.slotOf fp x) := mem_inSlot.mpr ⟨hx, rfl⟩
  have hlt := List.idxOf_lt_length_of_mem hin
  have hcell := h.cell_eq ((s.inSlot fp known (s.slotOf fp x)).idxOf x) (s.slotOf fp x)
  rw [cell] at hcell
  rw [pushBy, if_pos h.detailed]
  simp only [h.findIdx?_eq x, if_pos (hlt.trans_le (h.length_inSlot_le _)), hcell,
    List.getElem?_eq_getElem hlt, Option.isSome_some, if_true, home]

/-- **A push.**  It returns the place of the stack, which the store learns, and is refused only if
the stack is new and its slot is taken in as many chunks as there can be. -/
theorem pushBy_cases (h : s.Numbers fp known) (x : CallStack) :
    (∃ s', s.pushBy fp x = .ok (s.home fp known x, s') ∧ s'.width = s.width ∧
      s'.Numbers fp (learn known x)) ∨
    (s.pushBy fp x = .error (.exhausted limit) ∧ x ∉ known ∧
      (s.inSlot fp known (s.slotOf fp x)).length = limit) := by
  by_cases hx : x ∈ known
  · exact .inl ⟨s, h.pushBy_of_mem hx, rfl, by rwa [learn, if_pos hx]⟩
  · have hle := h.length_inSlot_le (s.slotOf fp x)
    have hcell := h.cell_eq ((s.inSlot fp known (s.slotOf fp x)).idxOf x) (s.slotOf fp x)
    rw [cell] at hcell
    rw [pushBy, if_pos h.detailed]
    simp only [h.findIdx?_eq x]
    have hout : x ∉ s.inSlot fp known (s.slotOf fp x) := fun hin => hx (mem_inSlot.mp hin).1
    have hwidth : s.slotOf fp x < s.width := h.slotOf_lt x
    rw [List.idxOf_of_notMem hout] at hcell ⊢
    rw [List.getElem?_eq_none (le_refl _)] at hcell
    rw [learn, if_neg hx, home, List.idxOf_of_notMem hout]
    by_cases hroom : (s.inSlot fp known (s.slotOf fp x)).length < s.chunks.length
    · -- a chunk is there that has the slot free
      simp only [if_pos hroom, hcell, Option.isSome_none, Bool.false_eq_true, if_false]
      refine .inl ⟨_, rfl, rfl, h.extend hx rfl rfl ?_ ?_ ?_ ?_ rfl⟩
      · intro chunk hchunk
        exact (size_of_mem_modify hchunk).elim fun old hold => hold.2 ▸ h.sized old hold.1
      · refine cell_modify hroom ?_
        intro chunk hchunk
        rw [h.sized chunk hchunk]
        exact hwidth
      · rcases h.needed with hnone | ⟨slot, hslot⟩
        · rw [hnone] at hroom
          exact absurd hroom (Nat.not_lt_zero _)
        · refine ⟨slot, ?_⟩
          rw [List.length_modify]
          exact hslot.trans (inSlot_mono fp s (List.prefix_append _ _) slot).length_le
      · rw [List.length_modify]
        exact h.chunks_le
    · have hfull : (s.inSlot fp known (s.slotOf fp x)).length = s.chunks.length := by omega
      simp only [if_neg hroom]
      by_cases hlimit : s.chunks.length < limit
      · rw [if_pos hlimit, hfull]
        refine .inl ⟨_, rfl, rfl, h.extend hx rfl rfl ?_ ?_ ?_ ?_ rfl⟩
        · intro chunk hchunk
          rcases List.mem_append.mp hchunk with hchunk | hchunk
          · exact h.sized chunk hchunk
          · rw [List.mem_singleton.mp hchunk, size_put, Array.size_replicate]
        · rw [hfull]
          exact cell_append hwidth
        · refine ⟨s.slotOf fp x, ?_⟩
          simp only [List.length_append, List.length_singleton, inSlot_concat, hfull, le_refl]
        · simp only [List.length_append, List.length_singleton]
          omega
      · have hchunks := h.chunks_le
        have hcount : s.chunks.length = limit := by omega
        rw [if_neg hlimit, hcount]
        exact .inr ⟨rfl, hx, hfull.trans hcount⟩

/-! ### Reading places -/

lemma get_eq (s : StackStore) (r : StackRef) :
    s.get r = (s.cell r.chunk.toNat r.slot.toNat).getD .empty := rfl

/-- The number of the chunk and the slot of a place fit their words. -/
lemma toNat_home (h : s.Numbers fp known) (hx : x ∈ known) :
    (s.home fp known x).chunk.toNat = (s.inSlot fp known (s.slotOf fp x)).idxOf x ∧
      (s.home fp known x).slot.toNat = s.slotOf fp x := by
  have hlt := List.idxOf_lt_length_of_mem (mem_inSlot.mpr ⟨hx, rfl⟩ :
    x ∈ s.inSlot fp known (s.slotOf fp x))
  have hcount := h.length_inSlot_le (s.slotOf fp x)
  have hchunks := h.chunks_le
  have hslot := h.slotOf_lt x
  have hwidth := h.width_le
  rw [limit] at hchunks hwidth
  exact ⟨UInt16.toNat_ofNat_of_lt' (by omega), UInt16.toNat_ofNat_of_lt' (by omega)⟩

/-- **A stack is read back at its place.** -/
theorem get_home (h : s.Numbers fp known) (hx : x ∈ known) : s.get (s.home fp known x) = x := by
  obtain ⟨hchunk, hslot⟩ := h.toNat_home hx
  rw [get_eq, hchunk, hslot, h.cell_eq_some_iff.mpr ⟨hx, rfl, rfl⟩, Option.getD_some]

/-- Different stacks have different places. -/
lemma home_inj (h : s.Numbers fp known) (hx : x ∈ known) (hy : y ∈ known) :
    s.home fp known x = s.home fp known y ↔ x = y := by
  constructor
  · intro heq
    rw [← h.get_home hx, ← h.get_home hy, heq]
  · rintro rfl
    rfl

/-- **Nothing is read at a place that is no stack's.** -/
theorem get_eq_empty (h : s.Numbers fp known) {r : StackRef}
    (hr : ∀ x ∈ known, r ≠ s.home fp known x) : s.get r = .empty := by
  rw [get_eq]
  cases hcell : s.cell r.chunk.toNat r.slot.toNat with
  | none => rfl
  | some x =>
      obtain ⟨hx, hslot, hchunk⟩ := h.cell_eq_some_iff.mp hcell
      refine absurd ?_ (hr x hx)
      rw [home, ref, ← hchunk, ← hslot, UInt16.ofNat_toNat, UInt16.ofNat_toNat]

end Numbers

/-! ## Several pushes -/

/-- Stores several stacks one after the other, and returns where they are.  The first refusal ends
it. -/
def pushAllBy (fp : CallStack → UInt64) (s : StackStore) :
    List CallStack → Except StackStoreError (List StackRef × StackStore)
  | [] => .ok ([], s)
  | x :: rest => do
    let (r, s) ← s.pushBy fp x
    let (refs, s) ← pushAllBy fp s rest
    return (r :: refs, s)

lemma pushAllBy_cons {r : StackRef} (hpush : s.pushBy fp x = .ok (r, s')) (xs : List CallStack) :
    s.pushAllBy fp (x :: xs) = (s'.pushAllBy fp xs).map fun answer => (r :: answer.1, answer.2) := by
  rw [pushAllBy, hpush]
  show (do let (refs, s) ← s'.pushAllBy fp xs; pure (r :: refs, s)) = _
  cases s'.pushAllBy fp xs <;> rfl

lemma prefix_foldl_learn (xs known : List CallStack) : known <+: xs.foldl learn known := by
  induction xs generalizing known with
  | nil => exact List.prefix_refl _
  | cons x xs ih => exact prefix_learn.trans (ih _)

lemma mem_foldl_learn {xs known : List CallStack} :
    y ∈ xs.foldl learn known ↔ y ∈ known ∨ y ∈ xs := by
  induction xs generalizing known with
  | nil => simp
  | cons x xs ih => rw [List.foldl_cons, ih, mem_learn, List.mem_cons, or_assoc]

lemma nodup_foldl_learn (xs : List CallStack) (h : known.Nodup) : (xs.foldl learn known).Nodup := by
  induction xs generalizing known with
  | nil => exact h
  | cons x xs ih => exact ih (nodup_learn h)

/-- **Several pushes** return the places of the stacks, unless a slot comes to more stacks than there
can be chunks. -/
theorem Numbers.pushAllBy_cases (h : s.Numbers fp known) (xs : List CallStack) :
    (∃ s', s.pushAllBy fp xs = .ok (xs.map (s.home fp (xs.foldl learn known)), s') ∧
      s'.width = s.width ∧ s'.Numbers fp (xs.foldl learn known)) ∨
    (s.pushAllBy fp xs = .error (.exhausted limit) ∧
      ∃ slot, limit < (s.inSlot fp (xs.foldl learn known) slot).length) := by
  induction xs generalizing s known with
  | nil => exact .inl ⟨s, rfl, rfl, h⟩
  | cons x xs ih =>
      rw [List.foldl_cons, List.map_cons]
      rcases h.pushBy_cases x with ⟨s₁, hpush, hwidth, h₁⟩ | ⟨hpush, hx, hfull⟩
      · have hhome : s.home fp (xs.foldl learn (learn known x)) x = s.home fp known x := by
          rw [home_mono (prefix_foldl_learn xs _) (mem_learn.mpr (.inr rfl)), home_learn]
        rw [pushAllBy_cons hpush, hhome]
        rcases ih h₁ with ⟨s', hrun, hwidth', h'⟩ | ⟨hrun, slot, hslot⟩
        · refine .inl ⟨s', ?_, hwidth'.trans hwidth, h'⟩
          rw [home_congr hwidth] at hrun
          rw [hrun]
          rfl
        · refine .inr ⟨?_, slot, by rwa [inSlot_congr hwidth] at hslot⟩
          rw [hrun]
          rfl
      · -- the stack that is refused would have been one too many in its slot
        refine .inr ⟨by rw [pushAllBy, hpush]; rfl, s.slotOf fp x, ?_⟩
        have hle := (inSlot_mono fp s (prefix_foldl_learn xs (learn known x))
          (s.slotOf fp x)).length_le
        refine lt_of_lt_of_le ?_ hle
        rw [learn, if_neg hx, inSlot_concat, List.length_append, hfull, List.length_singleton]
        exact Nat.lt_succ_self _

/-! ## The numbering -/

/-- The number of different stacks of a list that share a slot: the remainder of the fingerprint by
the width of a chunk. -/
def sharing (fp : CallStack → UInt64) (width : ℕ) (xs : List CallStack) (slot : ℕ) : ℕ :=
  (xs.toFinset.filter fun x => (fp x).toNat % width = slot).card

/-- Stacks were pushed into a store and numbered by `refs`. -/
structure Numbered (fp : CallStack → UInt64) (xs : List CallStack) (refs : List StackRef)
    (s : StackStore) : Prop where
  /-- Every push is answered. -/
  length_eq : refs.length = xs.length
  /-- Two answers are equal exactly if the frames are. -/
  injective : ∀ p ∈ xs.zip refs, ∀ q ∈ xs.zip refs, p.2 = q.2 ↔ p.1.frames = q.1.frames
  /-- A stack is read back at its answer, also after further pushes. -/
  stable : ∀ more refs' s', s.pushAllBy fp more = .ok (refs', s') →
    ∀ p ∈ xs.zip refs, s'.get p.2 = p.1
  /-- Nothing is read at a reference that was no answer. -/
  unused : ∀ r, r ∉ refs → s.get r = .empty
  /-- There are as many stacks as different ones were pushed. -/
  size_eq : s.size = xs.toFinset.card
  /-- There are as many chunks as different stacks share a slot at most. -/
  chunks_eq : s.chunks.length = (Finset.range s.width).sup (sharing fp s.width xs)

lemma length_inSlot_eq (fp : CallStack → UInt64) (s : StackStore) (hnodup : known.Nodup) {xs : List CallStack}
    (hmem : ∀ x, x ∈ known ↔ x ∈ xs) (slot : ℕ) :
    (s.inSlot fp known slot).length = sharing fp s.width xs slot := by
  have hset : (s.inSlot fp known slot).toFinset =
      xs.toFinset.filter fun x => (fp x).toNat % s.width = slot := by
    ext x
    simp [mem_inSlot, slotOf, hmem]
  have hone : (s.inSlot fp known slot).Nodup := hnodup.filter _
  rw [sharing, ← hset, List.toFinset_card_of_nodup hone]

/-- Each stack with its place. -/
lemma mem_zip_home {xs : List CallStack} {p : CallStack × StackRef}
    (hp : p ∈ xs.zip (xs.map (s.home fp known))) : p.1 ∈ xs ∧ p.2 = s.home fp known p.1 := by
  have hzip : (xs.map id).zip (xs.map (s.home fp known)) = xs.map fun x => (x, s.home fp known x) :=
    List.zip_map'
  rw [List.map_id] at hzip
  rw [hzip, List.mem_map] at hp
  obtain ⟨x, hx, rfl⟩ := hp
  exact ⟨hx, rfl⟩

/-- What a store numbers are the stacks pushed into it. -/
lemma Numbers.numbered (h : s.Numbers fp known) {xs : List CallStack}
    (hmem : ∀ x, x ∈ known ↔ x ∈ xs) : Numbered fp xs (xs.map (s.home fp known)) s where
  length_eq := List.length_map _
  injective p hp q hq := by
    obtain ⟨hpmem, hpr⟩ := mem_zip_home hp
    obtain ⟨hqmem, hqr⟩ := mem_zip_home hq
    rw [hpr, hqr, h.home_inj ((hmem _).mpr hpmem) ((hmem _).mpr hqmem), ← CallStack.mk.injEq]
  stable more refs' s' hrun p hp := by
    obtain ⟨hpmem, hpr⟩ := mem_zip_home hp
    have hknown := (hmem _).mpr hpmem
    rcases h.pushAllBy_cases more with ⟨s₁, hrun₁, hwidth, h₁⟩ | ⟨hrun₁, _⟩
    · rw [hrun, Except.ok.injEq, Prod.mk.injEq] at hrun₁
      have hstart := prefix_foldl_learn more known
      rw [hrun₁.2, hpr, ← home_mono hstart hknown, ← home_congr hwidth]
      exact h₁.get_home (hstart.subset hknown)
    · rw [hrun] at hrun₁
      cases hrun₁
  unused r hr := by
    refine h.get_eq_empty ?_
    intro x hx heq
    exact hr (heq ▸ List.mem_map_of_mem ((hmem x).mp hx))
  size_eq := by
    have hset : known.toFinset = xs.toFinset := by
      ext x
      rw [List.mem_toFinset, List.mem_toFinset, hmem]
    rw [h.size_eq, ← hset, List.toFinset_card_of_nodup h.nodup]
  chunks_eq := by
    have hcount := length_inSlot_eq fp s h.nodup hmem
    refine le_antisymm ?_ (Finset.sup_le ?_)
    · rcases h.needed with hnone | ⟨slot, hslot⟩
      · rw [hnone]
        exact Nat.zero_le _
      · by_cases hwidth : slot < s.width
        · rw [hcount] at hslot
          exact hslot.trans (Finset.le_sup (Finset.mem_range.mpr hwidth))
        · -- no stack belongs beyond the width of a chunk
          have hnone : s.inSlot fp known slot = [] := by
            refine List.filter_eq_nil_iff.mpr ?_
            intro x _
            have hlt := h.slotOf_lt x
            simp only [decide_eq_true_eq]
            omega
          rw [hnone] at hslot
          exact hslot.trans (Nat.zero_le _)
    · intro slot _
      rw [← hcount]
      exact h.length_inSlot_le slot

/-- Pushes into an empty store. -/
lemma pushAllBy_empty (fp : CallStack → UInt64) {width : ℕ} (hpos : 0 < width)
    (hle : width ≤ 65536) (xs : List CallStack) :
    ((empty true width).pushAllBy fp xs = .error (.exhausted limit) ∧
      ∃ slot, limit < sharing fp width xs slot) ∨
    ((∀ slot, sharing fp width xs slot ≤ limit) ∧
      ∃ refs s, (empty true width).pushAllBy fp xs = .ok (refs, s) ∧ s.width = width ∧
        Numbered fp xs refs s) := by
  have hallows : allowsWidth width = true := by
    rw [allowsWidth, Bool.and_eq_true, decide_eq_true_eq, decide_eq_true_eq]
    exact ⟨hpos, hle⟩
  have hmem : ∀ x, x ∈ xs.foldl learn [] ↔ x ∈ xs := by
    intro x
    rw [mem_foldl_learn]
    exact or_iff_right List.not_mem_nil
  have hcount := length_inSlot_eq fp (empty true width) (nodup_foldl_learn xs List.nodup_nil) hmem
  rcases (numbers_empty fp hallows).pushAllBy_cases xs with ⟨s, hrun, hwidth, h⟩ | ⟨hrun, slot, hslot⟩
  · refine .inr ⟨?_, _, s, hrun, hwidth, ?_⟩
    · intro slot
      rw [← show (empty true width).width = width from rfl, ← hcount, ← inSlot_congr hwidth]
      exact (h.length_inSlot_le slot).trans h.chunks_le
    · rw [← home_congr hwidth]
      exact h.numbered hmem
  · exact .inl ⟨hrun, slot, hcount slot ▸ hslot⟩

/-- **A store numbers its stacks.**  Whatever the fingerprint is and whatever stacks share a slot, the
pushes of a list of stacks are all answered exactly if no slot comes to more stacks than there can be
chunks.  The answers then tell apart just the stacks that differ and are read back at any later time,
nothing is read elsewhere, and neither the number of stacks nor that of chunks depends on the order
of the pushes. -/
theorem pushes_number (fp : CallStack → UInt64) (width : ℕ) (hpos : 0 < width)
    (hle : width ≤ 65536) (xs : List CallStack) :
    ((empty true width).pushAllBy fp xs = .error (.exhausted limit) ∧
      ∃ slot, limit < sharing fp width xs slot) ∨
    ((∀ slot, sharing fp width xs slot ≤ limit) ∧
      ∃ refs s, (empty true width).pushAllBy fp xs = .ok (refs, s) ∧ s.width = width ∧
        Numbered fp xs refs s ∧
        ∀ ys, ys.toFinset = xs.toFinset → ∃ refs' s',
          (empty true width).pushAllBy fp ys = .ok (refs', s') ∧
            s'.size = s.size ∧ s'.chunks.length = s.chunks.length) := by
  rcases pushAllBy_empty fp hpos hle xs with hfull | ⟨hroom, refs, s, hrun, hwidth, h⟩
  · exact .inl hfull
  · refine .inr ⟨hroom, refs, s, hrun, hwidth, h, ?_⟩
    intro ys hys
    have hsharing : sharing fp width ys = sharing fp width xs := by
      funext slot
      rw [sharing, sharing, hys]
    rcases pushAllBy_empty fp hpos hle ys with ⟨_, slot, hslot⟩ | ⟨_, refs', s', hrun', hwidth', h'⟩
    · rw [hsharing] at hslot
      exact absurd (hroom slot) (Nat.not_le.mpr hslot)
    · refine ⟨refs', s', hrun', ?_, ?_⟩
      · rw [h'.size_eq, h.size_eq, hys]
      · rw [h'.chunks_eq, h.chunks_eq, hwidth', hwidth, hsharing]

/-- Stacks that all share the last slot of a chunk, one of them without frames. -/
def rivals : List CallStack := [⟨[10]⟩, ⟨[]⟩, ⟨[10]⟩, ⟨[10, 11]⟩, ⟨[]⟩]

/-- The three different ones take a chunk each. -/
theorem rivals_number : (0 < 2 ∧ 2 ≤ 65536) ∧
    ∃ refs s, (empty true 2).pushAllBy (fun _ => 1) rivals = .ok (refs, s) ∧
      Numbered (fun _ => 1) rivals refs s ∧ s.size = 3 ∧ s.chunks.length = 3 := by
  refine ⟨⟨by decide, by decide⟩, ?_⟩
  rcases pushes_number (fun _ => 1) 2 (by decide) (by decide) rivals with
    ⟨_, slot, hslot⟩ | ⟨_, refs, s, hrun, hwidth, h, _⟩
  · have hle : sharing (fun _ => 1) 2 rivals slot ≤ rivals.toFinset.card := Finset.card_filter_le _ _
    have hthree : rivals.toFinset.card = 3 := by decide
    have hlimit : limit = 65536 := rfl
    omega
  · refine ⟨refs, s, hrun, h, ?_, ?_⟩
    · rw [h.size_eq]
      decide
    · rw [h.chunks_eq, hwidth]
      decide

end StackStore

end RegionLedger
