import Mathlib.Data.Finset.Card
import Mathlib.Data.Finset.Dedup
import Mathlib.Data.Finset.Insert
import Mathlib.Data.List.Perm.Basic
import RegionLedger.Treap.Basic
import RegionLedger.Proofs.Treap.Search

/-!
# What a treap holds

The view of a treap is the ascending list of its keys with their values.  Every operation is
described by what it does to that list, whatever priorities were drawn.

* `Slots.Holds` — the numbers in use are those of the nodes and the vacant ones.
* `Treap.WellFormed` — keys ascend, and every node has a slot of its own.
* `Treap.WellFormed.insert_spec`, `Treap.WellFormed.erase_spec` — the two changes keep a treap well
  formed.  An insertion of a new key fails only if all slots are taken.
* `Treap.WellFormed.reserve_eq_ok_iff` — room is promised exactly as far as there is room.
* `Treap.WellFormed.floor?_eq`, `Treap.WellFormed.range_eq`, … — what the queries answer.
-/

set_option linter.unusedSectionVars false

namespace RegionLedger

universe u v

/-! ## Slots -/

namespace Slots

/-- The numbers in use are those in `held` and the vacant ones, each once. -/
structure Holds (s : Slots) (held : List ℕ) : Prop where
  perm : (held ++ s.vacant).Perm (List.range s.used)
  used_le : s.used ≤ limit

variable {s s' : Slots} {held held' : List ℕ} {slot : ℕ}

lemma holds_nil : Holds {} [] := ⟨List.Perm.nil, Nat.zero_le _⟩

/-- The order in which slots are held does not matter. -/
lemma Holds.congr (h : s.Holds held) (hp : held'.Perm held) : s.Holds held' :=
  ⟨(hp.append_right _).trans h.perm, h.used_le⟩

lemma Holds.nodup (h : s.Holds held) : (held ++ s.vacant).Nodup :=
  h.perm.nodup_iff.mpr List.nodup_range

lemma Holds.disjoint (h : s.Holds held) : held.Disjoint s.vacant :=
  (List.nodup_append'.mp h.nodup).2.2

lemma Holds.length_add_vacant (h : s.Holds held) :
    held.length + s.vacant.length = s.used := by
  simpa using h.perm.length_eq

lemma Holds.live_eq (h : s.Holds held) : s.live = held.length := by
  have hlen := h.length_add_vacant
  rw [live]
  omega

/-- A slot handed out is held from then on. -/
lemma Holds.take (h : s.Holds held) (ht : s.take? = some (slot, s')) :
    s'.Holds (slot :: held) := by
  unfold take? at ht
  split at ht
  · next vacant hv =>
      obtain ⟨rfl, rfl⟩ := Prod.mk.inj (Option.some.inj ht)
      refine ⟨?_, h.used_le⟩
      have hperm := h.perm
      rw [hv] at hperm
      exact List.perm_middle.symm.trans hperm
  · next hv =>
      split_ifs at ht with hroom
      obtain ⟨rfl, rfl⟩ := Prod.mk.inj (Option.some.inj ht)
      refine ⟨?_, hroom⟩
      have hperm := h.perm
      rw [hv, List.append_nil] at hperm
      rw [hv, List.append_nil, List.range_succ]
      exact (hperm.cons _).trans (List.perm_append_singleton _ _).symm

/-- A slot is left as long as not all of them are held. -/
lemma Holds.exists_take (h : s.Holds held) (room : held.length < limit) :
    ∃ slot s', s.take? = some (slot, s') := by
  rw [take?]
  split
  · exact ⟨_, _, rfl⟩
  · next hv =>
      have hlen := h.length_add_vacant
      rw [hv, List.length_nil, Nat.add_zero] at hlen
      rw [if_pos (by omega)]
      exact ⟨_, _, rfl⟩

/-- No slot is left once all of them are held. -/
lemma Holds.take?_eq_none (h : s.Holds held) (hfull : limit ≤ held.length) : s.take? = none := by
  have hlen := h.length_add_vacant
  have hused := h.used_le
  have hvacant : s.vacant = [] := List.eq_nil_of_length_eq_zero (by omega)
  rw [take?, hvacant]
  exact if_neg (by omega)

/-- A slot given back is vacant from then on. -/
lemma Holds.give (h : s.Holds (slot :: held)) : (s.give slot).Holds held :=
  ⟨List.perm_middle.trans h.perm, h.used_le⟩

/-- `n` further slots are promised exactly if they fit beside the held ones. -/
lemma Holds.canTake_iff (h : s.Holds held) (n : ℕ) :
    s.canTake n = true ↔ held.length + n ≤ limit := by
  have hlen := h.length_add_vacant
  have hused := h.used_le
  simp only [canTake, Bool.or_eq_true, beq_iff_eq, decide_eq_true_eq]
  omega

end Slots

namespace Treap

variable {κ : Type u} {ν : Type v}

lemma min?_eq (t : Treap κ ν) : t.min? = t.toList.head? := by
  rw [min?, Tree.min?_eq, toList, List.head?_map]

lemma max?_eq (t : Treap κ ν) : t.max? = t.toList.getLast? := by
  rw [max?, Tree.max?_eq, toList, List.getLast?_map]

/-- The keys as a set. -/
def keys [DecidableEq κ] (t : Treap κ ν) : Finset κ := (t.toList.map Prod.fst).toFinset

lemma mem_keys [DecidableEq κ] {t : Treap κ ν} {k : κ} : k ∈ t.keys ↔ ∃ v, (k, v) ∈ t.toList := by
  simp [keys]

variable [LT κ]

/-- Keys ascend from left to right, and every node has a slot of its own. -/
structure WellFormed (t : Treap κ ν) : Prop where
  sorted : t.root.Sorted
  holds : t.slots.Holds (t.root.toList.map (·.slot))

lemma wellFormed_empty (draws : Draws) : (empty draws : Treap κ ν).WellFormed where
  sorted := List.Pairwise.nil
  holds := Slots.holds_nil

namespace WellFormed

variable {t : Treap κ ν}

lemma pairwise_toList (ht : t.WellFormed) : t.toList.Pairwise fun p q => p.1 < q.1 :=
  List.pairwise_map.mpr ht.sorted

lemma size_eq (ht : t.WellFormed) : t.size = t.toList.length := by
  rw [size, ht.holds.live_eq, toList, List.length_map, List.length_map]

/-- There are never more keys than slots. -/
lemma size_le (ht : t.WellFormed) : t.size ≤ Slots.limit := by
  have hlen := ht.holds.length_add_vacant
  have hused := ht.holds.used_le
  rw [size, ht.holds.live_eq]
  omega

/-- **Room is promised exactly as far as there is room.** -/
lemma reserve_eq_ok_iff (ht : t.WellFormed) (n : ℕ) :
    t.reserve n = .ok () ↔ t.size + n ≤ Slots.limit := by
  have h := ht.holds.canTake_iff n
  rw [ht.size_eq, toList, List.length_map, ← List.length_map (·.slot), ← h, reserve]
  split_ifs with hn <;> simp [hn]

/-! ## Queries -/

variable [DecidableLT κ] [LE κ] [DecidableLE κ] [DecidableEq κ] [Std.IsLinearOrder κ]
  [Std.LawfulOrderLT κ]

lemma floor?_eq (ht : t.WellFormed) (k : κ) :
    t.floor? k = (t.toList.filter fun p => p.1 ≤ k).getLast? := by
  rw [floor?, Tree.floor?_eq k ht.sorted, toList, List.filter_map, List.getLast?_map]
  rfl

/-- What a floor finds is the greatest pair with a key up to `k`. -/
lemma floor?_eq_some (ht : t.WellFormed) {k : κ} {p : κ × ν} (h : t.floor? k = some p) :
    p ∈ t.toList ∧ p.1 ≤ k ∧ ∀ q ∈ t.toList, q.1 ≤ k → q.1 ≤ p.1 := by
  rw [ht.floor?_eq, List.getLast?_eq_some_iff] at h
  obtain ⟨s, hs⟩ := h
  have hp : p ∈ t.toList.filter fun p => p.1 ≤ k := by simp [hs]
  rw [List.mem_filter, decide_eq_true_eq] at hp
  refine ⟨hp.1, hp.2, ?_⟩
  intro q hq hqk
  have hmem : q ∈ t.toList.filter fun p => p.1 ≤ k := by simp [hq, hqk]
  have hsorted := ht.pairwise_toList.filter fun p => decide (p.1 ≤ k)
  rw [hs, List.mem_append, List.mem_singleton] at hmem
  rw [hs, List.pairwise_append] at hsorted
  rcases hmem with hmem | rfl
  · have hlt := hsorted.2.2 q hmem p (List.mem_singleton_self p)
    grind
  · grind

/-- A floor finds nothing exactly if all keys lie above. -/
lemma floor?_eq_none_iff (ht : t.WellFormed) (k : κ) :
    t.floor? k = none ↔ ∀ q ∈ t.toList, k < q.1 := by
  rw [ht.floor?_eq, List.getLast?_eq_none_iff, List.filter_eq_nil_iff]
  simp only [decide_eq_true_eq]
  grind

lemma higher?_eq (ht : t.WellFormed) (k : κ) :
    t.higher? k = (t.toList.filter fun p => k < p.1).head? := by
  rw [higher?, Tree.higher?_eq k ht.sorted, toList, List.filter_map, List.head?_map]
  rfl

/-- A range holds exactly the pairs between its bounds. -/
lemma range_eq (ht : t.WellFormed) (first last : Bound κ) :
    t.range first last = t.toList.filter fun p => last.endsAfter p.1 && first.startsBy p.1 := by
  rw [range, Tree.range_eq first last ht.sorted, toList, List.filter_map]
  rfl

lemma card_keys (ht : t.WellFormed) : t.keys.card = t.size := by
  have hnodup : (t.toList.map Prod.fst).Nodup :=
    List.pairwise_map.mpr (ht.pairwise_toList.imp fun hlt heq => by grind)
  rw [keys, List.toFinset_card_of_nodup hnodup, List.length_map, ht.size_eq]

lemma contains_iff (ht : t.WellFormed) (k : κ) : t.contains k = true ↔ k ∈ t.keys := by
  simp only [contains, Option.isSome_iff_exists, Tree.find?_eq_some_iff ht.sorted, mem_keys, toList,
    List.mem_map, Prod.mk.injEq]
  constructor
  · rintro ⟨e, he, hk⟩
    exact ⟨e.value, e, he, hk, rfl⟩
  · rintro ⟨v, e, he, hk, _⟩
    exact ⟨e, he, hk⟩

/-- A set of keys that does not outnumber the slots leaves room for each of its keys. -/
lemma room_of_mem (ht : t.WellFormed) {k : κ} {s : Finset κ} (hs : t.keys ⊆ s) (hk : k ∈ s)
    (hcard : s.card ≤ Slots.limit) : t.contains k = true ∨ t.size < Slots.limit := by
  by_cases hmem : k ∈ t.keys
  · exact Or.inl ((ht.contains_iff k).mpr hmem)
  · right
    have hle := Finset.card_le_card (Finset.insert_subset hk hs)
    rw [Finset.card_insert_of_notMem hmem, ht.card_keys] at hle
    omega

/-! ## Insertion -/

/-- A cut that takes `k` left parts the entries up to `k` from those above it. -/
lemma mem_split_through (ht : t.WellFormed) (k : κ) (e : Entry κ ν) :
    (e ∈ (t.root.split .through k).1.toList ↔ e ∈ t.root.toList ∧ e.key ≤ k) ∧
      (e ∈ (t.root.split .through k).2.toList ↔ e ∈ t.root.toList ∧ k < e.key) := by
  rw [Tree.toList_split_fst _ _ ht.sorted, Tree.toList_split_snd _ _ ht.sorted]
  simp only [Cut.takesLeft, List.mem_filter, decide_eq_true_eq, Bool.not_eq_eq_eq_not,
    Bool.not_true, decide_eq_false_iff_not, true_and]
  grind

/-- A key is looked for in the part that a cut leaves it in. -/
lemma isSome_find?_split (ht : t.WellFormed) (k : κ) :
    ((t.root.split .through k).1.find? k).isSome = t.contains k := by
  rw [contains, Bool.eq_iff_iff, Option.isSome_iff_exists, Option.isSome_iff_exists]
  simp only [Tree.find?_eq_some_iff ht.sorted, Tree.find?_eq_some_iff (ht.sorted.split .through k).1,
    (ht.mem_split_through k _).1]
  grind

/-- Overwriting the value of a key touches the entry of that key alone. -/
lemma toList_overwrite (ht : t.WellFormed) (k : κ) (v : ν) :
    (((t.root.split .through k).1.modify k fun _ => v).join (t.root.split .through k).2).toList =
      t.root.toList.map (Entry.modifyAt k fun _ => v) := by
  have hhigh : ∀ e ∈ (t.root.split .through k).2.toList, e.key ≠ k := by
    intro e he
    have h := ((ht.mem_split_through k e).2.mp he).2
    grind
  rw [Tree.toList_join, Tree.toList_modify k _ (ht.sorted.split .through k).1,
    ← map_modifyAt_of_ne (fun _ => v) hhigh, ← List.map_append, Tree.toList_split]

/-- Putting a new entry between the two parts of a cut keeps a treap well formed, if its slot has
just been handed out. -/
lemma graft (ht : t.WellFormed) {k : κ} (hk : ∀ e ∈ t.root.toList, e.key ≠ k) (v : ν)
    (priority : UInt64) (drawn : ℕ) {slot : ℕ} {slots : Slots}
    (hslots : t.slots.take? = some (slot, slots)) :
    let parts := t.root.split .through k
    let node : Tree κ ν := .singleton { key := k, value := v, priority, slot }
    WellFormed { t with drawn, slots, root := (parts.1.join node).join parts.2 } := by
  have hs := ht.sorted.split .through k
  have hlow : ∀ e ∈ (t.root.split .through k).1.toList, e.key < k := by
    intro e he
    have h := (ht.mem_split_through k e).1.mp he
    have hne := hk e h.1
    grind
  have hhigh : ∀ e ∈ (t.root.split .through k).2.toList, k < e.key := fun e he =>
    ((ht.mem_split_through k e).2.mp he).2
  refine ⟨?_, ?_⟩
  · refine Tree.Sorted.join (Tree.Sorted.join hs.1 (List.pairwise_singleton _ _) ?_) hs.2 ?_
    · intro e he f hf
      rw [Tree.toList_singleton, List.mem_singleton] at hf
      rw [hf]
      exact hlow e he
    · intro e he f hf
      have hkf := hhigh f hf
      rw [Tree.toList_join, List.mem_append, Tree.toList_singleton, List.mem_singleton] at he
      rcases he with he | rfl
      · have hek := hlow e he
        grind
      · exact hkf
  · have hholds := ht.holds.take hslots
    rw [← Tree.toList_split .through k t.root] at hholds
    refine hholds.congr ?_
    simp [Tree.toList_join, List.perm_middle]

/-- The pairs after a new entry was put between the two parts of a cut. -/
lemma mem_graft (t : Treap κ ν) (k : κ) (v : ν) (priority : UInt64) (slot : ℕ) (p : κ × ν) :
    p ∈ (((t.root.split .through k).1.join (.singleton { key := k, value := v, priority, slot })).join
        (t.root.split .through k).2).toList.map (fun e => (e.key, e.value)) ↔
      p = (k, v) ∨ p ∈ t.toList := by
  rw [toList, ← Tree.toList_split .through k t.root]
  simp only [Tree.toList_join, Tree.toList_singleton, List.map_append, List.map_cons, List.map_nil,
    List.mem_append, List.mem_singleton]
  tauto

/-- **Insertion.**  It succeeds if the key is there already or a slot is left; then the new pair
takes the place of the old one of its key, and all else stays. -/
theorem insert_spec (ht : t.WellFormed) (k : κ) (v : ν)
    (room : t.contains k = true ∨ t.size < Slots.limit) :
    ∃ t', t.insert k v = .ok t' ∧ t'.WellFormed ∧
      ∀ p, p ∈ t'.toList ↔ p = (k, v) ∨ (p ∈ t.toList ∧ p.1 ≠ k) := by
  have hs := ht.sorted.split .through k
  rw [insert]
  simp only
  cases hfind : (t.root.split .through k).1.find? k with
  | some found =>
      obtain ⟨hfound, hkey⟩ := (Tree.find?_eq_some_iff hs.1).mp hfind
      have hroot := ((ht.mem_split_through k found).1.mp hfound).1
      have hlist := ht.toList_overwrite k v
      refine ⟨_, rfl, ⟨?_, ?_⟩, ?_⟩
      · rw [Tree.Sorted, hlist, List.pairwise_map]
        simp only [Entry.key_modifyAt]
        exact ht.sorted
      · rw [hlist, List.map_map]
        simpa [Function.comp_def] using ht.holds
      · intro p
        rw [toList, hlist, List.map_map, List.mem_map, toList, List.mem_map]
        constructor
        · rintro ⟨e, he, rfl⟩
          by_cases hk : e.key = k
          · exact Or.inl (by simp [Entry.modifyAt, hk])
          · exact Or.inr ⟨⟨e, he, by simp [Entry.modifyAt, hk]⟩, by simpa using hk⟩
        · rintro (rfl | ⟨⟨e, he, rfl⟩, hk⟩)
          · exact ⟨found, hroot, by simp [Entry.modifyAt, hkey]⟩
          · exact ⟨e, he, by simp [Entry.modifyAt_of_ne _ hk]⟩
  | none =>
      have hnew : ∀ e ∈ t.root.toList, e.key ≠ k := by
        intro e he hk
        refine (Tree.find?_eq_none_iff hs.1).mp hfind e ?_ hk
        exact (ht.mem_split_through k e).1.mpr ⟨he, by grind⟩
      have hne : ∀ p ∈ t.toList, p.1 ≠ k := by
        intro p hp
        obtain ⟨e, he, rfl⟩ := List.mem_map.mp hp
        exact hnew e he
      have hroom : t.size < Slots.limit := by
        refine room.resolve_left ?_
        intro h
        obtain ⟨w, hw⟩ := mem_keys.mp ((ht.contains_iff k).mp h)
        exact hne _ hw rfl
      rw [size, ht.holds.live_eq] at hroom
      obtain ⟨slot, slots, htake⟩ := ht.holds.exists_take hroom
      simp only [htake]
      refine ⟨_, rfl, ht.graft hnew v _ _ htake, ?_⟩
      intro p
      rw [toList, mem_graft]
      constructor
      · exact Or.imp_right fun hp => ⟨hp, hne p hp⟩
      · exact Or.imp_right And.left

/-- A new key is refused once all slots are taken. -/
lemma insert_full (ht : t.WellFormed) {k : κ} (v : ν) (hk : t.contains k = false)
    (hfull : Slots.limit ≤ t.size) : t.insert k v = .error .outOfSlots := by
  rw [← ht.isSome_find?_split, Option.isSome_eq_false_iff, Option.isNone_iff_eq_none] at hk
  rw [size, ht.holds.live_eq] at hfull
  rw [insert]
  simp only [hk, ht.holds.take?_eq_none hfull]

/-! ## Removal -/

/-- The entries between the two cuts that an erasure makes. -/
lemma split_split (ht : t.WellFormed) (k : κ) :
    let upTo := (t.root.split .through k).1
    (∀ e ∈ (upTo.split .below k).1.toList, e.key < k) ∧
      (∀ e ∈ (upTo.split .below k).2.toList, e.key = k) ∧
      (∀ e ∈ (t.root.split .through k).2.toList, k < e.key) ∧
      (upTo.split .below k).1.toList ++ (upTo.split .below k).2.toList ++
        (t.root.split .through k).2.toList = t.root.toList := by
  have hs := ht.sorted.split .through k
  refine ⟨?_, ?_, fun e he => ((ht.mem_split_through k e).2.mp he).2, ?_⟩
  · intro e he
    rw [Tree.toList_split_fst _ _ hs.1, List.mem_filter] at he
    simpa [Cut.takesLeft] using he.2
  · intro e he
    rw [Tree.toList_split_snd _ _ hs.1, List.mem_filter] at he
    have hle := ((ht.mem_split_through k e).1.mp he.1).2
    have hnlt : ¬ e.key < k := by simpa [Cut.takesLeft] using he.2
    grind
  · rw [Tree.toList_split, Tree.toList_split]

/-- **Removal.**  The pair of the key goes, and all else stays. -/
theorem erase_spec (ht : t.WellFormed) (k : κ) :
    (t.erase k).2.WellFormed ∧
      (∀ p, p ∈ (t.erase k).2.toList ↔ p ∈ t.toList ∧ p.1 ≠ k) ∧
      ∀ v, (t.erase k).1 = some v ↔ (k, v) ∈ t.toList := by
  obtain ⟨hlow, hsame, hhigh, hroot⟩ := ht.split_split k
  have hs := ht.sorted.split .through k
  have hs' := hs.1.split .below k
  have hsorted : ((((t.root.split .through k).1.split .below k).1).join
      (t.root.split .through k).2).Sorted := by
    refine Tree.Sorted.join hs'.1 hs.2 ?_
    intro e he f hf
    have hek := hlow e he
    have hkf := hhigh f hf
    grind
  have hmem : ∀ p : κ × ν, p ∈ ((((t.root.split .through k).1.split .below k).1).join
      (t.root.split .through k).2).toList.map (fun e => (e.key, e.value)) ↔
        p ∈ t.toList ∧ p.1 ≠ k := by
    intro p
    simp only [toList, ← hroot, Tree.toList_join, List.mem_map, List.mem_append]
    grind
  have hget : ∀ v, (k, v) ∈ t.toList ↔
      ∃ e ∈ ((t.root.split .through k).1.split .below k).2.toList, e.value = v := by
    intro v
    simp only [toList, ← hroot, List.mem_map, List.mem_append, Prod.mk.injEq]
    grind
  have hholds := ht.holds
  rw [← hroot] at hholds
  rw [erase]
  simp only
  cases hsub : ((t.root.split .through k).1.split .below k).2 with
  | leaf =>
      rw [hsub] at hholds hget
      refine ⟨⟨hsorted, ?_⟩, hmem, ?_⟩
      · simpa [Tree.toList_join, Tree.toList] using hholds
      · intro v
        simp [hget, Tree.toList]
  | node l e r =>
      rw [hsub] at hsame hholds hget
      have hlist := (hsub ▸ hs'.2 : (Tree.node l e r).Sorted).toList_eq_singleton hsame
      rw [hlist] at hholds hget
      refine ⟨⟨hsorted, ?_⟩, hmem, ?_⟩
      · refine Slots.Holds.give (hholds.congr ?_)
        simp [Tree.toList_join, List.perm_middle.symm]
      · intro v
        simp [hget]

end WellFormed

end Treap

end RegionLedger
