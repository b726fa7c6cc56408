import Mathlib.Tactic.Common
import RegionLedger.Treap.Tree

/-!
# Searching ordered trees

A tree is sorted if its keys ascend from left to right.  For a sorted tree every search is a
statement about the list of its entries, and so is a cut.  Nothing after this file has to look at
the shape of a tree again.

* `Tree.Sorted` — the keys ascend.
* `Tree.toList_split_fst`, `Tree.toList_split_snd` — a cut filters the entries.
* `Tree.find?_eq_some_iff`, `Tree.floor?_eq`, `Tree.higher?_eq`, `Tree.min?_eq`, `Tree.max?_eq` —
  what the searches find.
* `Tree.toList_modify` — a modification touches the entry of its key alone.
* `Tree.range_eq` — a range holds exactly the entries between its bounds.
-/

set_option linter.unusedSectionVars false

namespace RegionLedger

universe u v

variable {κ : Type u} {ν : Type v}

/-- The entry with its value replaced by its image, if its key is `k`. -/
def Entry.modifyAt [DecidableEq κ] (k : κ) (f : ν → ν) (e : Entry κ ν) : Entry κ ν :=
  if e.key = k then { e with value := f e.value } else e

@[simp] lemma Entry.key_modifyAt [DecidableEq κ] (k : κ) (f : ν → ν) (e : Entry κ ν) :
    (e.modifyAt k f).key = e.key := by
  rw [Entry.modifyAt]; split_ifs <;> rfl

@[simp] lemma Entry.slot_modifyAt [DecidableEq κ] (k : κ) (f : ν → ν) (e : Entry κ ν) :
    (e.modifyAt k f).slot = e.slot := by
  rw [Entry.modifyAt]; split_ifs <;> rfl

lemma Entry.modifyAt_of_ne [DecidableEq κ] {k : κ} {e : Entry κ ν} (f : ν → ν) (h : e.key ≠ k) :
    e.modifyAt k f = e := if_neg h

lemma map_modifyAt_of_ne [DecidableEq κ] {k : κ} (f : ν → ν) {s : List (Entry κ ν)}
    (h : ∀ e ∈ s, e.key ≠ k) : s.map (Entry.modifyAt k f) = s := by
  conv_rhs => rw [← List.map_id s]
  refine List.map_congr_left ?_
  intro e he
  exact Entry.modifyAt_of_ne f (h e he)

namespace Tree

@[simp] lemma toList_singleton (e : Entry κ ν) : (singleton e).toList = [e] := rfl

lemma min?_eq (t : Tree κ ν) : t.min? = t.toList.head? := by
  induction t with
  | leaf => rfl
  | node l e r ihl _ => simp [min?, toList, ihl, List.head?_append]

lemma max?_eq (t : Tree κ ν) : t.max? = t.toList.getLast? := by
  induction t with
  | leaf => rfl
  | node l e r _ ihr => simp [max?, toList, ihr, List.getLast?_append, List.getLast?_cons]

variable [LT κ]

/-- The keys ascend from left to right. -/
def Sorted (t : Tree κ ν) : Prop := t.toList.Pairwise fun e f => e.key < f.key

/-- Joined trees are sorted if the keys on the left come before those on the right. -/
lemma Sorted.join {l r : Tree κ ν} (hl : l.Sorted) (hr : r.Sorted)
    (hlr : ∀ e ∈ l.toList, ∀ f ∈ r.toList, e.key < f.key) : (l.join r).Sorted := by
  rw [Sorted, toList_join, List.pairwise_append]
  exact ⟨hl, hr, hlr⟩

variable [LE κ] [Std.IsLinearOrder κ] [Std.LawfulOrderLT κ]

/-- The root of a sorted tree separates the keys of its subtrees. -/
lemma sorted_node {l r : Tree κ ν} {e : Entry κ ν} :
    (node l e r).Sorted ↔ l.Sorted ∧ r.Sorted ∧ (∀ f ∈ l.toList, f.key < e.key) ∧
      ∀ f ∈ r.toList, e.key < f.key := by
  simp only [Sorted, toList, List.pairwise_append, List.pairwise_cons, List.mem_cons]
  constructor
  · rintro ⟨hl, ⟨her, hr⟩, hlr⟩
    exact ⟨hl, hr, fun f hf => hlr f hf e (Or.inl rfl), her⟩
  · rintro ⟨hl, hr, hle, her⟩
    refine ⟨hl, ⟨her, hr⟩, ?_⟩
    intro f hf g hg
    rcases hg with rfl | hg
    · exact hle f hf
    · have hfe := hle f hf
      have heg := her g hg
      grind

/-- Where all keys are equal, a sorted tree has no entry beside its root. -/
lemma Sorted.toList_eq_singleton {l r : Tree κ ν} {e : Entry κ ν} {k : κ}
    (h : (node l e r).Sorted) (hk : ∀ f ∈ (node l e r).toList, f.key = k) :
    (node l e r).toList = [e] := by
  obtain ⟨_, _, hle, her⟩ := sorted_node.mp h
  simp only [toList, List.mem_append, List.mem_cons] at hk
  have hl : l.toList = [] := by
    refine List.eq_nil_iff_forall_not_mem.mpr ?_
    intro f hf
    have hfe := hle f hf
    grind
  have hr : r.toList = [] := by
    refine List.eq_nil_iff_forall_not_mem.mpr ?_
    intro f hf
    have hef := her f hf
    grind
  rw [toList, hl, hr, List.nil_append]

end Tree

variable [LT κ] [DecidableLT κ] [LE κ] [DecidableLE κ] [Std.IsLinearOrder κ]
  [Std.LawfulOrderLT κ]

/-- A cut that takes a key into its left part takes every smaller one along. -/
lemma Cut.takesLeft_of_lt {mode : Cut} {c j k : κ} (hk : mode.takesLeft c k) (hjk : j < k) :
    mode.takesLeft c j := by
  cases mode <;> simp only [Cut.takesLeft, decide_eq_true_eq] at hk ⊢ <;> grind

/-- A range that has started by a key has started by every larger one. -/
lemma Bound.startsBy_of_lt {b : Bound κ} {j k : κ} (hj : b.startsBy j) (hjk : j < k) :
    b.startsBy k := by
  cases b <;> simp only [Bound.startsBy, decide_eq_true_eq] at hj ⊢ <;> grind

/-- A range that has not ended by a key has not ended by any smaller one. -/
lemma Bound.endsAfter_of_lt {b : Bound κ} {j k : κ} (hk : b.endsAfter k) (hjk : j < k) :
    b.endsAfter j := by
  cases b <;> simp only [Bound.endsAfter, decide_eq_true_eq] at hk ⊢ <;> grind

namespace Tree

/-! ## Cutting -/

/-- The left part of a cut holds the entries that the cut takes left. -/
lemma toList_split_fst (mode : Cut) (k : κ) {t : Tree κ ν} (ht : t.Sorted) :
    (t.split mode k).1.toList = t.toList.filter fun e => mode.takesLeft k e.key := by
  induction t with
  | leaf => rfl
  | node l e r ihl ihr =>
      obtain ⟨hl, hr, hle, her⟩ := sorted_node.mp ht
      rw [split]
      split_ifs with he
      · have hall : l.toList.filter (fun f => mode.takesLeft k f.key) = l.toList := by
          rw [List.filter_eq_self]
          intro f hf
          exact Cut.takesLeft_of_lt he (hle f hf)
        simp [toList, ihr hr, hall, he]
      · have hnone : r.toList.filter (fun f => mode.takesLeft k f.key) = [] := by
          rw [List.filter_eq_nil_iff]
          intro f hf h
          exact he (Cut.takesLeft_of_lt h (her f hf))
        simp [toList, ihl hl, hnone, he]

lemma toList_split_snd (mode : Cut) (k : κ) {t : Tree κ ν} (ht : t.Sorted) :
    (t.split mode k).2.toList = t.toList.filter fun e => !mode.takesLeft k e.key := by
  induction t with
  | leaf => rfl
  | node l e r ihl ihr =>
      obtain ⟨hl, hr, hle, her⟩ := sorted_node.mp ht
      rw [split]
      split_ifs with he
      · have hnone : l.toList.filter (fun f => !mode.takesLeft k f.key) = [] := by
          rw [List.filter_eq_nil_iff]
          intro f hf
          simp [Cut.takesLeft_of_lt he (hle f hf)]
        simp [toList, ihr hr, hnone, he]
      · have hall : r.toList.filter (fun f => !mode.takesLeft k f.key) = r.toList := by
          rw [List.filter_eq_self]
          intro f hf
          by_cases h : mode.takesLeft k f.key
          · exact absurd (Cut.takesLeft_of_lt h (her f hf)) he
          · simp [h]
        simp [toList, ihl hl, hall, he]

lemma Sorted.split {t : Tree κ ν} (ht : t.Sorted) (mode : Cut) (k : κ) :
    (t.split mode k).1.Sorted ∧ (t.split mode k).2.Sorted := by
  have h := ht
  rw [Sorted, ← toList_split mode k t, List.pairwise_append] at h
  exact ⟨h.1, h.2.1⟩

/-! ## Searching -/

/-- The floor of `k` is the last entry with a key up to `k`. -/
lemma floor?_eq (k : κ) {t : Tree κ ν} (ht : t.Sorted) :
    t.floor? k = (t.toList.filter fun e => e.key ≤ k).getLast? := by
  induction t with
  | leaf => rfl
  | node l e r ihl ihr =>
      obtain ⟨hl, hr, hle, her⟩ := sorted_node.mp ht
      rw [floor?]
      split_ifs with he
      · simp [toList, ihr hr, he, List.getLast?_append, List.getLast?_cons]
      · have hnone : r.toList.filter (fun f => decide (f.key ≤ k)) = [] := by
          rw [List.filter_eq_nil_iff]
          intro f hf
          have hef := her f hf
          grind
        simp [toList, ihl hl, he, hnone]

lemma higher?_eq (k : κ) {t : Tree κ ν} (ht : t.Sorted) :
    t.higher? k = (t.toList.filter fun e => k < e.key).head? := by
  induction t with
  | leaf => rfl
  | node l e r ihl ihr =>
      obtain ⟨hl, hr, hle, her⟩ := sorted_node.mp ht
      rw [higher?]
      split_ifs with he
      · simp [toList, ihl hl, he, List.head?_append]
      · have hnone : l.toList.filter (fun f => decide (k < f.key)) = [] := by
          rw [List.filter_eq_nil_iff]
          intro f hf
          have hfe := hle f hf
          grind
        simp [toList, ihr hr, he, hnone]

/-- The part of a tree from a bound on holds the entries that the range has started by. -/
lemma listFrom_eq (b : Bound κ) {t : Tree κ ν} (ht : t.Sorted) :
    t.listFrom b = t.toList.filter fun e => b.startsBy e.key := by
  induction t with
  | leaf => rfl
  | node l e r ihl ihr =>
      obtain ⟨hl, hr, hle, her⟩ := sorted_node.mp ht
      rw [listFrom]
      split_ifs with he
      · have hall : r.toList.filter (fun f => b.startsBy f.key) = r.toList := by
          rw [List.filter_eq_self]
          intro f hf
          exact Bound.startsBy_of_lt he (her f hf)
        simp [toList, ihl hl, hall, he]
      · have hnone : l.toList.filter (fun f => b.startsBy f.key) = [] := by
          rw [List.filter_eq_nil_iff]
          intro f hf h
          exact he (Bound.startsBy_of_lt h (hle f hf))
        simp [toList, ihr hr, hnone, he]

/-- Up to a bound, ascending entries end where the range ends. -/
lemma takeWhile_endsAfter (b : Bound κ) {s : List (Entry κ ν)}
    (hs : s.Pairwise fun e f => e.key < f.key) :
    s.takeWhile (fun e => b.endsAfter e.key) = s.filter fun e => b.endsAfter e.key := by
  induction s with
  | nil => rfl
  | cons e s ih =>
      rw [List.pairwise_cons] at hs
      rw [List.takeWhile_cons, List.filter_cons, ih hs.2]
      split_ifs with he
      · rfl
      · have hnone : s.filter (fun f => b.endsAfter f.key) = [] := by
          rw [List.filter_eq_nil_iff]
          intro f hf h
          exact he (Bound.endsAfter_of_lt h (hs.1 f hf))
        exact hnone.symm

/-- **A range holds exactly the entries between its bounds**, in ascending order. -/
lemma range_eq (first last : Bound κ) {t : Tree κ ν} (ht : t.Sorted) :
    t.range first last =
      t.toList.filter fun e => last.endsAfter e.key && first.startsBy e.key := by
  rw [range, listFrom_eq first ht, takeWhile_endsAfter last (ht.filter _), List.filter_filter]

section Keys

variable [DecidableEq κ]

/-- A search finds the entry of a key. -/
lemma find?_eq_some_iff {k : κ} {e : Entry κ ν} {t : Tree κ ν} (ht : t.Sorted) :
    t.find? k = some e ↔ e ∈ t.toList ∧ e.key = k := by
  induction t with
  | leaf => simp [find?, toList]
  | node l f r ihl ihr =>
      obtain ⟨hl, hr, hlf, hfr⟩ := sorted_node.mp ht
      rw [find?]
      simp only [toList, List.mem_append, List.mem_cons]
      split_ifs with hk hlt
      · constructor
        · rintro ⟨⟩
          exact ⟨Or.inr (Or.inl rfl), hk⟩
        · rintro ⟨he | rfl | he, rfl⟩
          · have hef := hlf e he
            grind
          · rfl
          · have hfe := hfr e he
            grind
      · rw [ihl hl]
        constructor
        · rintro ⟨he, hk⟩
          exact ⟨Or.inl he, hk⟩
        · rintro ⟨he | rfl | he, rfl⟩
          · exact ⟨he, rfl⟩
          · exact absurd rfl hk
          · have hfe := hfr e he
            grind
      · rw [ihr hr]
        constructor
        · rintro ⟨he, hk⟩
          exact ⟨Or.inr (Or.inr he), hk⟩
        · rintro ⟨he | rfl | he, rfl⟩
          · have hef := hlf e he
            grind
          · exact absurd rfl hk
          · exact ⟨he, rfl⟩

lemma find?_eq_none_iff {k : κ} {t : Tree κ ν} (ht : t.Sorted) :
    t.find? k = none ↔ ∀ e ∈ t.toList, e.key ≠ k := by
  rw [Option.eq_none_iff_forall_ne_some]
  constructor
  · intro h e he hk
    exact h e ((find?_eq_some_iff ht).mpr ⟨he, hk⟩)
  · intro h e hfind
    obtain ⟨he, hk⟩ := (find?_eq_some_iff ht).mp hfind
    exact h e he hk

/-- A modification touches the entry of its key alone. -/
lemma toList_modify (k : κ) (f : ν → ν) {t : Tree κ ν} (ht : t.Sorted) :
    (t.modify k f).toList = t.toList.map (Entry.modifyAt k f) := by
  induction t with
  | leaf => rfl
  | node l e r ihl ihr =>
      obtain ⟨hl, hr, hle, her⟩ := sorted_node.mp ht
      have left : ¬ k < e.key → ∀ g ∈ l.toList, g.key ≠ k := by
        intro h g hg
        have hge := hle g hg
        grind
      have right : k ≤ e.key → ∀ g ∈ r.toList, g.key ≠ k := by
        intro h g hg
        have heg := her g hg
        grind
      rw [modify]
      simp only [toList, List.map_append, List.map_cons]
      split_ifs with hk hlt
      · rw [toList, map_modifyAt_of_ne f (left (by grind)), map_modifyAt_of_ne f (right (by grind)),
          Entry.modifyAt, if_pos hk]
      · rw [toList, ihl hl, map_modifyAt_of_ne f (right (by grind)), Entry.modifyAt_of_ne f hk]
      · rw [toList, ihr hr, map_modifyAt_of_ne f (left hlt), Entry.modifyAt_of_ne f hk]

end Keys

end Tree

end RegionLedger
