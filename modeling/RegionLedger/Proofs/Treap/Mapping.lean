import Mathlib.Tactic.Common
import RegionLedger.Treap.Basic

/-!
# Treaps with other values

The shape of a treap depends on its keys and its draws and not on its values.  So replacing every
value by its image and changing the treap can be done in either order, and searches find the images.

* `Tree.map`, `Treap.map` — every value replaced by its image.
* `Tree.map_split`, `Tree.map_join` — the two operations that all changes go through.
* `Treap.insert_map`, `Treap.erase_map` — changes.
* `Treap.contains_map`, `Treap.floor?_map`, `Treap.range_map` — searches.
-/

set_option linter.unusedSectionVars false

namespace RegionLedger

universe u v w

variable {κ : Type u} {ν : Type v} {ω : Type w} (φ : ν → ω)

/-- The entry with its value replaced. -/
def Entry.map (e : Entry κ ν) : Entry κ ω :=
  { key := e.key, value := φ e.value, priority := e.priority, slot := e.slot }

namespace Tree

/-- The tree with every value replaced. -/
def map : Tree κ ν → Tree κ ω
  | leaf => leaf
  | node l e r => node l.map (e.map φ) r.map

lemma toList_map (t : Tree κ ν) : (t.map φ).toList = t.toList.map (Entry.map φ) := by
  induction t with
  | leaf => rfl
  | node l e r ihl ihr => rw [map, toList, toList, ihl, ihr, List.map_append, List.map_cons]

/-- **Joining** does not look at values.  The induction is on both trees, as in the definition. -/
theorem map_join (l r : Tree κ ν) : (join l r).map φ = join (l.map φ) (r.map φ) := by
  induction l generalizing r with
  | leaf => rfl
  | node ll e lr _ ihr =>
      induction r with
      | leaf => rw [join_leaf_right, map, map, join_leaf_right]
      | node rl f rr ihl _ =>
          rw [join_node_node, apply_ite (map φ)]
          show _ = join (node (ll.map φ) (e.map φ) (lr.map φ)) (node (rl.map φ) (f.map φ) (rr.map φ))
          rw [join_node_node]
          refine ite_congr rfl (fun _ => ?_) fun _ => ?_
          · rw [map, ihr]
            rfl
          · rw [map, ihl]
            rfl

section Ordered

variable [LT κ] [DecidableLT κ] [LE κ] [DecidableLE κ]

/-- **Cutting** does not look at values. -/
theorem map_split (mode : Cut) (k : κ) (t : Tree κ ν) :
    (t.map φ).split mode k = ((t.split mode k).1.map φ, (t.split mode k).2.map φ) := by
  induction t with
  | leaf => rfl
  | node l e r ihl ihr =>
      rw [map, split, split, ihl, ihr]
      show (if mode.takesLeft k e.key = true then _ else _) = _
      split_ifs <;> rfl

lemma floor?_map (k : κ) (t : Tree κ ν) : (t.map φ).floor? k = (t.floor? k).map (Entry.map φ) := by
  induction t with
  | leaf => rfl
  | node l e r ihl ihr =>
      rw [map, floor?, floor?, ihl, ihr, apply_ite (Option.map (Entry.map φ)), Option.map_or,
        Option.map_some]
      rfl

lemma listFrom_map (b : Bound κ) (t : Tree κ ν) :
    (t.map φ).listFrom b = (t.listFrom b).map (Entry.map φ) := by
  induction t with
  | leaf => rfl
  | node l e r ihl ihr =>
      rw [map, listFrom, listFrom, ihl, ihr, toList_map, apply_ite (List.map (Entry.map φ)),
        List.map_append, List.map_cons]
      rfl

lemma range_map (t : Tree κ ν) (first last : Bound κ) :
    (t.map φ).range first last = (t.range first last).map (Entry.map φ) := by
  rw [range, range, listFrom_map, List.takeWhile_map]
  rfl

variable [DecidableEq κ]

lemma find?_map (k : κ) (t : Tree κ ν) : (t.map φ).find? k = (t.find? k).map (Entry.map φ) := by
  induction t with
  | leaf => rfl
  | node l e r ihl ihr =>
      rw [map, find?, find?, ihl, ihr, apply_ite (Option.map (Entry.map φ)),
        apply_ite (Option.map (Entry.map φ))]
      rfl

/-- A value that is replaced does not matter. -/
lemma map_modify_const (k : κ) (v : ν) (t : Tree κ ν) :
    (t.modify k fun _ => v).map φ = (t.map φ).modify k fun _ => φ v := by
  induction t with
  | leaf => rfl
  | node l e r ihl ihr =>
      rw [map, modify, modify, ← ihl, ← ihr, apply_ite (map φ), apply_ite (map φ)]
      rfl

end Ordered

end Tree

namespace Treap

/-- The treap with every value replaced. -/
def map (t : Treap κ ν) : Treap κ ω :=
  { draws := t.draws, drawn := t.drawn, slots := t.slots, root := t.root.map φ }

/-- The values of entries, replaced. -/
lemma map_value_map (es : List (Entry κ ν)) :
    (es.map (Entry.map φ)).map (fun e => (e.key, e.value)) =
      (es.map fun e => (e.key, e.value)).map (Prod.map id φ) := by
  rw [List.map_map, List.map_map]
  rfl

variable [LT κ] [DecidableLT κ] [LE κ] [DecidableLE κ] [DecidableEq κ]

lemma contains_map (t : Treap κ ν) (k : κ) : (t.map φ).contains k = t.contains k := by
  show ((t.root.map φ).find? k).isSome = _
  rw [Tree.find?_map, Option.isSome_map]
  rfl

lemma floor?_map (t : Treap κ ν) (k : κ) : (t.map φ).floor? k = (t.floor? k).map (Prod.map id φ) := by
  show ((t.root.map φ).floor? k).map _ = ((t.root.floor? k).map _).map _
  rw [Tree.floor?_map, Option.map_map, Option.map_map]
  rfl

lemma range_map (t : Treap κ ν) (first last : Bound κ) :
    (t.map φ).range first last = (t.range first last).map (Prod.map id φ) := by
  show ((t.root.map φ).range first last).map _ = _
  rw [Tree.range_map, map_value_map]
  rfl

/-- **A key is stored** with the image of its value. -/
theorem insert_map (t : Treap κ ν) (k : κ) (v : ν) :
    (t.map φ).insert k (φ v) = (t.insert k v).map (map φ) := by
  rw [insert, insert]
  simp only [map, Tree.map_split, Tree.find?_map]
  cases (t.root.split .through k).1.find? k with
  | some e =>
      simp only [Option.map_some, Except.map, ← Tree.map_modify_const, ← Tree.map_join]
      rfl
  | none =>
      simp only [Option.map_none]
      cases t.slots.take? with
      | none => rfl
      | some taken =>
          have hnode : ∀ priority slot, Tree.singleton { key := k, value := φ v, priority, slot } =
              (Tree.singleton { key := k, value := v, priority, slot }).map φ := fun _ _ => rfl
          simp only [Except.map, hnode, ← Tree.map_join]
          rfl

/-- **A key is removed** with its value. -/
theorem erase_map (t : Treap κ ν) (k : κ) :
    (t.map φ).erase k = ((t.erase k).1.map φ, (t.erase k).2.map φ) := by
  rw [erase, erase]
  simp only [map, Tree.map_split, ← Tree.map_join]
  cases ((t.root.split .through k).1.split .below k).2 with
  | leaf => rfl
  | node l e r => rfl

end Treap

end RegionLedger
