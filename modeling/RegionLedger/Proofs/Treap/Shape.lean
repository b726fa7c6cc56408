import Mathlib.Data.List.Sort
import RegionLedger.Proofs.Treap.Linked

/-!
# The shape of a treap

A tree in which no priority on the left of a node exceeds that of the node, and every priority on the
right stays below it, is determined by its entries in order.  Cutting and joining keep to such trees,
ties of priorities included: of two equal ones the right root comes out on top.  So the shape of a
treap has no history beyond the priorities of its keys, and taking it apart and putting it together
again is taking it as it was.

* `Shape`, `Tree.shape` — a tree without its values and slots.
* `Shape.Heaped` — the order of priorities, with its two sides.
* `Shape.Heaped.eq_of_toList_eq` — there is one such shape for the entries in order.
* `Tree.Heaped.join`, `Tree.Heaped.split`, `Tree.Heaped.join_split` — cutting and joining.
* `Dealt`, `TreapCall.deal` — the priorities that calls deal out, call by call.
* `Treap.Shaped.call`, `Treap.Shaped.callAll` — calls keep the one shape of the priorities dealt.
* `Arena.Shows.deepest` — the height as it is measured in the arena.
* `LinkedTreap.calls_keep_shape` — all of it for any calls, over the tree and in the arena.
-/

set_option linter.unusedSectionVars false

namespace RegionLedger

/-! ## Shapes -/

/-- A binary tree of keys with their priorities. -/
inductive Shape (κ : Type) where
  /-- The empty shape. -/
  | leaf
  /-- A key between a left and a right part. -/
  | node (left : Shape κ) (key : κ) (priority : UInt64) (right : Shape κ)

variable {κ ν : Type}

namespace Shape

/-- The keys from left to right, with their priorities. -/
def toList : Shape κ → List (κ × UInt64)
  | leaf => []
  | node l k p r => l.toList ++ (k, p) :: r.toList

/-- The number of keys on the longest path from the root. -/
def height : Shape κ → ℕ
  | leaf => 0
  | node l _ _ r => max l.height r.height + 1

/-- The priority of each key is at least every priority on its left, and above every priority on its
right. -/
def Heaped : Shape κ → Prop
  | leaf => True
  | node l _ p r =>
      l.Heaped ∧ r.Heaped ∧ (∀ q ∈ l.toList, q.2 ≤ p) ∧ ∀ q ∈ r.toList, q.2 < p

/-- **Heap order leaves one shape for given keys in order.**  Where the roots of two shapes differ,
each lies to one side of the other, and the two sides do not agree on which priority is greater. -/
theorem Heaped.eq_of_toList_eq {s s' : Shape κ} (h : s.Heaped) (h' : s'.Heaped)
    (heq : s.toList = s'.toList) : s = s' := by
  induction s generalizing s' with
  | leaf =>
      cases s' with
      | leaf => rfl
      | node l k p r => simp [toList] at heq
  | node l k p r ihl ihr =>
      cases s' with
      | leaf => simp [toList] at heq
      | node l' k' p' r' =>
          obtain ⟨hl, hr, hlp, hrp⟩ := h
          obtain ⟨hl', hr', hlp', hrp'⟩ := h'
          rw [toList, toList, List.append_eq_append_iff] at heq
          rcases heq with ⟨between, hl'eq, hreq⟩ | ⟨between, hleq, hr'eq⟩
          · cases between with
            | nil =>
                rw [List.nil_append, List.cons.injEq, Prod.mk.injEq] at hreq
                obtain ⟨⟨rfl, rfl⟩, hreq⟩ := hreq
                rw [List.append_nil] at hl'eq
                rw [ihl hl hl' hl'eq.symm, ihr hr hr' hreq]
            | cons b between =>
                -- the root on the left lies to the left of the other root, which lies to its right
                rw [List.cons_append, List.cons.injEq] at hreq
                obtain ⟨rfl, hreq⟩ := hreq
                have hle := hlp' (k, p) (hl'eq ▸ by simp)
                have hlt := hrp (k', p') (hreq ▸ by simp)
                exact absurd hlt (UInt64.not_lt.mpr hle)
          · cases between with
            | nil =>
                rw [List.nil_append, List.cons.injEq, Prod.mk.injEq] at hr'eq
                obtain ⟨⟨rfl, rfl⟩, hr'eq⟩ := hr'eq
                rw [List.append_nil] at hleq
                rw [ihl hl hl' hleq, ihr hr hr' hr'eq.symm]
            | cons b between =>
                rw [List.cons_append, List.cons.injEq] at hr'eq
                obtain ⟨rfl, hr'eq⟩ := hr'eq
                have hle := hlp (k', p') (hleq ▸ by simp)
                have hlt := hrp' (k, p) (hr'eq ▸ by simp)
                exact absurd hlt (UInt64.not_lt.mpr hle)

end Shape

namespace Tree

/-- The tree without its values and slots. -/
def shape : Tree κ ν → Shape κ
  | leaf => .leaf
  | node l e r => .node l.shape e.key e.priority r.shape

lemma toList_shape (t : Tree κ ν) : t.shape.toList = t.toList.map fun e => (e.key, e.priority) := by
  induction t with
  | leaf => rfl
  | node l e r ihl ihr => rw [shape, Shape.toList, toList, ihl, ihr, List.map_append, List.map_cons]

lemma height_shape (t : Tree κ ν) : t.shape.height = t.height := by
  induction t with
  | leaf => rfl
  | node l e r ihl ihr => rw [shape, Shape.height, height, ihl, ihr]

lemma mem_shape {t : Tree κ ν} {k : κ} {p : UInt64} :
    (k, p) ∈ t.shape.toList ↔ ∃ e ∈ t.toList, e.key = k ∧ e.priority = p := by
  rw [toList_shape, List.mem_map]
  simp only [Prod.mk.injEq]

/-- The shape of the tree is in heap order. -/
def Heaped (t : Tree κ ν) : Prop := t.shape.Heaped

lemma heaped_node {l r : Tree κ ν} {e : Entry κ ν} :
    (node l e r).Heaped ↔ l.Heaped ∧ r.Heaped ∧ (∀ f ∈ l.toList, f.priority ≤ e.priority) ∧
      ∀ f ∈ r.toList, f.priority < e.priority := by
  simp only [Heaped, shape, Shape.Heaped, toList_shape, List.forall_mem_map]

/-- The root of a tree in heap order has the greatest priority. -/
lemma Heaped.le_root {l r : Tree κ ν} {e : Entry κ ν} (h : (node l e r).Heaped) :
    ∀ f ∈ (node l e r).toList, f.priority ≤ e.priority := by
  obtain ⟨-, -, hle, hlt⟩ := heaped_node.mp h
  intro f hf
  rw [toList, List.mem_append, List.mem_cons] at hf
  rcases hf with hf | rfl | hf
  · exact hle f hf
  · exact UInt64.le_refl _
  · exact UInt64.le_of_lt (hlt f hf)

/-- A tree is its shape filled with its entries. -/
lemma eq_of_shape_eq {t t' : Tree κ ν} (hshape : t.shape = t'.shape) (hlist : t.toList = t'.toList) :
    t = t' := by
  induction t generalizing t' with
  | leaf =>
      cases t' with
      | leaf => rfl
      | node l' e' r' => cases hshape
  | node l e r ihl ihr =>
      cases t' with
      | leaf => cases hshape
      | node l' e' r' =>
          obtain ⟨hl, -, -, hr⟩ := Shape.node.inj hshape
          have hlen : l.toList.length = l'.toList.length := by
            have h := congrArg (fun s => s.toList.length) hl
            simpa only [toList_shape, List.length_map] using h
          obtain ⟨hleft, hright⟩ := List.append_inj hlist hlen
          obtain ⟨rfl, hrest⟩ := List.cons.inj hright
          rw [ihl hl hleft, ihr hr hrest]

/-- **A tree in heap order is determined by its entries in order.** -/
theorem Heaped.eq_of_toList_eq {t t' : Tree κ ν} (h : t.Heaped) (h' : t'.Heaped)
    (heq : t.toList = t'.toList) : t = t' :=
  eq_of_shape_eq (Shape.Heaped.eq_of_toList_eq h h' (by rw [toList_shape, toList_shape, heq])) heq

/-! ## Cutting and joining -/

/-- **Joining keeps the heap order**, whatever the keys.  Of two roots with the same priority the
right one goes on top, since the left one may stand below it on the left. -/
theorem Heaped.join {l r : Tree κ ν} (hl : l.Heaped) (hr : r.Heaped) : (l.join r).Heaped := by
  induction l generalizing r with
  | leaf => exact hr
  | node ll e lr _ ihr =>
      induction r with
      | leaf => exact hl
      | node rl f rr ihl _ =>
          obtain ⟨hll, hlr, hle, hre⟩ := heaped_node.mp hl
          obtain ⟨hrl, hrr, hlf, hrf⟩ := heaped_node.mp hr
          rw [join_node_node]
          split_ifs with hlt
          · refine heaped_node.mpr ⟨hll, ihr hlr hr, hle, ?_⟩
            intro g hg
            rw [toList_join, List.mem_append] at hg
            rcases hg with hg | hg
            · exact hre g hg
            · exact UInt64.lt_of_le_of_lt (hr.le_root g hg) hlt
          · refine heaped_node.mpr ⟨ihl hrl, hrr, ?_, hrf⟩
            intro g hg
            rw [toList_join, List.mem_append] at hg
            rcases hg with hg | hg
            · exact UInt64.le_trans (hl.le_root g hg) (UInt64.not_lt.mp hlt)
            · exact hlf g hg

lemma heaped_singleton (e : Entry κ ν) : (singleton e).Heaped :=
  heaped_node.mpr ⟨trivial, trivial, by simp [toList], by simp [toList]⟩

section Ordered

variable [LT κ] [DecidableLT κ] [LE κ] [DecidableLE κ]

/-- The parts of a cut have no entries of their own. -/
lemma mem_of_mem_split {mode : Cut} {k : κ} {t : Tree κ ν} {e : Entry κ ν}
    (he : e ∈ (t.split mode k).1.toList ∨ e ∈ (t.split mode k).2.toList) : e ∈ t.toList := by
  rw [← toList_split mode k t, List.mem_append]
  exact he

/-- **Cutting keeps the heap order** in both parts. -/
theorem Heaped.split {t : Tree κ ν} (h : t.Heaped) (mode : Cut) (k : κ) :
    (t.split mode k).1.Heaped ∧ (t.split mode k).2.Heaped := by
  induction t with
  | leaf => exact ⟨trivial, trivial⟩
  | node l e r ihl ihr =>
      obtain ⟨hl, hr, hle, hre⟩ := heaped_node.mp h
      rw [Tree.split]
      split_ifs
      · refine ⟨heaped_node.mpr ⟨hl, (ihr hr).1, hle, ?_⟩, (ihr hr).2⟩
        exact fun f hf => hre f (mem_of_mem_split (.inl hf))
      · refine ⟨(ihl hl).1, heaped_node.mpr ⟨(ihl hl).2, hr, ?_, hre⟩⟩
        exact fun f hf => hle f (mem_of_mem_split (.inr hf))

/-- **Cutting a tree in heap order and joining its parts gives the tree back**, with its shape. -/
theorem Heaped.join_split {t : Tree κ ν} (h : t.Heaped) (mode : Cut) (k : κ) :
    (t.split mode k).1.join (t.split mode k).2 = t := by
  have hparts := h.split mode k
  refine (hparts.1.join hparts.2).eq_of_toList_eq h ?_
  rw [toList_join, toList_split]

variable [DecidableEq κ]

/-- A change of a value does not show in the shape. -/
lemma shape_modify (k : κ) (f : ν → ν) (t : Tree κ ν) : (t.modify k f).shape = t.shape := by
  induction t with
  | leaf => rfl
  | node l e r ihl ihr =>
      rw [modify]
      split_ifs
      · rfl
      · rw [shape, shape, ihl]
      · rw [shape, shape, ihr]

lemma Heaped.modify {t : Tree κ ν} (h : t.Heaped) (k : κ) (f : ν → ν) : (t.modify k f).Heaped := by
  rw [Heaped, shape_modify]
  exact h

/-- **Overwriting a value between a cut and a join does not show in the shape.** -/
theorem Heaped.shape_overwrite {t : Tree κ ν} (h : t.Heaped) (mode : Cut) (k : κ) (f : ν → ν) :
    (((t.split mode k).1.modify k f).join (t.split mode k).2).shape = t.shape := by
  have hparts := h.split mode k
  refine Shape.Heaped.eq_of_toList_eq ((hparts.1.modify k f).join hparts.2) h ?_
  conv_rhs => rw [← h.join_split mode k]
  rw [toList_shape, toList_shape, toList_join, toList_join, List.map_append, List.map_append,
    ← toList_shape, shape_modify, toList_shape]

end Ordered

end Tree

/-! ## Priorities dealt -/

variable [DecidableEq κ]

/-- What calls have dealt out: the number of draws made, and the priority of each key. -/
structure Dealt (κ : Type) where
  /-- The number of draws made so far. -/
  drawn : ℕ := 0
  /-- The priority of each key. -/
  priorities : Finmap fun _ : κ => UInt64 := ∅

namespace TreapCall

/-- What a call deals out: a new key gets the next draw, and a key that is there keeps what it has.
No other call draws. -/
def deal (draws : Draws) (d : Dealt κ) : TreapCall κ ν → Dealt κ
  | insert key _ =>
      if key ∈ d.priorities then d
      else { drawn := d.drawn + 1, priorities := d.priorities.insert key (draws d.drawn) }
  | erase key => { d with priorities := d.priorities.erase key }
  | modify _ _ => d
  | clear => { d with priorities := ∅ }

/-- What several calls deal out. -/
def dealAll (draws : Draws) (d : Dealt κ) (cs : List (TreapCall κ ν)) : Dealt κ :=
  cs.foldl (deal draws) d

end TreapCall

/-- The shape is a search tree over the keys of `priorities`, and in heap order by them. -/
structure Shape.Canonical [LT κ] (s : Shape κ) (priorities : Finmap fun _ : κ => UInt64) : Prop where
  sorted : s.toList.Pairwise fun p q => p.1 < q.1
  heaped : s.Heaped
  mem_iff : ∀ p, p ∈ s.toList ↔ priorities.lookup p.1 = some p.2

variable [LT κ] [DecidableLT κ] [LE κ] [DecidableLE κ] [Std.IsLinearOrder κ]
  [Std.LawfulOrderLT κ]

/-- **There is one shape for given priorities.** -/
theorem Shape.Canonical.unique {s s' : Shape κ} {priorities : Finmap fun _ : κ => UInt64}
    (h : s.Canonical priorities) (h' : s'.Canonical priorities) : s = s' := by
  have hirrefl : Std.Irrefl fun p q : κ × UInt64 => p.1 < q.1 := ⟨fun p => by grind⟩
  have hantisymm : Std.Antisymm fun p q : κ × UInt64 => p.1 < q.1 := ⟨fun p q => by grind⟩
  refine h.heaped.eq_of_toList_eq h'.heaped ?_
  refine h.sorted.eq_of_mem_iff h'.sorted ?_
  intro p
  rw [h.mem_iff, h'.mem_iff]

namespace Treap

/-- The treap has made the draws, and its shape is the one of the priorities. -/
structure Shaped (t : Treap κ ν) (draws : Draws) (d : Dealt κ) : Prop where
  draws : t.draws = draws
  drawn : t.drawn = d.drawn
  shape : t.root.shape.Canonical d.priorities

lemma shaped_empty (draws : Draws) : (empty draws : Treap κ ν).Shaped draws {} where
  draws := rfl
  drawn := rfl
  shape := ⟨List.Pairwise.nil, trivial, fun p => by simp [empty, Tree.shape, Shape.toList]⟩

namespace Shaped

variable {t t' : Treap κ ν} {draws : Draws} {d : Dealt κ}

lemma heaped (h : t.Shaped draws d) : t.root.Heaped := h.shape.heaped

lemma lookup_eq_some_iff (h : t.Shaped draws d) (k : κ) (p : UInt64) :
    d.priorities.lookup k = some p ↔ ∃ e ∈ t.root.toList, e.key = k ∧ e.priority = p := by
  rw [← Tree.mem_shape, h.shape.mem_iff]

/-- The keys of the treap are those that have a priority. -/
lemma mem_priorities_iff (h : t.Shaped draws d) (ht : t.WellFormed) (k : κ) :
    k ∈ d.priorities ↔ t.contains k = true := by
  rw [contains, Option.isSome_iff_exists, Finmap.mem_iff]
  simp only [Tree.find?_eq_some_iff ht.sorted, h.lookup_eq_some_iff]
  grind

/-- A search below a cut finds a key exactly if it has a priority. -/
lemma find?_split_isSome (h : t.Shaped draws d) (ht : t.WellFormed) (k : κ) :
    ((t.root.split .through k).1.find? k).isSome = true ↔ k ∈ d.priorities := by
  rw [ht.isSome_find?_split, h.mem_priorities_iff ht]

/-- A tree with entries in ascending order has the shape of its priorities once it is in heap
order. -/
lemma of_heaped {root : Tree κ ν} {priorities : Finmap fun _ : κ => UInt64} (hsorted : root.Sorted)
    (hheaped : root.Heaped)
    (hmem : ∀ k p, (∃ e ∈ root.toList, e.key = k ∧ e.priority = p) ↔
      priorities.lookup k = some p) : root.shape.Canonical priorities where
  sorted := by
    rw [Tree.toList_shape, List.pairwise_map]
    exact hsorted
  heaped := hheaped
  mem_iff p := by rw [Tree.mem_shape, hmem]

/-! ## One call -/

/-- **Overwriting the value of a key** keeps the shape, and makes no draw. -/
lemma overwrite (h : t.Shaped draws d) (ht : t.WellFormed) {k : κ} (hk : t.contains k = true)
    (v : ν) :
    ∃ t', t.insert k v = .ok t' ∧ t'.draws = t.draws ∧ t'.drawn = t.drawn ∧
      t'.root.shape = t.root.shape := by
  rw [← h.mem_priorities_iff ht, ← h.find?_split_isSome ht] at hk
  obtain ⟨e, he⟩ := Option.isSome_iff_exists.mp hk
  rw [Treap.insert]
  simp only [he]
  exact ⟨_, rfl, rfl, rfl, h.heaped.shape_overwrite .through k _⟩

/-- **Removing a key that is not there** changes nothing. -/
lemma erase_absent (h : t.Shaped draws d) (ht : t.WellFormed) {k : κ} (hk : t.contains k = false) :
    t.erase k = (none, t) := by
  have hnone : ∀ e ∈ t.root.toList, e.key ≠ k := by
    rw [contains, Option.isSome_eq_false_iff, Option.isNone_iff_eq_none,
      Tree.find?_eq_none_iff ht.sorted] at hk
    exact hk
  have hparts := h.heaped.split .through k
  have hcut := hparts.1.join_split .below k
  obtain ⟨-, hsame, -, -⟩ := ht.split_split k
  rw [Treap.erase]
  simp only
  cases hsub : ((t.root.split .through k).1.split .below k).2 with
  | leaf =>
      rw [hsub, Tree.join_leaf_right] at hcut
      simp only
      rw [hcut, h.heaped.join_split]
  | node l e r =>
      have he : e ∈ ((t.root.split .through k).1.split .below k).2.toList := by
        simp [hsub, Tree.toList]
      refine absurd (hsame e he) (hnone e ?_)
      exact Tree.mem_of_mem_split (.inl (Tree.mem_of_mem_split (.inr he)))

/-- Storing under a key deals out the next draw if the key is new, and nothing else. -/
lemma insert (h : t.Shaped draws d) (ht : t.WellFormed) {k : κ} {v : ν} (ht' : t'.WellFormed)
    (hinsert : t.insert k v = .ok t') :
    t'.Shaped draws ((TreapCall.insert k v).deal draws d) := by
  have hfound := h.find?_split_isSome ht k
  have hparts := h.heaped.split .through k
  rw [Treap.insert] at hinsert
  simp only at hinsert
  cases hfind : (t.root.split .through k).1.find? k with
  | some e =>
      simp only [hfind, Except.ok.injEq] at hinsert
      subst hinsert
      rw [hfind, Option.isSome_some, eq_self, true_iff] at hfound
      rw [TreapCall.deal, if_pos hfound]
      refine ⟨h.draws, h.drawn, ?_⟩
      rw [h.heaped.shape_overwrite]
      exact h.shape
  | none =>
      rw [hfind, Option.isSome_none, Bool.false_eq_true, false_iff] at hfound
      rw [TreapCall.deal, if_neg hfound]
      simp only [hfind] at hinsert
      cases htake : t.slots.take? with
      | none => simp only [htake, reduceCtorEq] at hinsert
      | some taken =>
          simp only [htake, Except.ok.injEq] at hinsert
          subst hinsert
          refine ⟨h.draws, congrArg (· + 1) h.drawn, of_heaped ht'.sorted ?_ ?_⟩
          · exact (hparts.1.join (Tree.heaped_singleton _)).join hparts.2
          · intro j p
            have hold := h.lookup_eq_some_iff j p
            rw [← Tree.toList_split .through k t.root] at hold
            simp only [Tree.toList_join, Tree.toList_singleton, List.mem_append,
              List.mem_singleton] at hold ⊢
            by_cases hj : j = k
            · subst hj
              rw [Finmap.lookup_eq_none.mpr hfound] at hold
              rw [Finmap.lookup_insert, Option.some.injEq, h.draws, h.drawn]
              constructor
              · rintro ⟨e, (he | rfl) | he, hkey, hp⟩
                · exact absurd (hold.mpr ⟨e, .inl he, hkey, hp⟩) (Option.some_ne_none p).symm
                · exact hp
                · exact absurd (hold.mpr ⟨e, .inr he, hkey, hp⟩) (Option.some_ne_none p).symm
              · exact fun hp => ⟨_, .inl (.inr rfl), rfl, hp⟩
            · rw [Finmap.lookup_insert_of_ne _ hj, hold]
              grind

/-- Removing a key takes its priority away and makes no draw. -/
lemma erase (h : t.Shaped draws d) (ht : t.WellFormed) (k : κ) :
    (t.erase k).2.Shaped draws ((TreapCall.erase k : TreapCall κ ν).deal draws d) := by
  obtain ⟨hlow, hsame, hhigh, hroot⟩ := ht.split_split k
  have hparts := h.heaped.split .through k
  have hparts' := hparts.1.split .below k
  have hshape : ((((t.root.split .through k).1.split .below k).1).join
      (t.root.split .through k).2).shape.Canonical (d.priorities.erase k) := by
    refine of_heaped ?_ (hparts'.1.join hparts.2) ?_
    · refine ((ht.sorted.split .through k).1.split .below k).1.join (ht.sorted.split .through k).2 ?_
      intro e he f hf
      have hek := hlow e he
      have hkf := hhigh f hf
      grind
    · intro j p
      have hold := h.lookup_eq_some_iff j p
      rw [← hroot] at hold
      simp only [Tree.toList_join, List.mem_append] at hold ⊢
      by_cases hj : j = k
      · subst hj
        rw [Finmap.lookup_erase]
        grind
      · rw [Finmap.lookup_erase_ne hj, hold]
        grind
  rw [Treap.erase]
  simp only
  cases ((t.root.split .through k).1.split .below k).2 with
  | leaf => exact ⟨h.draws, h.drawn, hshape⟩
  | node l e r => exact ⟨h.draws, h.drawn, hshape⟩

/-- **A call keeps the one shape of the priorities dealt.** -/
theorem call (h : t.Shaped draws d) (ht : t.WellFormed) (ht' : t'.WellFormed) {c : TreapCall κ ν}
    {answer : Option ν} (hcall : t.call c = .ok (answer, t')) : t'.Shaped draws (c.deal draws d) := by
  cases c with
  | insert k v =>
      rw [Treap.call] at hcall
      cases hinsert : t.insert k v with
      | error e =>
          rw [hinsert] at hcall
          cases hcall
      | ok t₁ =>
          rw [hinsert] at hcall
          cases hcall
          exact h.insert ht ht' hinsert
  | erase k =>
      rw [Treap.call] at hcall
      have herase := h.erase ht k
      rw [Except.ok.inj hcall] at herase
      exact herase
  | modify k f =>
      cases hcall
      refine ⟨h.draws, h.drawn, ?_⟩
      rw [modify, Tree.shape_modify]
      exact h.shape
  | clear =>
      cases hcall
      exact ⟨h.draws, h.drawn, (shaped_empty draws).shape⟩

/-! ## Any calls -/

/-- **Calls keep the one shape of the priorities dealt.** -/
theorem callAll {m : Finmap fun _ : κ => ν} (h : t.Shaped draws d) (hm : t.Denotes m)
    (cs : List (TreapCall κ ν)) (hfit : TreapCall.Fit m cs) :
    ∃ t', t.callAll cs = .ok ((TreapCall.onAll m cs).1, t') ∧
      t'.Shaped draws (TreapCall.dealAll draws d cs) := by
  induction cs generalizing t m d with
  | nil => exact ⟨t, rfl, h⟩
  | cons c cs ih =>
      obtain ⟨t₁, hcall, hm₁⟩ := hm.call c hfit.head
      obtain ⟨t', hcalls, h'⟩ := ih (h.call hm.wellFormed hm₁.wellFormed hcall) hm₁ hfit.tail
      refine ⟨t', ?_, h'⟩
      rw [callAll_cons hcall, hcalls]
      rfl

end Shaped

end Treap

/-! ## The arena -/

namespace Arena

variable {a : Arena κ ν} {t : Tree κ ν}

/-- **Measuring a subtree that waits on the stack** takes as many steps as it has entries.  The
depth of a node on the stack is at most one below the greatest seen, which is that of its parent. -/
lemma Shows.deepest (h : a.Shows t) (fuel : ℕ) {best depth : ℕ} (hdepth : depth ≤ best)
    (stack : List (ℕ × ℕ)) :
    a.deepest (fuel + t.slots.length) best ((t.link.map (·, depth + 1)).toList ++ stack) =
      a.deepest fuel (max best (depth + t.height)) stack := by
  induction t generalizing fuel best depth stack with
  | leaf => simp [Tree.height, hdepth]
  | node l e r ihl ihr =>
      obtain ⟨hread, hl, hr⟩ := h
      have hfuel : fuel + (Tree.node l e r).slots.length =
          fuel + l.slots.length + r.slots.length + 1 := by
        simp only [Tree.slots_node, List.length_append, List.length_cons]
        omega
      rw [hfuel, Tree.link_node, Option.map_some, Option.toList_some, List.singleton_append,
        Arena.deepest, hread]
      simp only [Option.bind_eq_bind, Option.bind_some, Entry.node]
      rw [ihr hr _ (by omega), ihl hl _ (by omega), Tree.height]
      congr 1
      omega

end Arena

namespace LinkedTreap

variable {a : LinkedTreap κ ν} {t : Treap κ ν}

/-- **The height measured in the arena is that of the tree.** -/
theorem Mirrors.height_eq (h : a.Mirrors t) (ht : t.WellFormed) : a.height = some t.height := by
  obtain ⟨fuel, hfuel⟩ := Nat.exists_eq_add_of_le' (h.length_le ht)
  have hdeepest := h.shows.deepest fuel (Nat.le_refl 0) []
  rw [List.append_nil, ← hfuel] at hdeepest
  rw [LinkedTreap.height, h.root, hdeepest, Treap.height, Nat.zero_add, Nat.zero_max]
  cases fuel <;> rfl

/-- Cutting along the links and joining the parts brings every node back to where it was. -/
theorem Mirrors.merge_split (h : a.Mirrors t) (ht : t.WellFormed) (hheaped : t.root.Heaped)
    (mode : Cut) (k : κ) :
    ∃ a₁ a₂ low high,
      Arena.split mode k a.arena.cells.size a.arena a.root = some (a₁, low, high) ∧
      Arena.merge a₁.cells.size a₁ low high = some (a₂, a.root) ∧ a₂.Shows t.root := by
  have hparts : t.root.split mode k = ((t.root.split mode k).1, (t.root.split mode k).2) := rfl
  obtain ⟨hnodup, -, a₁, hsplit, hl, hr, -⟩ := h.cut ht hparts
  rw [← Tree.slots_join] at hnodup
  obtain ⟨a₂, hmerge, -, hshows⟩ := hl.merge hr hnodup
  rw [hheaped.join_split] at hmerge hshows
  exact ⟨a₁, a₂, _, _, hsplit, h.root ▸ hmerge, hshows⟩

/-- **The shape of a treap is canonical.**  Whatever the draws, after any calls that never make more
keys than there are slots, over the tree and in the arena alike: the draws made and the shape are
those of the priorities dealt, and no other shape is in order by these priorities.  Hence cutting
the treap anywhere and joining it gives it back, overwriting a value or removing a key that is not
there changes neither the shape nor the draws, and the height is that of the one shape. -/
theorem calls_keep_shape (draws : Draws) (cs : List (TreapCall κ ν))
    (hfit : TreapCall.Fit ∅ cs) :
    ∃ t a, (Treap.empty draws).callAll cs = .ok ((TreapCall.onAll ∅ cs).1, t) ∧
      (LinkedTreap.empty draws).callAll cs = some ((TreapCall.onAll ∅ cs).1.map .ok, a) ∧
      a.Mirrors t ∧
      t.Shaped draws (TreapCall.dealAll draws {} cs) ∧
      (∀ s : Shape κ, s.Canonical (TreapCall.dealAll draws {} cs).priorities →
        s = t.root.shape ∧ t.height = s.height ∧ a.height = some s.height) ∧
      (∀ mode k, (t.root.split mode k).1.join (t.root.split mode k).2 = t.root ∧
        ∃ a₁ a₂ low high,
          Arena.split mode k a.arena.cells.size a.arena a.root = some (a₁, low, high) ∧
          Arena.merge a₁.cells.size a₁ low high = some (a₂, a.root) ∧ a₂.Shows t.root) ∧
      (∀ k v, t.contains k = true → ∃ t' a', t.insert k v = .ok t' ∧
        a.insert k v = some (.ok (), a') ∧ a'.Mirrors t' ∧ t'.draws = t.draws ∧
        t'.drawn = t.drawn ∧ t'.root.shape = t.root.shape) ∧
      ∀ k, t.contains k = false → t.erase k = (none, t) ∧
        ∃ a', a.erase k = some (none, a') ∧ a'.Mirrors t := by
  obtain ⟨t, a, hcalls, hruns, h, hm⟩ :=
    (mirrors_empty draws).callAll (Treap.denotes_empty draws) cs hfit
  obtain ⟨t', hcalls', hshaped⟩ :=
    (Treap.shaped_empty draws).callAll (Treap.denotes_empty draws) cs hfit
  rw [hcalls, Except.ok.injEq, Prod.mk.injEq] at hcalls'
  obtain ⟨-, rfl⟩ := hcalls'
  have ht := hm.wellFormed
  refine ⟨t, a, hcalls, hruns, h, hshaped, ?_, ?_, ?_, ?_⟩
  · intro s hs
    have hs' := hs.unique hshaped.shape
    rw [h.height_eq ht, hs', Tree.height_shape]
    exact ⟨rfl, rfl, rfl⟩
  · intro mode k
    exact ⟨hshaped.heaped.join_split mode k, h.merge_split ht hshaped.heaped mode k⟩
  · intro k v hk
    obtain ⟨t', hinsert, hsame⟩ := hshaped.overwrite ht hk v
    obtain ⟨a', hrun, ha'⟩ := h.insert ht k v hinsert
    exact ⟨t', a', hinsert, hrun, ha', hsame⟩
  · intro k hk
    have herase := hshaped.erase_absent ht hk
    obtain ⟨a', hrun, ha'⟩ := h.erase ht k
    rw [herase] at hrun ha'
    exact ⟨herase, a', hrun, ha'⟩

/-- Calls that all draw the same priority, one of them for a key that is there. -/
def ties : List (TreapCall UInt64 ℕ) := [.insert 5 1, .insert 9 2, .insert 7 3, .insert 9 4, .erase 6]

/-- Of equal priorities the rightmost is the root, and the others hang down on its left. -/
theorem ties_lean_left : TreapCall.Fit ∅ ties ∧
    ∃ t a, (LinkedTreap.empty fun _ => 7).callAll ties =
        some ([none, none, none, none, none].map .ok, a) ∧
      a.Mirrors t ∧ t.drawn = 3 ∧ a.height = some 3 ∧
      t.root.shape = .node (.node (.node .leaf 5 7 .leaf) 7 7 .leaf) 9 7 .leaf := by
  have hfit : TreapCall.Fit ∅ ties := TreapCall.fit_of_length_le (by decide)
  obtain ⟨t, a, -, hruns, h, hshaped, hunique, -⟩ := calls_keep_shape (fun _ => 7) ties hfit
  have hdealt : TreapCall.dealAll (fun _ => 7) {} ties =
      { drawn := 3, priorities := [⟨7, 7⟩, ⟨9, 7⟩, ⟨5, 7⟩].toFinmap } := rfl
  obtain ⟨hshape, -, hheight⟩ := hunique
    (.node (.node (.node .leaf 5 7 .leaf) 7 7 .leaf) 9 7 .leaf) <| by
      rw [hdealt]
      refine ⟨by decide, by simp [Shape.Heaped, Shape.toList], ?_⟩
      rintro ⟨k, p⟩
      rw [Finmap.dlookup_list_toFinmap, ← Option.mem_def,
        List.mem_dlookup_iff (by simp [List.nodupKeys_cons])]
      simp only [Shape.toList, List.nil_append, List.cons_append, List.mem_cons, Prod.mk.injEq,
        List.not_mem_nil, or_false, Sigma.mk.injEq, heq_eq_eq]
      tauto
  exact ⟨hfit, t, a, hruns, h, hshaped.drawn.trans (by rw [hdealt]), hheight, hshape.symm⟩

end LinkedTreap

end RegionLedger
