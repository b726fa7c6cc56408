import RegionLedger.Treap.Arena
import RegionLedger.Proofs.Treap.Contents

/-!
# Trees in an arena

An arena shows a tree if the slot of every entry holds its node, linked to the roots of its two
subtrees.  Where the slots of a tree are all different, cutting and joining it along the links does
to the arena what it does to the tree, and touches no other slot.

* `Arena.Shows` — the arena shows a tree.
* `Arena.Frame` — two arenas differ in the nodes of some slots only.
* `Arena.Shows.split`, `Arena.Shows.merge`, `Arena.Shows.modify` — changes.
* `Arena.Shows.find`, `Arena.Shows.floor`, `Arena.Shows.higher` — searches.
* `Arena.Awaits` — the stack of a traversal, and the entries still to come.
-/

set_option linter.unusedSectionVars false

namespace RegionLedger

variable {κ ν : Type}

namespace Tree

/-- The slot of the root. -/
def link : Tree κ ν → Option ℕ
  | leaf => none
  | node _ e _ => some e.slot

@[simp] lemma link_leaf : (leaf : Tree κ ν).link = none := rfl

@[simp] lemma link_node (l r : Tree κ ν) (e : Entry κ ν) : (node l e r).link = some e.slot := rfl

/-- The slots of the entries, from left to right. -/
def slots (t : Tree κ ν) : List ℕ := t.toList.map (·.slot)

@[simp] lemma slots_leaf : (leaf : Tree κ ν).slots = [] := rfl

@[simp] lemma slots_node (l r : Tree κ ν) (e : Entry κ ν) :
    (node l e r).slots = l.slots ++ e.slot :: r.slots := by
  simp [slots, toList]

lemma slots_join (l r : Tree κ ν) : (l.join r).slots = l.slots ++ r.slots := by
  simp [slots, toList_join]

lemma mem_slots {t : Tree κ ν} {e : Entry κ ν} (h : e ∈ t.toList) : e.slot ∈ t.slots :=
  List.mem_map_of_mem h

/-- Where slots are different, the root has none of those below it, and these are different too. -/
lemma nodup_node {l r : Tree κ ν} {e : Entry κ ν} (h : (node l e r).slots.Nodup) :
    l.slots.Nodup ∧ r.slots.Nodup ∧ e.slot ∉ l.slots ∧ e.slot ∉ r.slots ∧
      l.slots.Disjoint r.slots := by
  rw [slots_node, List.nodup_append', List.nodup_cons, List.disjoint_cons_right] at h
  exact ⟨h.1, h.2.1.2, h.2.2.1, h.2.1.1, h.2.2.2⟩

/-- Fuel for a tree is fuel for its root and for each of its subtrees. -/
lemma exists_fuel {l r : Tree κ ν} {e : Entry κ ν} {n : ℕ} (h : (node l e r).slots.length ≤ n) :
    ∃ m, n = m + 1 ∧ l.slots.length ≤ m ∧ r.slots.length ≤ m := by
  rw [slots_node, List.length_append, List.length_cons] at h
  exact ⟨n - 1, by omega, by omega, by omega⟩

section Ordered

variable [LT κ] [DecidableLT κ] [LE κ] [DecidableLE κ]

lemma slots_split (mode : Cut) (k : κ) (t : Tree κ ν) :
    (t.split mode k).1.slots ++ (t.split mode k).2.slots = t.slots := by
  rw [slots, slots, ← List.map_append, toList_split, slots]

lemma slots_of_split {mode : Cut} {k : κ} {t l r : Tree κ ν} (h : t.split mode k = (l, r)) :
    l.slots ++ r.slots = t.slots := by
  rw [← slots_split mode k t, h]

lemma slots_split_fst_subset (mode : Cut) (k : κ) (t : Tree κ ν) :
    (t.split mode k).1.slots ⊆ t.slots := by
  rw [← slots_split mode k t]
  exact List.subset_append_left _ _

lemma slots_split_snd_subset (mode : Cut) (k : κ) (t : Tree κ ν) :
    (t.split mode k).2.slots ⊆ t.slots := by
  rw [← slots_split mode k t]
  exact List.subset_append_right _ _

lemma listFrom_unbounded (t : Tree κ ν) : t.listFrom .unbounded = t.toList := by
  induction t with
  | leaf => rfl
  | node l e r ihl _ => rw [listFrom, ihl]; rfl

lemma length_listFrom_le (b : Bound κ) (t : Tree κ ν) :
    (t.listFrom b).length ≤ t.slots.length := by
  induction t with
  | leaf => exact le_rfl
  | node l e r ihl ihr =>
      rw [listFrom, slots_node]
      split_ifs
      · have hlist : r.toList.length = r.slots.length := by simp [slots]
        simp only [List.length_append, List.length_cons]
        omega
      · simp only [List.length_append, List.length_cons]
        omega

variable [DecidableEq κ]

lemma link_modify (k : κ) (f : ν → ν) (t : Tree κ ν) : (t.modify k f).link = t.link := by
  cases t with
  | leaf => rfl
  | node l e r => rw [modify]; split_ifs <;> rfl

lemma slots_modify (k : κ) (f : ν → ν) (t : Tree κ ν) : (t.modify k f).slots = t.slots := by
  induction t with
  | leaf => rfl
  | node l e r ihl ihr =>
      rw [modify]
      split_ifs
      · rw [slots_node, slots_node]
      · rw [slots_node, slots_node, ihl]
      · rw [slots_node, slots_node, ihr]

lemma modify_of_find?_eq_none {k : κ} {t : Tree κ ν} (f : ν → ν) (h : t.find? k = none) :
    t.modify k f = t := by
  induction t with
  | leaf => rfl
  | node l e r ihl ihr =>
      rw [find?] at h
      rw [modify]
      split_ifs at h ⊢
      · rw [ihl h]
      · rw [ihr h]

lemma mem_of_find? {k : κ} {e : Entry κ ν} {t : Tree κ ν} (h : t.find? k = some e) :
    e ∈ t.toList := by
  induction t with
  | leaf => cases h
  | node l d r ihl ihr =>
      simp only [toList, List.mem_append, List.mem_cons]
      rw [find?] at h
      split_ifs at h
      · exact .inr (.inl (Option.some.inj h).symm)
      · exact .inl (ihl h)
      · exact .inr (.inr (ihr h))

end Ordered

end Tree

/-- The node of an entry, linked to two slots. -/
def Entry.node (e : Entry κ ν) (left right : Option ℕ) : Node κ ν :=
  { key := e.key, value := e.value, priority := e.priority, left, right }

namespace Arena

variable {a a' a'' : Arena κ ν} {t : Tree κ ν} {i : ℕ} {s : List ℕ} {fuel : ℕ}

/-! ## Slots -/

lemma read_congr (h : a'.cells[i]? = a.cells[i]?) : a'.read i = a.read i := by
  rw [read, read, h]

lemma lt_size_of_read {n : Node κ ν} (h : a.read i = some n) : i < a.cells.size := by
  rw [read] at h
  split at h
  · next hcell => exact (Array.getElem?_eq_some_iff.mp hcell).1
  · cases h

/-- The arenas differ in the nodes of the slots `s` only. -/
structure Frame (s : List ℕ) (a a' : Arena κ ν) : Prop where
  size : a'.cells.size = a.cells.size
  free : a'.free = a.free
  live : a'.live = a.live
  cell : ∀ i, i ∉ s → a'.cells[i]? = a.cells[i]?

lemma Frame.refl (s : List ℕ) (a : Arena κ ν) : Frame s a a := ⟨rfl, rfl, rfl, fun _ _ => rfl⟩

lemma Frame.trans (h : Frame s a a') (h' : Frame s a' a'') : Frame s a a'' :=
  ⟨h'.size.trans h.size, h'.free.trans h.free, h'.live.trans h.live,
    fun i hi => (h'.cell i hi).trans (h.cell i hi)⟩

lemma Frame.mono {s' : List ℕ} (h : Frame s a a') (hs : s ⊆ s') : Frame s' a a' :=
  ⟨h.size, h.free, h.live, fun i hi => h.cell i fun hmem => hi (hs hmem)⟩

/-- A change of one node. -/
lemma update_spec {n : Node κ ν} (h : a.read i = some n) (f : Node κ ν → Node κ ν) :
    ∃ a', a.update i f = some a' ∧ Frame [i] a a' ∧ a'.read i = some (f n) := by
  have hlt := lt_size_of_read h
  refine ⟨{ a with cells := a.cells.setIfInBounds i (.occupied (f n)) }, ?_, ?_, ?_⟩
  · rw [update, h, Option.map_some]
  · refine ⟨Array.size_setIfInBounds, rfl, rfl, ?_⟩
    intro j hj
    rw [List.mem_singleton] at hj
    exact Array.getElem?_setIfInBounds_ne (Ne.symm hj)
  · simp [read, hlt]

lemma length_le_size (hs : s.Nodup) (hlt : ∀ i ∈ s, i < a.cells.size) :
    s.length ≤ a.cells.size := by
  have hsub : s ⊆ List.range a.cells.size := fun i hi => List.mem_range.mpr (hlt i hi)
  simpa using (hs.subperm hsub).length_le

/-! ## Trees -/

/-- The slot of every entry of the tree holds its node. -/
def Shows (a : Arena κ ν) : Tree κ ν → Prop
  | .leaf => True
  | .node l e r => a.read e.slot = some (e.node l.link r.link) ∧ a.Shows l ∧ a.Shows r

namespace Shows

lemma congr (h : a.Shows t) (hcell : ∀ i ∈ t.slots, a'.cells[i]? = a.cells[i]?) : a'.Shows t := by
  induction t with
  | leaf => trivial
  | node l e r ihl ihr =>
      obtain ⟨hread, hl, hr⟩ := h
      simp only [Tree.slots_node, List.mem_append, List.mem_cons] at hcell
      refine ⟨?_, ihl hl fun i hi => hcell i (.inl hi), ihr hr fun i hi => hcell i (.inr (.inr hi))⟩
      rw [read_congr (hcell e.slot (.inr (.inl rfl))), hread]

/-- A change of other slots leaves the tree. -/
lemma frame (h : a.Shows t) (hs : Frame s a a') (hdisj : t.slots.Disjoint s) : a'.Shows t :=
  h.congr fun i hi => hs.cell i (hdisj hi)

lemma read_of_mem (h : a.Shows t) {e : Entry κ ν} (he : e ∈ t.toList) :
    ∃ left right, a.read e.slot = some (e.node left right) := by
  induction t with
  | leaf => cases he
  | node l d r ihl ihr =>
      obtain ⟨hread, hl, hr⟩ := h
      simp only [Tree.toList, List.mem_append, List.mem_cons] at he
      rcases he with he | rfl | he
      · exact ihl hl he
      · exact ⟨_, _, hread⟩
      · exact ihr hr he

lemma entry_of_mem (h : a.Shows t) {e : Entry κ ν} (he : e ∈ t.toList) :
    a.entry e.slot = some (e.key, e.value) := by
  obtain ⟨left, right, hread⟩ := h.read_of_mem he
  rw [entry, hread]
  rfl

lemma lt_size (h : a.Shows t) (hi : i ∈ t.slots) : i < a.cells.size := by
  obtain ⟨e, he, rfl⟩ := List.mem_map.mp hi
  obtain ⟨_, _, hread⟩ := h.read_of_mem he
  exact lt_size_of_read hread

/-- Different slots are no more than there are in the arena. -/
lemma length_le (h : a.Shows t) (hnodup : t.slots.Nodup) : t.slots.length ≤ a.cells.size :=
  length_le_size hnodup fun _ => h.lt_size

/-- A node that is linked to two trees shows the tree of both. -/
lemma relink {l r : Tree κ ν} {e : Entry κ ν} {n : Node κ ν} {f : Node κ ν → Node κ ν}
    (hread : a.read e.slot = some n) (hl : a.Shows l) (hr : a.Shows r) (hel : e.slot ∉ l.slots)
    (her : e.slot ∉ r.slots) (hf : f n = e.node l.link r.link) :
    ∃ a', a.update e.slot f = some a' ∧ Frame [e.slot] a a' ∧ a'.Shows (.node l e r) := by
  obtain ⟨a', hupdate, hframe, hread'⟩ := update_spec hread f
  refine ⟨a', hupdate, hframe, by rw [hread', hf], ?_, ?_⟩
  · exact hl.frame hframe (List.disjoint_singleton.mpr hel)
  · exact hr.frame hframe (List.disjoint_singleton.mpr her)

/-! ## Cutting and joining -/

section Cut

variable [LT κ] [DecidableLT κ] [LE κ] [DecidableLE κ]

/-- **Cutting along the links cuts the tree**, and changes its own slots only. -/
theorem split (mode : Cut) (k : κ) (h : a.Shows t) (hnodup : t.slots.Nodup)
    (hfuel : t.slots.length ≤ fuel) :
    ∃ a', Arena.split mode k fuel a t.link =
        some (a', (t.split mode k).1.link, (t.split mode k).2.link) ∧
      Frame t.slots a a' ∧ a'.Shows (t.split mode k).1 ∧ a'.Shows (t.split mode k).2 := by
  induction t generalizing fuel with
  | leaf => exact ⟨a, by cases fuel <;> rfl, Frame.refl _ a, trivial, trivial⟩
  | node l e r ihl ihr =>
      obtain ⟨hread, hl, hr⟩ := h
      obtain ⟨hnl, hnr, hel, her, hlr⟩ := Tree.nodup_node hnodup
      obtain ⟨fuel, rfl, hfl, hfr⟩ := Tree.exists_fuel hfuel
      rw [Tree.link_node, Arena.split, hread, Tree.split, Tree.slots_node]
      simp only [Option.bind_eq_bind, Option.bind_some, Entry.node]
      split_ifs
      · obtain ⟨a₁, hrun, hframe₁, hlow, hhigh⟩ := ihr hr hnr hfr
        have hlow_sub := Tree.slots_split_fst_subset mode k r
        have hhigh_sub := Tree.slots_split_snd_subset mode k r
        obtain ⟨a₂, hupdate, hframe₂, hnode⟩ :=
          relink (f := fun node => { node with right := (r.split mode k).1.link })
            ((read_congr (hframe₁.cell _ her)).trans hread) (hl.frame hframe₁ hlr) hlow hel
            (fun hmem => her (hlow_sub hmem)) rfl
        refine ⟨a₂, by simp [hrun, hupdate], ?_, hnode, ?_⟩
        · exact (hframe₁.mono (by simp)).trans (hframe₂.mono (by simp))
        · exact hhigh.frame hframe₂
            (List.disjoint_singleton.mpr fun hmem => her (hhigh_sub hmem))
      · obtain ⟨a₁, hrun, hframe₁, hlow, hhigh⟩ := ihl hl hnl hfl
        have hlow_sub := Tree.slots_split_fst_subset mode k l
        have hhigh_sub := Tree.slots_split_snd_subset mode k l
        obtain ⟨a₂, hupdate, hframe₂, hnode⟩ :=
          relink (f := fun node => { node with left := (l.split mode k).2.link })
            ((read_congr (hframe₁.cell _ hel)).trans hread) hhigh (hr.frame hframe₁ hlr.symm)
            (fun hmem => hel (hhigh_sub hmem)) her rfl
        refine ⟨a₂, by simp [hrun, hupdate], ?_, ?_, hnode⟩
        · exact (hframe₁.mono (by simp)).trans (hframe₂.mono (by simp))
        · exact hlow.frame hframe₂
            (List.disjoint_singleton.mpr fun hmem => hel (hlow_sub hmem))

end Cut

lemma merge_of_le {l r : Tree κ ν} (hl : a.Shows l) (hr : a.Shows r)
    (hnodup : (l.join r).slots.Nodup) (hfuel : (l.join r).slots.length ≤ fuel) :
    ∃ a', Arena.merge fuel a l.link r.link = some (a', (l.join r).link) ∧
      Frame (l.join r).slots a a' ∧ a'.Shows (l.join r) := by
  -- either tree gets smaller by its root, so the induction is on the fuel and not on one of them
  induction fuel generalizing l r a with
  | zero =>
      cases l with
      | leaf => exact ⟨a, rfl, Frame.refl _ a, hr⟩
      | node ll e lr => simp [Tree.slots_join] at hfuel
  | succ fuel ih =>
      rcases l with _ | ⟨ll, e, lr⟩
      · exact ⟨a, rfl, Frame.refl _ a, hr⟩
      rcases r with _ | ⟨rl, f, rr⟩
      · exact ⟨a, rfl, Frame.refl _ a, hl⟩
      obtain ⟨hread_e, hll, hlr⟩ := id hl
      obtain ⟨hread_f, hrl, hrr⟩ := id hr
      rw [Tree.join_node_node] at hnodup hfuel ⊢
      rw [Tree.link_node, Tree.link_node, Arena.merge, hread_e]
      simp only [Option.bind_eq_bind, Option.bind_some, hread_f, Entry.node]
      -- the root that stays on top is linked to the tree joined below it
      split_ifs at hnodup hfuel ⊢
      · obtain ⟨-, hbelow, hel, her, hdisj⟩ := Tree.nodup_node hnodup
        rw [Tree.slots_node, List.length_append, List.length_cons] at hfuel
        obtain ⟨a₁, hrun, hframe₁, hjoin⟩ := ih hlr hr hbelow (by omega)
        obtain ⟨a₂, hupdate, hframe₂, hnode⟩ :=
          relink (f := fun node => { node with right := (lr.join (rl.node f rr)).link })
            ((read_congr (hframe₁.cell _ her)).trans hread_e) (hll.frame hframe₁ hdisj) hjoin hel her
            rfl
        rw [Tree.link_node] at hrun
        refine ⟨a₂, by simp [hrun, hupdate], ?_, hnode⟩
        exact (hframe₁.mono (by simp)).trans (hframe₂.mono (by simp))
      · obtain ⟨hbelow, -, hfl, hfr, hdisj⟩ := Tree.nodup_node hnodup
        rw [Tree.slots_node, List.length_append, List.length_cons] at hfuel
        obtain ⟨a₁, hrun, hframe₁, hjoin⟩ := ih hl hrl hbelow (by omega)
        obtain ⟨a₂, hupdate, hframe₂, hnode⟩ :=
          relink (f := fun node => { node with left := ((ll.node e lr).join rl).link })
            ((read_congr (hframe₁.cell _ hfl)).trans hread_f) hjoin (hrr.frame hframe₁ hdisj.symm) hfl
            hfr rfl
        rw [Tree.link_node] at hrun
        refine ⟨a₂, by simp [hrun, hupdate], ?_, hnode⟩
        exact (hframe₁.mono (by simp)).trans (hframe₂.mono (by simp))

/-- **Joining along the links joins the trees**, and changes their own slots only. -/
theorem merge {l r : Tree κ ν} (hl : a.Shows l) (hr : a.Shows r) (hnodup : (l.join r).slots.Nodup) :
    ∃ a', Arena.merge a.cells.size a l.link r.link = some (a', (l.join r).link) ∧
      Frame (l.join r).slots a a' ∧ a'.Shows (l.join r) := by
  refine hl.merge_of_le hr hnodup (length_le_size hnodup fun i hi => ?_)
  rw [Tree.slots_join, List.mem_append] at hi
  exact hi.elim hl.lt_size hr.lt_size

/-! ## Searching -/

section Search

variable [LT κ] [DecidableLT κ] [LE κ] [DecidableLE κ]

lemma floor (k : κ) (best : Option ℕ) (h : a.Shows t) (hfuel : t.slots.length ≤ fuel) :
    a.floor k fuel best t.link = some (((t.floor? k).map (·.slot)).or best) := by
  induction t generalizing fuel best with
  | leaf => cases fuel <;> rfl
  | node l e r ihl ihr =>
      obtain ⟨hread, hl, hr⟩ := h
      obtain ⟨fuel, rfl, hfl, hfr⟩ := Tree.exists_fuel hfuel
      rw [Tree.link_node, Arena.floor, hread, Tree.floor?]
      simp only [Option.bind_eq_bind, Option.bind_some, Entry.node]
      split_ifs
      · rw [ihr _ hr hfr]
        cases r.floor? k <;> rfl
      · exact ihl _ hl hfl

lemma higher (k : κ) (best : Option ℕ) (h : a.Shows t) (hfuel : t.slots.length ≤ fuel) :
    a.higher k fuel best t.link = some (((t.higher? k).map (·.slot)).or best) := by
  induction t generalizing fuel best with
  | leaf => cases fuel <;> rfl
  | node l e r ihl ihr =>
      obtain ⟨hread, hl, hr⟩ := h
      obtain ⟨fuel, rfl, hfl, hfr⟩ := Tree.exists_fuel hfuel
      rw [Tree.link_node, Arena.higher, hread, Tree.higher?]
      simp only [Option.bind_eq_bind, Option.bind_some, Entry.node]
      split_ifs
      · rw [ihl _ hl hfl]
        cases l.higher? k <;> rfl
      · exact ihr _ hr hfr

lemma leftmost (h : a.Shows t) (hlink : t.link = some i) (hfuel : t.slots.length ≤ fuel) :
    a.leftmost fuel i = t.min?.map (·.slot) := by
  induction t generalizing fuel i with
  | leaf => cases hlink
  | node l e r ihl _ =>
      obtain ⟨hread, hl, -⟩ := h
      cases hlink
      obtain ⟨fuel, rfl, hfl, hfr⟩ := Tree.exists_fuel hfuel
      rw [Arena.leftmost, hread, Tree.min?]
      simp only [Option.bind_eq_bind, Option.bind_some, Entry.node]
      cases l with
      | leaf => rfl
      | node ll d lr =>
          exact (ihl hl rfl hfl).trans (by rw [Tree.min?]; cases ll.min? <;> rfl)

lemma rightmost (h : a.Shows t) (hlink : t.link = some i) (hfuel : t.slots.length ≤ fuel) :
    a.rightmost fuel i = t.max?.map (·.slot) := by
  induction t generalizing fuel i with
  | leaf => cases hlink
  | node l e r _ ihr =>
      obtain ⟨hread, -, hr⟩ := h
      cases hlink
      obtain ⟨fuel, rfl, hfl, hfr⟩ := Tree.exists_fuel hfuel
      rw [Arena.rightmost, hread, Tree.max?]
      simp only [Option.bind_eq_bind, Option.bind_some, Entry.node]
      cases r with
      | leaf => rfl
      | node rl d rr =>
          exact (ihr hr rfl hfr).trans (by rw [Tree.max?]; cases rr.max? <;> rfl)

variable [DecidableEq κ]

lemma find (k : κ) (h : a.Shows t) (hfuel : t.slots.length ≤ fuel) :
    a.find k fuel t.link = some ((t.find? k).map (·.slot)) := by
  induction t generalizing fuel with
  | leaf => cases fuel <;> rfl
  | node l e r ihl ihr =>
      obtain ⟨hread, hl, hr⟩ := h
      obtain ⟨fuel, rfl, hfl, hfr⟩ := Tree.exists_fuel hfuel
      rw [Tree.link_node, Arena.find, hread, Tree.find?]
      simp only [Option.bind_eq_bind, Option.bind_some, Entry.node]
      split_ifs
      · rfl
      · exact ihl hl hfl
      · exact ihr hr hfr

/-- Changing the value in the slot of a key changes the value of that key. -/
theorem modify {k : κ} {e : Entry κ ν} (h : a.Shows t) (hnodup : t.slots.Nodup)
    (hfind : t.find? k = some e) (f : ν → ν) :
    ∃ a', a.update e.slot (fun node => { node with value := f node.value }) = some a' ∧
      Frame t.slots a a' ∧ a'.Shows (t.modify k f) ∧
      a'.entry e.slot = some (e.key, f e.value) := by
  obtain ⟨left, right, hread⟩ := h.read_of_mem (Tree.mem_of_find? hfind)
  obtain ⟨a', hupdate, hframe, hread'⟩ :=
    update_spec hread fun node => { node with value := f node.value }
  have hslot := Tree.mem_slots (Tree.mem_of_find? hfind)
  refine ⟨a', hupdate, hframe.mono (by simpa using hslot), ?_, by rw [entry, hread']; rfl⟩
  clear hslot
  generalize e.node left right = n at hread hread'
  induction t with
  | leaf => cases hfind
  | node l d r ihl ihr =>
      obtain ⟨hread_d, hl, hr⟩ := id h
      obtain ⟨hnl, hnr, hdl, hdr, hlr⟩ := Tree.nodup_node hnodup
      rw [Tree.find?] at hfind
      rw [Tree.modify]
      split_ifs at hfind ⊢
      · cases hfind
        refine ⟨?_, hl.frame hframe ?_, hr.frame hframe ?_⟩
        · rw [hread', ← Option.some.inj (hread_d.symm.trans hread)]
          rfl
        · exact List.disjoint_singleton.mpr hdl
        · exact List.disjoint_singleton.mpr hdr
      · have hel := Tree.mem_slots (Tree.mem_of_find? hfind)
        refine ⟨?_, ihl hl hnl hfind, hr.frame hframe ?_⟩
        · rw [Tree.link_modify, read_congr (hframe.cell _ ?_), hread_d]
          exact fun hd => hdl (List.mem_singleton.mp hd ▸ hel)
        · exact List.disjoint_singleton.mpr (hlr hel)
      · have her := Tree.mem_slots (Tree.mem_of_find? hfind)
        refine ⟨?_, hl.frame hframe ?_, ihr hr hnr hfind⟩
        · rw [Tree.link_modify, read_congr (hframe.cell _ ?_), hread_d]
          exact fun hd => hdr (List.mem_singleton.mp hd ▸ her)
        · exact List.disjoint_singleton.mpr fun hel => hlr hel her

end Search

end Shows

/-! ## Traversal -/

section Traversal

variable [LT κ] [DecidableLT κ] [LE κ] [DecidableLE κ]

/-- The stack of a traversal, and the entries still to come: those of the slots on the stack, each
with all that stands to its right below it. -/
inductive Awaits (a : Arena κ ν) : List ℕ → List (Entry κ ν) → Prop
  | done : Awaits a [] []
  | visit {e : Entry κ ν} {r : Tree κ ν} {left : Option ℕ} {stack : List ℕ} {es : List (Entry κ ν)}
      (read : a.read e.slot = some (e.node left r.link)) (right : a.Shows r)
      (room : r.slots.length ≤ a.cells.size) (rest : Awaits a stack es) :
      Awaits a (e.slot :: stack) (e :: (r.toList ++ es))

variable {stack : List ℕ} {es : List (Entry κ ν)}

/-- **Walking down from a link puts the subtree before what is still to come**, from the start on. -/
lemma Awaits.descend (first : Bound κ) (h : a.Shows t) (hs : a.Awaits stack es)
    (hroom : t.slots.length ≤ a.cells.size) (hfuel : t.slots.length ≤ fuel) :
    ∃ stack', a.descend first fuel t.link stack = some stack' ∧
      a.Awaits stack' (t.listFrom first ++ es) := by
  induction t generalizing fuel stack es with
  | leaf => exact ⟨stack, by cases fuel <;> rfl, hs⟩
  | node l e r ihl ihr =>
      obtain ⟨hread, hl, hr⟩ := h
      rw [Tree.slots_node, List.length_append, List.length_cons] at hroom
      obtain ⟨fuel, rfl, hfl, hfr⟩ := Tree.exists_fuel hfuel
      rw [Tree.link_node, Arena.descend, hread, Tree.listFrom]
      simp only [Option.bind_eq_bind, Option.bind_some, Entry.node]
      split_ifs
      · rw [List.append_assoc, List.cons_append]
        exact ihl hl (.visit hread hr (by omega) hs) (by omega) hfl
      · exact ihr hr hs (by omega) hfr

/-- **A traversal collects what is still to come**, up to the end. -/
theorem Awaits.collect (last : Bound κ) (hs : a.Awaits stack es) (hfuel : es.length < fuel) :
    a.collect last fuel stack =
      some ((es.takeWhile fun e => last.endsAfter e.key).map fun e => (e.key, e.value)) := by
  induction fuel generalizing stack es with
  | zero => omega
  | succ fuel ih =>
      cases hs with
      | done => rfl
      | visit hread hright hroom hrest =>
          rename_i e r left stack es
          rw [Arena.collect, Arena.next, hread, List.takeWhile_cons]
          simp only [Option.bind_eq_bind, Option.bind_some, Entry.node]
          split_ifs
          · obtain ⟨stack', hdescend, hs'⟩ := hrest.descend .unbounded hright hroom hroom
            rw [Tree.listFrom_unbounded] at hs'
            rw [List.length_cons] at hfuel
            rw [hdescend]
            simp [ih hs' (by omega)]
          · rfl

end Traversal

end Arena

end RegionLedger
