import RegionLedger.Proofs.Treap.FiniteMap
import RegionLedger.Proofs.Treap.Links

/-!
# Treaps in memory are finite maps

A treap in an arena does what the treap over trees does: the arena shows the tree, and the chain of
vacant slots lists the slots given back.  Every slot that is read holds a node, so no operation comes
to a vacant one.

* `Arena.Keeps` — the slots of an arena are as `Slots` has them.
* `LinkedTreap.Mirrors` — a treap in an arena, and the same treap over a tree.
* `LinkedTreap.call`, `LinkedTreap.callAll` — calls of a treap in an arena.
* `LinkedTreap.Mirrors.insert`, `LinkedTreap.Mirrors.erase`, `LinkedTreap.Mirrors.callAll` — the calls
  of both go together.
* `LinkedTreap.Mirrors.insert_refused` — a key that finds no slot leaves the contents.
* `LinkedTreap.Answers` — all queries are answered, and answered as by the treap over a tree.
* `LinkedTreap.calls_follow_finite_map` — any calls and queries are those of a finite map.
-/

set_option linter.unusedSectionVars false

namespace RegionLedger

variable {κ ν : Type}

/-- The slots of a well formed treap are different. -/
lemma Treap.WellFormed.nodup_slots [LT κ] {t : Treap κ ν} (ht : t.WellFormed) :
    t.root.slots.Nodup :=
  (List.nodup_append'.mp ht.holds.nodup).1

namespace Arena

variable {a a' : Arena κ ν} {s s' : Slots} {held own : List ℕ} {slot i : ℕ} {link : Option ℕ}

/-! ## Vacant slots -/

/-- From a link on, the vacant slots are chained in the given order. -/
def Chained (a : Arena κ ν) : Option ℕ → List ℕ → Prop
  | link, [] => link = none
  | link, i :: rest =>
      link = some i ∧ ∃ next, a.cells[i]? = some (.vacant next) ∧ a.Chained next rest

lemma Chained.congr (h : a.Chained link own) (hcell : ∀ i ∈ own, a'.cells[i]? = a.cells[i]?) :
    a'.Chained link own := by
  induction own generalizing link with
  | nil => exact h
  | cons i rest ih =>
      obtain ⟨hlink, next, hvacant, hrest⟩ := h
      rw [List.forall_mem_cons] at hcell
      exact ⟨hlink, next, hcell.1.trans hvacant, ih hrest hcell.2⟩

/-- The arena has the slots that are in use, and its chain lists the vacant ones. -/
structure Keeps (a : Arena κ ν) (s : Slots) : Prop where
  size : a.cells.size = s.used
  live : a.live = s.live
  chain : a.Chained a.free s.vacant

lemma keeps_empty : ({} : Arena κ ν).Keeps {} := ⟨rfl, rfl, rfl⟩

/-- A change of slots in use leaves the vacant ones. -/
lemma Keeps.frame (h : a.Keeps s) (hs : s.Holds held) (hframe : Frame own a a')
    (hown : own ⊆ held) : a'.Keeps s where
  size := hframe.size.trans h.size
  live := hframe.live.trans h.live
  chain := by
    rw [hframe.free]
    exact h.chain.congr fun i hi => hframe.cell i fun hi' => hs.disjoint (hown hi') hi

/-- The slot that is handed out holds the node; the other slots are untouched. -/
lemma Keeps.alloc (h : a.Keeps s) (hs : s.Holds held) (htake : s.take? = some (slot, s'))
    (node : Node κ ν) :
    ∃ a', a.alloc node = some (.ok (slot, a')) ∧ a'.Keeps s' ∧ a'.read slot = some node ∧
      ∀ i, i ≠ slot → a'.cells[i]? = a.cells[i]? := by
  have hlen := hs.length_add_vacant
  have hchain := h.chain
  unfold Slots.take? at htake
  split at htake
  · next vacant hv =>
      obtain ⟨rfl, rfl⟩ := Prod.mk.inj (Option.some.inj htake)
      rw [hv] at hchain hlen
      rw [List.length_cons] at hlen
      obtain ⟨hfree, next, hvacant, hrest⟩ := hchain
      have hlt := (Array.getElem?_eq_some_iff.mp hvacant).1
      have hnodup := (List.nodup_append'.mp hs.nodup).2.1
      rw [hv] at hnodup
      have hnot := (List.nodup_cons.mp hnodup).1
      rw [Arena.alloc, hfree]
      simp only [hvacant]
      refine ⟨_, rfl, ⟨?_, ?_, hrest.congr fun i hi => ?_⟩, ?_, fun i hi => ?_⟩
      · exact Array.size_setIfInBounds.trans h.size
      · simp only [h.live, Slots.live, hv, List.length_cons]
        omega
      · exact Array.getElem?_setIfInBounds_ne (ne_of_mem_of_not_mem hi hnot).symm
      · simp [read, hlt]
      · exact Array.getElem?_setIfInBounds_ne (Ne.symm hi)
  · next hv =>
      split_ifs at htake with hroom
      obtain ⟨rfl, rfl⟩ := Prod.mk.inj (Option.some.inj htake)
      rw [hv] at hchain
      rw [Arena.alloc, hchain, ← h.size]
      simp only [h.size, if_pos hroom]
      refine ⟨_, rfl, ⟨?_, ?_, ?_⟩, ?_, fun i hi => ?_⟩
      · simp only [Array.size_push, h.size]
      · simp only [h.live, Slots.live, hv, List.length_nil, Nat.sub_zero]
      · simp only [hv, Chained]
      · simp only [read, Array.getElem?_push]
        simp [h.size]
      · simp only [Array.getElem?_push, h.size, if_neg hi]

/-- Where no slot is left, none is handed out. -/
lemma Keeps.alloc_eq_error (h : a.Keeps s) (htake : s.take? = none) (node : Node κ ν) :
    a.alloc node = some (.error .outOfSlots) := by
  have hchain := h.chain
  unfold Slots.take? at htake
  split at htake
  · cases htake
  · next hv =>
      split_ifs at htake with hroom
      rw [hv] at hchain
      rw [Arena.alloc, hchain, h.size]
      simp only [if_neg hroom]

/-- A slot given back is the first of the chain; its node is handed back. -/
lemma Keeps.release (h : a.Keeps s) (hs : s.Holds held) (hslot : slot ∈ held) {node : Node κ ν}
    (hread : a.read slot = some node) :
    ∃ a', a.release slot = some (node, a') ∧ a'.Keeps (s.give slot) ∧
      ∀ i, i ≠ slot → a'.cells[i]? = a.cells[i]? := by
  have hlt := lt_size_of_read hread
  have hnot := hs.disjoint hslot
  rw [Arena.release, hread]
  refine ⟨_, rfl, ⟨?_, ?_, rfl, a.free, ?_, h.chain.congr fun i hi => ?_⟩, fun i hi => ?_⟩
  · exact Array.size_setIfInBounds.trans h.size
  · simp only [h.live, Slots.live, Slots.give, List.length_cons]
    omega
  · simp [hlt]
  · exact Array.getElem?_setIfInBounds_ne (ne_of_mem_of_not_mem hi hnot).symm
  · exact Array.getElem?_setIfInBounds_ne (Ne.symm hi)

/-- Joining two trees whose slots are in use leaves the vacant ones. -/
lemma Keeps.merge {l r : Tree κ ν} (h : a.Keeps s) (hs : s.Holds held) (hl : a.Shows l)
    (hr : a.Shows r) (hnodup : (l.join r).slots.Nodup) (hheld : (l.join r).slots ⊆ held) :
    ∃ a', Arena.merge a.cells.size a l.link r.link = some (a', (l.join r).link) ∧
      Frame (l.join r).slots a a' ∧ a'.Shows (l.join r) ∧ a'.Keeps s := by
  obtain ⟨a', hmerge, hframe, hshows⟩ := hl.merge hr hnodup
  exact ⟨a', hmerge, hframe, hshows, h.frame hs hframe hheld⟩

/-- Joining a new node between two trees. -/
lemma Keeps.graft {l r : Tree κ ν} {e : Entry κ ν} (h : a.Keeps s) (hs : s.Holds held)
    (hl : a.Shows l) (he : a.read e.slot = some (e.node none none)) (hr : a.Shows r)
    (hnodup : (e.slot :: (l.slots ++ r.slots)).Nodup)
    (hheld : e.slot :: (l.slots ++ r.slots) ⊆ held) :
    ∃ a' a'', Arena.merge a.cells.size a l.link (some e.slot) =
        some (a', (l.join (.singleton e)).link) ∧
      Arena.merge a'.cells.size a' (l.join (.singleton e)).link r.link =
        some (a'', ((l.join (.singleton e)).join r).link) ∧
      a''.Shows ((l.join (.singleton e)).join r) ∧ a''.Keeps s := by
  have hperm : ((l.join (.singleton e)).slots ++ r.slots).Perm
      (e.slot :: (l.slots ++ r.slots)) := by
    rw [Tree.slots_join, List.append_assoc]
    exact List.perm_middle
  have hheld' : (l.join (.singleton e)).slots ++ r.slots ⊆ held := fun i hi =>
    hheld (hperm.subset hi)
  have hnodup' := hperm.nodup_iff.mpr hnodup
  obtain ⟨hnl, -, hdisj⟩ := List.nodup_append'.mp hnodup'
  obtain ⟨a₁, hmerge₁, hframe₁, hl₁, hkeeps₁⟩ :=
    h.merge hs hl (r := .singleton e) ⟨he, trivial, trivial⟩ hnl (List.append_subset.mp hheld').1
  rw [← Tree.slots_join] at hnodup' hheld'
  obtain ⟨a₂, hmerge₂, -, hshows, hkeeps₂⟩ :=
    hkeeps₁.merge hs hl₁ (hr.frame hframe₁ hdisj.symm) hnodup' hheld'
  exact ⟨a₁, a₂, hmerge₁, hmerge₂, hshows, hkeeps₂⟩

lemma Keeps.split [LT κ] [DecidableLT κ] [LE κ] [DecidableLE κ] {mode : Cut} {k : κ}
    {t l r : Tree κ ν} (h : a.Keeps s) (hs : s.Holds held) (ht : a.Shows t) (hnodup : t.slots.Nodup)
    (hheld : t.slots ⊆ held) (hcut : t.split mode k = (l, r)) :
    ∃ a', Arena.split mode k a.cells.size a t.link = some (a', l.link, r.link) ∧
      Frame t.slots a a' ∧ a'.Shows l ∧ a'.Shows r ∧ a'.Keeps s := by
  obtain ⟨a', hsplit, hframe, hl, hr⟩ := ht.split mode k hnodup (ht.length_le hnodup)
  rw [hcut] at hsplit hl hr
  exact ⟨a', hsplit, hframe, hl, hr, h.frame hs hframe hheld⟩

end Arena

namespace LinkedTreap

/-! ## Calls -/

section Calls

variable [LT κ] [DecidableLT κ] [LE κ] [DecidableLE κ] [DecidableEq κ]

/-- Carries out a call, with its answer. -/
def call (t : LinkedTreap κ ν) :
    TreapCall κ ν → Option (Except TreapError (Option ν) × LinkedTreap κ ν)
  | .insert key value => (t.insert key value).map fun r => (r.1.map fun _ => none, r.2)
  | .erase key => (t.erase key).map fun r => (.ok r.1, r.2)
  | .modify key f => (t.modify key f).map fun r => (.ok r.1, r.2)
  | .clear => some (.ok none, t.clear)

/-- Carries out several calls, with their answers. -/
def callAll (t : LinkedTreap κ ν) :
    List (TreapCall κ ν) → Option (List (Except TreapError (Option ν)) × LinkedTreap κ ν)
  | [] => some ([], t)
  | c :: cs => do
    let (answer, t) ← t.call c
    let (answers, t) ← callAll t cs
    return (answer :: answers, t)

end Calls

/-- A treap in an arena, and the same treap over a tree. -/
structure Mirrors (a : LinkedTreap κ ν) (t : Treap κ ν) : Prop where
  draws : a.draws = t.draws
  drawn : a.drawn = t.drawn
  root : a.root = t.root.link
  shows : a.arena.Shows t.root
  keeps : a.arena.Keeps t.slots

lemma mirrors_empty (draws : Draws) : (empty draws : LinkedTreap κ ν).Mirrors (Treap.empty draws) :=
  ⟨rfl, rfl, rfl, trivial, Arena.keeps_empty⟩

variable [LT κ] [DecidableLT κ] [LE κ] [DecidableLE κ] [Std.IsLinearOrder κ]
  [Std.LawfulOrderLT κ] [DecidableEq κ] {a : LinkedTreap κ ν} {t t' : Treap κ ν}

/-! ## Queries -/

/-- All queries are answered, and answered as by the treap over a tree. -/
structure Answers (a : LinkedTreap κ ν) (t : Treap κ ν) : Prop where
  size : a.size = t.size
  isEmpty : a.isEmpty = t.isEmpty
  get? : ∀ k, a.get? k = some (t.get? k)
  contains : ∀ k, a.contains k = some (t.contains k)
  floor? : ∀ k, a.floor? k = some (t.floor? k)
  higher? : ∀ k, a.higher? k = some (t.higher? k)
  min? : a.min? = some t.min?
  max? : a.max? = some t.max?
  range : ∀ first last, a.range first last = some (t.range first last)
  toList : a.toList = some t.toList

namespace Mirrors

lemma length_le (h : a.Mirrors t) (ht : t.WellFormed) :
    t.root.slots.length ≤ a.arena.cells.size := h.shows.length_le ht.nodup_slots

/-- The pair in the slot of an entry is that of the entry. -/
lemma entry?_eq (h : a.Mirrors t) {o : Option (Entry κ ν)} (ho : ∀ e, o = some e → e ∈ t.root.toList) :
    a.entry? (o.map (·.slot)) = some (o.map fun e => (e.key, e.value)) := by
  cases o with
  | none => rfl
  | some e =>
      rw [Option.map_some, entry?, h.shows.entry_of_mem (ho e rfl)]
      rfl

lemma min?_eq (h : a.Mirrors t) (ht : t.WellFormed) : a.min? = some t.min? := by
  cases hroot : t.root with
  | leaf => rw [LinkedTreap.min?, h.root, Treap.min?, hroot]; rfl
  | node l e r =>
      obtain ⟨d, hd⟩ : ∃ d, t.root.min? = some d := by
        rw [hroot, Tree.min?]
        cases l.min? <;> exact ⟨_, rfl⟩
      have hmem : d ∈ t.root.toList := List.mem_of_head? (Tree.min?_eq t.root ▸ hd)
      have hlink : t.root.link = some e.slot := by rw [hroot, Tree.link_node]
      rw [LinkedTreap.min?, h.root, hlink, Treap.min?, hd]
      simp [h.shows.leftmost hlink (h.length_le ht), hd, h.shows.entry_of_mem hmem]

lemma max?_eq (h : a.Mirrors t) (ht : t.WellFormed) : a.max? = some t.max? := by
  cases hroot : t.root with
  | leaf => rw [LinkedTreap.max?, h.root, Treap.max?, hroot]; rfl
  | node l e r =>
      obtain ⟨d, hd⟩ : ∃ d, t.root.max? = some d := by
        rw [hroot, Tree.max?]
        cases r.max? <;> exact ⟨_, rfl⟩
      have hmem : d ∈ t.root.toList := List.mem_of_getLast? (Tree.max?_eq t.root ▸ hd)
      have hlink : t.root.link = some e.slot := by rw [hroot, Tree.link_node]
      rw [LinkedTreap.max?, h.root, hlink, Treap.max?, hd]
      simp [h.shows.rightmost hlink (h.length_le ht), hd, h.shows.entry_of_mem hmem]

lemma range_eq (h : a.Mirrors t) (ht : t.WellFormed) (first last : Bound κ) :
    a.range first last = some (t.range first last) := by
  have hlen := h.length_le ht
  obtain ⟨stack, hdescend, hs⟩ := Arena.Awaits.done.descend first h.shows hlen hlen
  have hcount := Tree.length_listFrom_le first t.root
  rw [List.append_nil] at hs
  rw [LinkedTreap.range, h.root, hdescend]
  exact hs.collect last (by omega)

lemma toList_eq (h : a.Mirrors t) (ht : t.WellFormed) : a.toList = some t.toList := by
  have hall : t.root.range .unbounded .unbounded = t.root.toList := by
    rw [Tree.range_eq _ _ ht.sorted]
    exact List.filter_eq_self.mpr fun _ _ => rfl
  rw [LinkedTreap.toList, h.range_eq ht, Treap.range, hall, Treap.toList]

/-- **Every query finds its way without coming to a vacant slot.** -/
theorem answers (h : a.Mirrors t) (ht : t.WellFormed) : a.Answers t := by
  have hlen := h.length_le ht
  have hfind := fun k => h.shows.find k hlen
  refine ⟨h.keeps.live, ?_, ?_, ?_, ?_, ?_, h.min?_eq ht, h.max?_eq ht, h.range_eq ht, h.toList_eq ht⟩
  · rw [LinkedTreap.isEmpty, h.root, Treap.isEmpty]
    cases t.root <;> rfl
  · intro k
    have hentry := h.entry?_eq fun e => Tree.mem_of_find? (k := k) (e := e)
    rw [LinkedTreap.get?, h.root, hfind]
    simp only [Option.bind_eq_bind, Option.bind_some, hentry, Treap.get?, Option.map_map]
    rfl
  · intro k
    rw [LinkedTreap.contains, h.root, hfind, Treap.contains]
    simp
  · intro k
    have hentry := h.entry?_eq (o := t.root.floor? k) <| by
      rw [Tree.floor?_eq k ht.sorted]
      exact fun e he => List.mem_of_mem_filter (List.mem_of_getLast? he)
    rw [LinkedTreap.floor?, h.root, h.shows.floor k none hlen, Option.or_none]
    exact hentry
  · intro k
    have hentry := h.entry?_eq (o := t.root.higher? k) <| by
      rw [Tree.higher?_eq k ht.sorted]
      exact fun e he => List.mem_of_mem_filter (List.mem_of_head? he)
    rw [LinkedTreap.higher?, h.root, h.shows.higher k none hlen, Option.or_none]
    exact hentry

/-! ## Changes -/

/-- Cutting the tree at a key. -/
lemma cut (h : a.Mirrors t) (ht : t.WellFormed) {mode : Cut} {k : κ} {l r : Tree κ ν}
    (hcut : t.root.split mode k = (l, r)) :
    (l.slots ++ r.slots).Nodup ∧ l.slots ++ r.slots ⊆ t.root.slots ∧
      ∃ a', Arena.split mode k a.arena.cells.size a.arena a.root = some (a', l.link, r.link) ∧
        a'.Shows l ∧ a'.Shows r ∧ a'.Keeps t.slots := by
  have hslots := Tree.slots_of_split hcut
  obtain ⟨a', hsplit, -, hl, hr, hkeeps⟩ :=
    h.keeps.split ht.holds h.shows ht.nodup_slots (List.Subset.refl _) hcut
  exact ⟨hslots ▸ ht.nodup_slots, hslots ▸ List.Subset.refl _, a', h.root ▸ hsplit, hl, hr, hkeeps⟩

/-- Storing under a key that is present changes the node of that key. -/
lemma insert_present (h : a.Mirrors t) (ht : t.WellFormed) {k : κ} (v : ν) {l r : Tree κ ν}
    {e : Entry κ ν} (hcut : t.root.split .through k = (l, r)) (hfind : l.find? k = some e) :
    ∃ t' a', t.insert k v = .ok t' ∧ a.insert k v = some (.ok (), a') ∧ a'.Mirrors t' := by
  obtain ⟨hnodup, hheld, a₁, hsplit, hl, hr, hkeeps₁⟩ := h.cut ht hcut
  obtain ⟨hnl, -, hdisj⟩ := List.nodup_append'.mp hnodup
  have hfind₁ := hl.find k (hl.length_le hnl)
  obtain ⟨a₂, hupdate, hframe₂, hl₂, -⟩ := hl.modify hnl hfind fun _ => v
  have hkeeps₂ := hkeeps₁.frame ht.holds hframe₂ (List.append_subset.mp hheld).1
  have hjoin : ((l.modify k fun _ => v).join r).slots = l.slots ++ r.slots := by
    rw [Tree.slots_join, Tree.slots_modify]
  obtain ⟨a₃, hmerge, -, hshows, hkeeps₃⟩ := hkeeps₂.merge ht.holds hl₂
    (hr.frame hframe₂ hdisj.symm) (hjoin ▸ hnodup) (hjoin ▸ hheld)
  refine ⟨{ t with root := (l.modify k fun _ => v).join r }, { a with arena := a₃, root := _ }, ?_, ?_,
    h.draws, h.drawn, rfl, hshows, hkeeps₃⟩
  · rw [Treap.insert]
    simp only [hcut, hfind]
  · rw [LinkedTreap.insert, hsplit]
    simp only [Option.bind_eq_bind, Option.bind_some, hfind₁, hfind, Option.map_some, hupdate]
    rw [← Tree.link_modify k (fun _ => v) l, hmerge]
    rfl

/-- Storing under a new key puts its node into the slot handed out. -/
lemma insert_absent (h : a.Mirrors t) (ht : t.WellFormed) {k : κ} (v : ν) {l r : Tree κ ν}
    {slot : ℕ} {slots : Slots} (hcut : t.root.split .through k = (l, r)) (hfind : l.find? k = none)
    (htake : t.slots.take? = some (slot, slots)) :
    ∃ t' a', t.insert k v = .ok t' ∧ a.insert k v = some (.ok (), a') ∧ a'.Mirrors t' := by
  obtain ⟨hnodup, hheld, a₁, hsplit, hl, hr, hkeeps₁⟩ := h.cut ht hcut
  obtain ⟨hnl, -, hdisj⟩ := List.nodup_append'.mp hnodup
  have hfind₁ := hl.find k (hl.length_le hnl)
  let e : Entry κ ν := { key := k, value := v, priority := t.draws t.drawn, slot }
  obtain ⟨a₂, halloc, hkeeps₂, hread, hcell⟩ := hkeeps₁.alloc ht.holds htake (e.node none none)
  have hholds := ht.holds.take htake
  -- the new slot is none of those that the tree has
  have hnew : slot ∉ t.root.slots := (List.nodup_cons.mp (List.nodup_append'.mp hholds.nodup).1).1
  have hcell' : ∀ i ∈ l.slots ++ r.slots, a₂.cells[i]? = a₁.cells[i]? := fun i hi =>
    hcell i (ne_of_mem_of_not_mem (hheld hi) hnew)
  obtain ⟨a₃, a₄, hmerge₃, hmerge₄, hshows, hkeeps₄⟩ := hkeeps₂.graft (e := e) hholds
    (hl.congr fun i hi => hcell' i (List.mem_append_left _ hi)) hread
    (hr.congr fun i hi => hcell' i (List.mem_append_right _ hi))
    (List.nodup_cons.mpr ⟨fun hi => hnew (hheld hi), hnodup⟩) (List.cons_subset_cons slot hheld)
  refine ⟨{ t with drawn := t.drawn + 1, slots, root := (l.join (.singleton e)).join r },
    { a with drawn := a.drawn + 1, arena := a₄, root := _ }, ?_, ?_, h.draws,
    congrArg (· + 1) h.drawn, rfl, hshows, hkeeps₄⟩
  · rw [Treap.insert]
    simp only [hcut, hfind, htake]
    rfl
  · have halloc : a₁.alloc { key := k, value := v, priority := t.draws t.drawn } =
        some (.ok (e.slot, a₂)) := halloc
    rw [LinkedTreap.insert, hsplit, h.draws, h.drawn]
    simp only [Option.bind_eq_bind, Option.bind_some, hfind₁, hfind, Option.map_none, halloc, hmerge₃,
      hmerge₄]
    rfl

/-- **Storing under a key does to the arena what it does to the tree.** -/
theorem insert (h : a.Mirrors t) (ht : t.WellFormed) (k : κ) (v : ν)
    (hinsert : t.insert k v = .ok t') :
    ∃ a', a.insert k v = some (.ok (), a') ∧ a'.Mirrors t' := by
  obtain ⟨t₁, a', hinsert₁, hrun, ha'⟩ :
      ∃ t₁ a', t.insert k v = .ok t₁ ∧ a.insert k v = some (.ok (), a') ∧ a'.Mirrors t₁ := by
    cases hcut : t.root.split .through k with
    | mk l r =>
        cases hfind : l.find? k with
        | some e => exact h.insert_present ht v hcut hfind
        | none =>
            cases htake : t.slots.take? with
            | some taken => exact h.insert_absent ht v hcut hfind htake
            | none =>
                rw [Treap.insert] at hinsert
                simp only [hcut, hfind, htake] at hinsert
                cases hinsert
  cases Except.ok.inj (hinsert₁.symm.trans hinsert)
  exact ⟨a', hrun, ha'⟩

/-- **Where no slot is left, a new key is refused.**  The tree that was cut is joined again. -/
theorem insert_refused (h : a.Mirrors t) (ht : t.WellFormed) (k : κ) (v : ν) {e : TreapError}
    (hinsert : t.insert k v = .error e) :
    ∃ a' root, a.insert k v = some (.error e, a') ∧
      a'.Mirrors { t with drawn := t.drawn + 1, root } ∧ root.toList = t.root.toList := by
  cases hcut : t.root.split .through k with
  | mk l r =>
      obtain ⟨hnodup, hheld, a₁, hsplit, hl, hr, hkeeps₁⟩ := h.cut ht hcut
      have hfind₁ := hl.find k (hl.length_le (List.nodup_append'.mp hnodup).1)
      have hlist : (l.join r).toList = t.root.toList := by
        rw [Tree.toList_join, ← Tree.toList_split .through k t.root, hcut]
      rw [← Tree.slots_join] at hnodup hheld
      obtain ⟨a₂, hmerge, -, hshows, hkeeps₂⟩ := hkeeps₁.merge ht.holds hl hr hnodup hheld
      rw [Treap.insert] at hinsert
      simp only [hcut] at hinsert
      split at hinsert
      · cases hinsert
      · next hfind =>
          split at hinsert
          · next htake =>
              cases hinsert
              refine ⟨{ a with drawn := a.drawn + 1, arena := a₂, root := _ }, l.join r, ?_,
                ⟨h.draws, congrArg (· + 1) h.drawn, rfl, hshows, hkeeps₂⟩, hlist⟩
              rw [LinkedTreap.insert, hsplit]
              simp only [Option.bind_eq_bind, Option.bind_some, hfind₁, hfind, Option.map_none,
                hkeeps₁.alloc_eq_error htake, hmerge]
              rfl
          · cases hinsert

/-- **Removing a key does to the arena what it does to the tree**, and hands its slot back. -/
theorem erase (h : a.Mirrors t) (ht : t.WellFormed) (k : κ) :
    ∃ a', a.erase k = some ((t.erase k).1, a') ∧ a'.Mirrors (t.erase k).2 := by
  cases hcut : t.root.split .through k with
  | mk upTo r =>
      obtain ⟨hnodup, hheld, a₁, hsplit₁, hupTo, hr, hkeeps₁⟩ := h.cut ht hcut
      obtain ⟨hn, -, hdisj⟩ := List.nodup_append'.mp hnodup
      have hheld' := (List.append_subset.mp hheld).1
      cases hcut₂ : upTo.split .below k with
      | mk l same =>
          obtain ⟨a₂, hsplit₂, hframe₂, hl, hsame, hkeeps₂⟩ :=
            hkeeps₁.split ht.holds hupTo hn hheld' hcut₂
          have hslots := Tree.slots_of_split hcut₂
          have hsub : (l.join r).slots.Sublist (upTo.slots ++ r.slots) := by
            rw [Tree.slots_join, ← hslots]
            exact (List.sublist_append_left _ _).append_right _
          obtain ⟨a₃, hmerge, hframe₃, hshows, hkeeps₃⟩ :=
            hkeeps₂.merge ht.holds hl (hr.frame hframe₂ hdisj.symm) (hnodup.sublist hsub)
              fun i hi => hheld (hsub.subset hi)
          rw [LinkedTreap.erase, hsplit₁, Treap.erase]
          simp only [hcut, hcut₂, Option.bind_eq_bind, Option.bind_some, hsplit₂, hmerge]
          cases same with
          | leaf =>
              exact ⟨{ a with arena := a₃, root := _ }, rfl, h.draws, h.drawn, rfl, hshows, hkeeps₃⟩
          | node sl e sr =>
              -- the node cut out is in neither of the trees joined, so it is still in its slot
              have he : e.slot ∈ upTo.slots := by simp [← hslots]
              have hnot : e.slot ∉ (l.join r).slots := by
                rw [Tree.slots_join, List.mem_append]
                rintro (hi | hi)
                · exact (List.nodup_append'.mp (hslots ▸ hn)).2.2 hi (by simp)
                · exact hdisj he hi
              have hread := (Arena.read_congr (hframe₃.cell _ hnot)).trans hsame.1
              obtain ⟨a₄, hrelease, hkeeps₄, hcell⟩ :=
                hkeeps₃.release ht.holds (hheld' he) hread
              refine ⟨{ a with arena := a₄, root := _ }, ?_, h.draws, h.drawn, rfl,
                hshows.congr fun i hi => hcell i (ne_of_mem_of_not_mem hi hnot), hkeeps₄⟩
              simp only [Tree.link_node, hrelease, Option.bind_some]
              rfl

/-- **Changing a value does to the arena what it does to the tree.** -/
theorem modify (h : a.Mirrors t) (ht : t.WellFormed) (k : κ) (f : ν → ν) :
    ∃ a', a.modify k f = some ((t.get? k).map f, a') ∧ a'.Mirrors (t.modify k f) := by
  have hfind := h.shows.find k (h.length_le ht)
  rw [LinkedTreap.modify, h.root, hfind, Treap.get?]
  cases hentry : t.root.find? k with
  | none =>
      have hsame := Tree.modify_of_find?_eq_none f hentry
      exact ⟨a, rfl, h.draws, h.drawn, by rw [Treap.modify, hsame]; exact h.root,
        by rw [Treap.modify, hsame]; exact h.shows, h.keeps⟩
  | some e =>
      obtain ⟨arena, hupdate, hframe, hshows, hpair⟩ := h.shows.modify ht.nodup_slots hentry f
      refine ⟨{ a with arena }, ?_, h.draws, h.drawn, ?_, hshows,
        h.keeps.frame ht.holds hframe (List.Subset.refl _)⟩
      · simp [hupdate, hpair, h.root]
      · exact h.root.trans (Tree.link_modify k f t.root).symm

/-! ## Calls -/

/-- **A call that is carried out over the tree is carried out in the arena**, with the same answer. -/
theorem call (h : a.Mirrors t) (ht : t.WellFormed) (c : TreapCall κ ν) {answer : Option ν}
    (hcall : t.call c = .ok (answer, t')) :
    ∃ a', a.call c = some (.ok answer, a') ∧ a'.Mirrors t' := by
  cases c with
  | insert k v =>
      rw [Treap.call] at hcall
      cases hinsert : t.insert k v with
      | error e =>
          rw [hinsert] at hcall
          cases hcall
      | ok t₁ =>
          rw [hinsert] at hcall
          cases hcall
          obtain ⟨a', hrun, ha'⟩ := h.insert ht k v hinsert
          exact ⟨a', by rw [LinkedTreap.call, hrun]; rfl, ha'⟩
  | erase k =>
      obtain ⟨a', hrun, ha'⟩ := h.erase ht k
      rw [Treap.call] at hcall
      rw [Except.ok.inj hcall] at hrun ha'
      exact ⟨a', by rw [LinkedTreap.call, hrun]; rfl, ha'⟩
  | modify k f =>
      cases hcall
      obtain ⟨a', hrun, ha'⟩ := h.modify ht k f
      exact ⟨a', by rw [LinkedTreap.call, hrun]; rfl, ha'⟩
  | clear =>
      cases hcall
      exact ⟨a.clear, rfl, h.draws, h.drawn, rfl, trivial, Arena.keeps_empty⟩

/-- **Calls follow those of a finite map in the arena as over the tree.** -/
theorem callAll {m : Finmap fun _ : κ => ν} (h : a.Mirrors t) (hm : t.Denotes m)
    (cs : List (TreapCall κ ν)) (hfit : TreapCall.Fit m cs) :
    ∃ t' a', t.callAll cs = .ok ((TreapCall.onAll m cs).1, t') ∧
      a.callAll cs = some ((TreapCall.onAll m cs).1.map .ok, a') ∧
      a'.Mirrors t' ∧ t'.Denotes (TreapCall.onAll m cs).2 := by
  induction cs generalizing a t m with
  | nil => exact ⟨t, a, rfl, rfl, h, hm⟩
  | cons c cs ih =>
      obtain ⟨t₁, hcall, hm₁⟩ := hm.call c hfit.head
      obtain ⟨a₁, hrun, h₁⟩ := h.call hm.wellFormed c hcall
      obtain ⟨t', a', hcalls, hruns, h', hm'⟩ := ih h₁ hm₁ hfit.tail
      refine ⟨t', a', ?_, ?_, h', hm'⟩
      · rw [Treap.callAll_cons hcall, hcalls]
        rfl
      · rw [LinkedTreap.callAll, hrun]
        simp [hruns, TreapCall.onAll]

end Mirrors

/-- **A treap is an ordered map.**  Whatever the draws, after any calls that never make more keys than
there are slots, over the tree and in the arena alike: the calls have been answered as by a finite
map, the queries are answered as by that map, and neither a call nor a query has come to a slot
without a node. -/
theorem calls_follow_finite_map (draws : Draws) (cs : List (TreapCall κ ν))
    (hfit : TreapCall.Fit ∅ cs) :
    ∃ t a, (Treap.empty draws).callAll cs = .ok ((TreapCall.onAll ∅ cs).1, t) ∧
      (LinkedTreap.empty draws).callAll cs = some ((TreapCall.onAll ∅ cs).1.map .ok, a) ∧
      t.Agrees (TreapCall.onAll ∅ cs).2 ∧ a.Answers t := by
  obtain ⟨t, a, hcalls, hruns, h, hm⟩ :=
    (mirrors_empty draws).callAll (Treap.denotes_empty draws) cs hfit
  exact ⟨t, a, hcalls, hruns, hm.agrees, h.answers hm.wellFormed⟩

/-- Calls that remove a key and put another one into its slot. -/
def slotReuse : List (TreapCall UInt64 ℕ) :=
  [.insert 5 1, .insert 9 2, .modify 5 (· + 10), .erase 9, .insert 7 3, .erase 4]

/-- The new key is found, the removed one is not. -/
theorem slotReuse_followed : TreapCall.Fit ∅ slotReuse ∧
    ∃ a, (LinkedTreap.empty (Draws.ofSeed defaultSeed)).callAll slotReuse =
        some ([none, none, some 11, some 2, none, none].map .ok, a) ∧
      a.size = 2 ∧ a.get? 9 = some none ∧ a.get? 5 = some (some 11) := by
  have hfit : TreapCall.Fit ∅ slotReuse := TreapCall.fit_of_length_le (by decide)
  obtain ⟨t, a, -, hruns, hagrees, hanswers⟩ :=
    calls_follow_finite_map (Draws.ofSeed defaultSeed) slotReuse hfit
  refine ⟨hfit, a, hruns, ?_, ?_, ?_⟩
  · rw [hanswers.size, hagrees.size]
    decide
  · rw [hanswers.get?, hagrees.get?]
    decide
  · rw [hanswers.get?, hagrees.get?]
    decide

end LinkedTreap

end RegionLedger
