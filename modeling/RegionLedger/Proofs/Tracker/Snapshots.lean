import Mathlib.Data.List.Sort
import RegionLedger.Proofs.Accounting.Differences
import RegionLedger.Proofs.Space.Answering
import RegionLedger.Tracker.Basic

/-!
# Snapshots and their comparison

A ledger numbers at most as many spaces as there are numbers, so the number under which a snapshot
lists a space is the number of the space.  Comparing two snapshots lists every number that either of
them knows, once and in ascending order, whichever is the later one.

* `Ledger.size_run_le` — how many spaces a ledger can have.
* `Ledger.totals?_snapshot`, `Ledger.nameOf_snapshot` — what a snapshot says of a space.
* `Snapshot.mem_ids_iff`, `Snapshot.pairwise_ids`, `Snapshot.ids_comm` — the numbers that are listed.
* `Snapshot.since_eq_ok_iff` — what a comparison says.
* `Snapshot.Moderate`, `Snapshot.exists_change`, `Snapshot.exists_since` — the change of a space as a
  difference, and that there is one.
-/

namespace RegionLedger

namespace Ledger

variable {v : Ledger} {op : Operation} {id : SpaceId}

/-! ## The number of spaces -/

lemma size_onSpace (v : Ledger) (id : SpaceId) (f : Space → Except RegionError Deltas × Space) :
    (v.onSpace id f).2.size = v.size := by
  rw [onSpace]
  cases v.space? id with
  | none => rfl
  | some s => exact Array.size_setIfInBounds

/-- No operation adds or removes a space. -/
lemma size_apply (v : Ledger) (op : Operation) : (v.apply op).2.size = v.size := by
  rw [apply_eq]
  cases op.objection? v.knows with
  | some e => rfl
  | none =>
      show (v.carryOut op).2.size = v.size
      rw [carryOut]
      cases op.stack? with
      | none => exact size_onSpace v _ _
      | some stack =>
          show (v.withStack stack _).2.size = v.size
          rw [withStack]
          cases v.callStacks.push stack with
          | error e => rfl
          | ok stored => exact size_onSpace { v with callStacks := stored.2 } _ _

lemma size_step_le (h : v.size ≤ UInt32.size) (c : LedgerCall) : (v.step c).size ≤ UInt32.size := by
  cases c with
  | operation op => exact (v.size_apply op).le.trans h
  | register name =>
      rcases v.register_cases name with hstep | ⟨new, hraw, _, hsize⟩
      · rwa [hstep]
      · have hlt := new.raw.toNat_lt
        have htop : UInt32.size = 2 ^ 32 := rfl
        omega

/-- **A ledger has no more spaces than there are numbers.** -/
theorem size_run_le (config : Config) (calls : List LedgerCall) :
    ((create config).run calls).size ≤ UInt32.size := by
  induction calls using List.reverseRecOn with
  | nil =>
      show 1 ≤ UInt32.size
      decide
  | append_singleton calls c ih =>
      rw [run_concat]
      exact size_step_le ih c

/-! ## What a snapshot lists -/

/-- Every space is listed under its number. -/
lemma mem_snapshot_iff (h : v.size ≤ UInt32.size) (x : SpaceSnapshot) :
    x ∈ v.snapshot ↔ ∃ s, v.space? x.id = some s ∧ x.name = s.name ∧ x.totals = s.totals := by
  have hnumber : ∀ {i : ℕ}, i < v.spaces.size → (UInt32.ofNat i).toNat = i := fun hi =>
    UInt32.toNat_ofNat_of_lt' (hi.trans_le h)
  rw [snapshot, toList, List.map_map, List.mem_map]
  constructor
  · rintro ⟨⟨s, i⟩, hmem, rfl⟩
    obtain ⟨_, hlt, hget⟩ := List.mem_zipIdx hmem
    rw [Array.length_toList, Nat.zero_add] at hlt
    refine ⟨s, ?_, rfl, rfl⟩
    show v.spaces[(UInt32.ofNat i).toNat]? = some s
    rw [hnumber hlt, Array.getElem?_eq_getElem hlt, hget]
    rfl
  · rintro ⟨s, hs, hname, htotals⟩
    obtain ⟨hlt, hget⟩ := Array.getElem?_eq_some_iff.mp hs
    refine ⟨(s, x.id.raw.toNat), ?_, ?_⟩
    · rw [List.mk_mem_zipIdx_iff_getElem?, Array.getElem?_toList]
      exact hs
    · have hid : (⟨UInt32.ofNat x.id.raw.toNat⟩ : SpaceId) = x.id := by rw [UInt32.ofNat_toNat]
      cases x
      simp only [Function.comp_apply] at hid hname htotals ⊢
      rw [hid, hname, htotals]

/-- **A snapshot finds every space** that the ledger knows, and no other. -/
theorem find?_snapshot (h : v.size ≤ UInt32.size) (id : SpaceId) :
    v.snapshot.find? (fun x => x.id == id) =
      (v.space? id).map fun s => { id, name := s.name, totals := s.totals } := by
  cases hfind : v.snapshot.find? (fun x => x.id == id) with
  | some x =>
      obtain ⟨s, hs, hname, htotals⟩ := (mem_snapshot_iff h x).mp (List.mem_of_find?_eq_some hfind)
      have hid : x.id = id := by simpa using List.find?_some hfind
      cases x
      simp only at hid hs hname htotals
      rw [← hid, hs, Option.map_some, hname, htotals]
  | none =>
      cases hs : v.space? id with
      | none => rfl
      | some s =>
          have hmem : (⟨id, s.name, s.totals⟩ : SpaceSnapshot) ∈ v.snapshot :=
            (mem_snapshot_iff h _).mpr ⟨s, hs, rfl, rfl⟩
          have hnot := List.find?_eq_none.mp hfind _ hmem
          simp at hnot

lemma totals?_snapshot (h : v.size ≤ UInt32.size) (dropped : UInt64) (id : SpaceId) :
    Snapshot.totals? { spaces := v.snapshot, dropped } id = (v.space? id).map (·.totals) := by
  rw [Snapshot.totals?, find?_snapshot h, Option.map_map]
  rfl

/-- A space is called as the later snapshot has it, or else as the earlier one has it. -/
lemma nameOf_snapshot {w : Ledger} (h : v.size ≤ UInt32.size) (h' : w.size ≤ UInt32.size)
    (dropped dropped' : UInt64) (id : SpaceId) :
    Snapshot.nameOf { spaces := v.snapshot, dropped }
        { spaces := w.snapshot, dropped := dropped' } id =
      (((v.space? id).or (w.space? id)).map (·.name)).getD "" := by
  rw [Snapshot.nameOf, List.find?_append, find?_snapshot h, find?_snapshot h']
  cases v.space? id <;> cases w.space? id <;> rfl

/-- The numbers that a snapshot knows are those of the spaces. -/
lemma mem_map_id_snapshot_iff (h : v.size ≤ UInt32.size) (id : SpaceId) :
    id ∈ v.snapshot.map (·.id) ↔ v.knows id := by
  rw [List.mem_map, knows, Option.isSome_iff_exists]
  constructor
  · rintro ⟨x, hx, rfl⟩
    obtain ⟨s, hs, _⟩ := (mem_snapshot_iff h x).mp hx
    exact ⟨s, hs⟩
  · rintro ⟨s, hs⟩
    exact ⟨⟨id, s.name, s.totals⟩, (mem_snapshot_iff h _).mpr ⟨s, hs, rfl, rfl⟩, rfl⟩

end Ledger

namespace Snapshot

variable {now was : Snapshot}

/-! ## The numbers of a comparison -/

lemma mem_insertId (id j : SpaceId) (l : List SpaceId) : j ∈ insertId id l ↔ j = id ∨ j ∈ l := by
  induction l with
  | nil => simp [insertId]
  | cons first rest ih =>
      rw [insertId]
      split_ifs with hid
      · rw [hid, List.mem_cons]
        exact or_self_left.symm
      · rw [List.mem_cons]
      · rw [List.mem_cons, ih, List.mem_cons]
        exact or_left_comm

lemma pairwise_insertId (id : SpaceId) {l : List SpaceId}
    (hl : l.Pairwise fun i j => i.raw < j.raw) :
    (insertId id l).Pairwise fun i j => i.raw < j.raw := by
  induction l with
  | nil => simp [insertId]
  | cons first rest ih =>
      obtain ⟨hfirst, hrest⟩ := List.pairwise_cons.mp hl
      rw [insertId]
      split_ifs with hid hlt
      · exact hl
      · refine List.pairwise_cons.mpr ⟨?_, hl⟩
        intro j hj
        rcases List.mem_cons.mp hj with rfl | hj
        · exact hlt
        · exact UInt32.lt_trans hlt (hfirst j hj)
      · refine List.pairwise_cons.mpr ⟨?_, ih hrest⟩
        intro j hj
        rcases (mem_insertId id j rest).mp hj with rfl | hj
        · have hne : first.raw ≠ j.raw := fun h => hid (congrArg SpaceId.mk h).symm
          grind
        · exact hfirst j hj

/-- **Every number that either snapshot knows is listed**, and no other. -/
theorem mem_ids_iff (now was : Snapshot) (id : SpaceId) :
    id ∈ ids now was ↔ id ∈ now.spaces.map (·.id) ∨ id ∈ was.spaces.map (·.id) := by
  have hfold : ∀ l : List SpaceId, id ∈ l.foldr insertId [] ↔ id ∈ l := by
    intro l
    induction l with
    | nil => rfl
    | cons j rest ih => rw [List.foldr_cons, mem_insertId, ih, List.mem_cons]
  rw [ids, hfold, List.map_append, List.mem_append]

/-- **The numbers ascend**, so none is listed twice. -/
theorem pairwise_ids (now was : Snapshot) :
    (ids now was).Pairwise fun i j => i.raw < j.raw := by
  rw [ids]
  induction (now.spaces ++ was.spaces).map (·.id) with
  | nil => exact List.Pairwise.nil
  | cons j rest ih => exact pairwise_insertId j ih

/-- The other direction lists the same numbers. -/
theorem ids_comm (now was : Snapshot) : ids now was = ids was now := by
  have hirrefl : Std.Irrefl fun i j : SpaceId => i.raw < j.raw := ⟨fun i => UInt32.lt_irrefl i.raw⟩
  have hantisymm : Std.Antisymm fun i j : SpaceId => i.raw < j.raw :=
    ⟨fun i j hij hji => absurd (UInt32.lt_trans hij hji) (UInt32.lt_irrefl i.raw)⟩
  refine (pairwise_ids now was).eq_of_mem_iff (pairwise_ids was now) ?_
  intro id
  rw [mem_ids_iff, mem_ids_iff, or_comm]

/-- **A comparison lists the change of every number**, if there are all these changes. -/
theorem since_eq_ok_iff {now was : Snapshot} {changes : List (SpaceId × Deltas)} :
    now.since was = .ok changes ↔
      changes.map Prod.fst = ids now was ∧ ∀ p ∈ changes, change now was p.1 = .ok p.2 := by
  have hone : ∀ id (p : SpaceId × Deltas),
      (change now was id).map (id, ·) = .ok p ↔ p.1 = id ∧ change now was p.1 = .ok p.2 := by
    rintro id ⟨j, d⟩
    cases hchange : change now was id with
    | error o =>
        refine ⟨nofun, ?_⟩
        rintro ⟨rfl, h⟩
        rw [hchange] at h
        cases h
    | ok d' =>
        constructor
        · rintro ⟨⟩
          exact ⟨rfl, hchange⟩
        · rintro ⟨rfl, h⟩
          rw [hchange] at h
          exact congrArg Except.ok (congrArg (j, ·) (Except.ok.inj h))
  have hsince : now.since was = (ids now was).mapM fun id => (change now was id).map (id, ·) := rfl
  rw [hsince, mapM_eq_ok_iff]
  simp only [hone]
  constructor
  · intro h
    generalize ids now was = l at h
    induction h with
    | nil => exact ⟨rfl, nofun⟩
    | cons hp _ ih =>
        obtain ⟨hids, hchanges⟩ := ih
        rw [List.map_cons, hids, hp.1]
        exact ⟨rfl, List.forall_mem_cons.mpr ⟨hp.2, hchanges⟩⟩
  · rintro ⟨hids, hchanges⟩
    rw [← hids, List.forall₂_map_left_iff, List.forall₂_same]
    exact fun p hp => ⟨rfl, hchanges p hp⟩

/-- There is a comparison if every number has a change. -/
lemma exists_since_of_forall {now was : Snapshot} (h : ∀ id, ∃ d, change now was id = .ok d) :
    ∃ changes, now.since was = .ok changes := by
  refine exists_mapM_iff.mpr fun id _ => ?_
  obtain ⟨d, hd⟩ := h id
  exact ⟨(id, d), by rw [hd]; rfl⟩

/-! ## The change of a space -/

/-- The bytes of a tag of a space; a space that the snapshot does not know has none. -/
def amount (s : Snapshot) (id : SpaceId) (c : Column) (t : Tag) : ℕ :=
  ((s.totals? id).getD .empty).amount c t

/-- No counter is beyond the longest span. -/
def Moderate (s : Snapshot) : Prop := ∀ id c t, s.amount id c t ≤ 2 ^ 63 - 1

/-- It is enough to look at the tags that have an entry. -/
lemma moderate_of_forall {s : Snapshot}
    (h : ∀ x ∈ s.spaces, ∀ p ∈ x.totals.entries, ∀ c ∈ Column.all,
      x.totals.amount c p.1 ≤ 2 ^ 63 - 1) : s.Moderate := by
  intro id c t
  rw [amount, totals?]
  cases hfind : s.spaces.find? (fun x => x.id == id) with
  | none =>
      rw [Option.map_none, Option.getD_none]
      cases c <;> exact Nat.zero_le _
  | some x =>
      rw [Option.map_some, Option.getD_some]
      by_cases ht : t ∈ x.totals.entries.map Prod.fst
      · obtain ⟨p, hp, rfl⟩ := List.mem_map.mp ht
        exact h x (List.mem_of_find?_eq_some hfind) p hp c c.mem_all
      · rw [Totals.amount, Totals.get_of_not_mem ht]
        cases c <;> exact Nat.zero_le _

/-- **The change of a space is the difference of its bytes**, if no counter is beyond the longest
span. -/
theorem exists_change (hnow : now.Moderate) (hwas : was.Moderate) (id : SpaceId) :
    ∃ d, change now was id = .ok d ∧ d.Distinct ∧
      ∀ c t, d.amount c t = (now.amount id c t : ℤ) - was.amount id c t :=
  Totals.exists_since (hnow id) (hwas id)

/-- **Such snapshots can be compared.** -/
theorem exists_since (hnow : now.Moderate) (hwas : was.Moderate) :
    ∃ changes, now.since was = .ok changes ∧ changes.map Prod.fst = ids now was ∧
      ∀ p ∈ changes, p.2.Distinct ∧
        ∀ c t, p.2.amount c t = (now.amount p.1 c t : ℤ) - was.amount p.1 c t := by
  obtain ⟨changes, hsince⟩ := exists_since_of_forall fun id =>
    (exists_change hnow hwas id).imp fun _ h => h.1
  obtain ⟨hids, hchanges⟩ := since_eq_ok_iff.mp hsince
  refine ⟨changes, hsince, hids, ?_⟩
  intro p hp
  obtain ⟨d, hd, hdifference⟩ := exists_change hnow hwas p.1
  obtain rfl := Except.ok.inj (hd.symm.trans (hchanges p hp))
  exact hdifference

end Snapshot

end RegionLedger
