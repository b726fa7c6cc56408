import Mathlib.Data.Finmap
import RegionLedger.Proofs.Treap.Contents

/-!
# Treaps are finite maps

A treap denotes the finite map of its pairs.  The calls of a treap do to that map what their names
say, and every query is a question about it; neither depends on the priorities.

* `Treap.Denotes` — the relation between a treap and a finite map.
* `TreapCall`, `Treap.callAll`, `TreapCall.onAll` — calls of a treap, and of a finite map.
* `TreapCall.newKeys`, `TreapCall.fit_of_newKeys_le` — the new keys that calls make, and room for them.
* `Treap.Denotes.call`, `Treap.Denotes.callAll` — calls of a treap are calls of its finite map.
* `Treap.Agrees`, `Treap.Denotes.agrees` — what the queries answer.
-/

set_option linter.unusedSectionVars false

namespace RegionLedger

universe u v

variable {κ : Type u} {ν : Type v}

/-! ## First and last pairs -/

section Ends

variable [LT κ] [LE κ] [Std.IsLinearOrder κ] [Std.LawfulOrderLT κ] {s : List (κ × ν)}

/-- The first pair of an ascending list is the one with the least key. -/
lemma head?_eq_some_iff (hs : s.Pairwise fun p q => p.1 < q.1) (p : κ × ν) :
    s.head? = some p ↔ p ∈ s ∧ ∀ q ∈ s, p.1 ≤ q.1 := by
  cases s with
  | nil => simp
  | cons r rest =>
      have hr := (List.pairwise_cons.mp hs).1
      rw [List.head?_cons, Option.some.injEq]
      constructor
      · rintro rfl
        refine ⟨List.mem_cons_self, ?_⟩
        intro q hq
        rcases List.mem_cons.mp hq with rfl | hq
        · exact Std.le_refl _
        · have hlt := hr q hq
          grind
      · rintro ⟨hp, hleast⟩
        rcases List.mem_cons.mp hp with rfl | hp
        · rfl
        · have hlt := hr p hp
          have hle := hleast r List.mem_cons_self
          grind

/-- The last pair of an ascending list is the one with the greatest key. -/
lemma getLast?_eq_some_iff (hs : s.Pairwise fun p q => p.1 < q.1) (p : κ × ν) :
    s.getLast? = some p ↔ p ∈ s ∧ ∀ q ∈ s, q.1 ≤ p.1 := by
  induction s using List.reverseRecOn with
  | nil => simp
  | append_singleton rest r _ =>
      have hr : ∀ q ∈ rest, q.1 < r.1 := fun q hq =>
        (List.pairwise_append.mp hs).2.2 q hq r (List.mem_singleton_self r)
      rw [List.getLast?_concat, Option.some.injEq]
      constructor
      · rintro rfl
        refine ⟨List.mem_append_right _ (List.mem_singleton_self _), ?_⟩
        intro q hq
        rcases List.mem_append.mp hq with hq | hq
        · have hlt := hr q hq
          grind
        · rw [List.mem_singleton.mp hq]
          exact Std.le_refl _
      · rintro ⟨hp, hgreatest⟩
        rcases List.mem_append.mp hp with hp | hp
        · have hlt := hr p hp
          have hle := hgreatest r (List.mem_append_right _ (List.mem_singleton_self r))
          grind
        · exact (List.mem_singleton.mp hp).symm

end Ends

/-! ## Calls -/

/-- A call that changes a treap. -/
inductive TreapCall (κ : Type u) (ν : Type v) where
  /-- Stores a value under a key. -/
  | insert (key : κ) (value : ν)
  /-- Removes a key, and answers with its value. -/
  | erase (key : κ)
  /-- Replaces the value under a key by its image, and answers with that. -/
  | modify (key : κ) (f : ν → ν)
  /-- Removes every key. -/
  | clear

variable [DecidableEq κ]

namespace TreapCall

/-- What the call does to a finite map, with its answer. -/
def on (m : Finmap fun _ : κ => ν) : TreapCall κ ν → Option ν × Finmap fun _ : κ => ν
  | insert key value => (none, m.insert key value)
  | erase key => (m.lookup key, m.erase key)
  | modify key f =>
      ((m.lookup key).map f, ((m.lookup key).map f).elim m fun value => m.insert key value)
  | clear => (none, ∅)

/-- Several calls, with their answers. -/
def onAll (m : Finmap fun _ : κ => ν) :
    List (TreapCall κ ν) → List (Option ν) × Finmap fun _ : κ => ν
  | [] => ([], m)
  | c :: cs => ((c.on m).1 :: (onAll (c.on m).2 cs).1, (onAll (c.on m).2 cs).2)

/-- After each of the calls there are no more keys than slots. -/
def Fit (m : Finmap fun _ : κ => ν) (cs : List (TreapCall κ ν)) : Prop :=
  ∀ before, before <+: cs → (onAll m before).2.keys.card ≤ Slots.limit

lemma Fit.tail {m : Finmap fun _ : κ => ν} {c : TreapCall κ ν} {cs : List (TreapCall κ ν)}
    (h : Fit m (c :: cs)) : Fit (c.on m).2 cs :=
  fun before hbefore => h (c :: before) (List.cons_prefix_cons.mpr ⟨rfl, hbefore⟩)

lemma Fit.head {m : Finmap fun _ : κ => ν} {c : TreapCall κ ν} {cs : List (TreapCall κ ν)}
    (h : Fit m (c :: cs)) : (c.on m).2.keys.card ≤ Slots.limit := h.tail [] List.nil_prefix

/-- A call stores under a key that is absent. -/
def IsNew (m : Finmap fun _ : κ => ν) : TreapCall κ ν → Prop
  | insert key _ => key ∉ m
  | erase _ | modify .. | clear => False

instance (m : Finmap fun _ : κ => ν) (c : TreapCall κ ν) : Decidable (c.IsNew m) :=
  match c with
  | insert key _ => inferInstanceAs (Decidable (key ∉ m))
  | erase _ | modify .. | clear => inferInstanceAs (Decidable False)

/-- The number of calls that store under a key that is absent when it is their turn. -/
def newKeys (m : Finmap fun _ : κ => ν) : List (TreapCall κ ν) → ℕ
  | [] => 0
  | c :: cs => (if c.IsNew m then 1 else 0) + newKeys (c.on m).2 cs

lemma newKeys_le_length (m : Finmap fun _ : κ => ν) (cs : List (TreapCall κ ν)) :
    newKeys m cs ≤ cs.length := by
  induction cs generalizing m with
  | nil => exact le_rfl
  | cons c cs ih =>
      have hrest := ih (c.on m).2
      rw [newKeys, List.length_cons]
      split_ifs <;> omega

/-- **A key is made only by storing under it** when it is absent. -/
lemma card_keys_on_le (m : Finmap fun _ : κ => ν) (c : TreapCall κ ν) :
    (c.on m).2.keys.card ≤ m.keys.card + if c.IsNew m then 1 else 0 := by
  have hinsert : ∀ k v, (m.insert k v).keys = Insert.insert k m.keys := by
    intro k v
    ext j
    simp only [Finmap.mem_keys, Finmap.mem_insert, Finset.mem_insert]
  have hpresent : ∀ k v, k ∈ m → (m.insert k v).keys.card = m.keys.card := by
    intro k v hk
    rw [hinsert, Finset.insert_eq_of_mem (Finmap.mem_keys.mpr hk)]
  cases c with
  | insert k v =>
      by_cases hk : k ∈ m
      · exact (hpresent k v hk).le.trans (Nat.le_add_right _ _)
      · rw [if_pos (show IsNew m (insert k v) from hk), on, hinsert]
        exact Finset.card_insert_le k m.keys
  | erase k =>
      have hsub : (m.erase k).keys ⊆ m.keys := by
        intro j hj
        rw [Finmap.mem_keys, Finmap.mem_erase] at hj
        exact Finmap.mem_keys.mpr hj.2
      exact (Finset.card_le_card hsub).trans (Nat.le_add_right _ _)
  | modify k f =>
      rw [on]
      cases hk : m.lookup k with
      | none => exact Nat.le_add_right _ _
      | some v => exact (hpresent k (f v) (Finmap.mem_of_lookup_eq_some hk)).le
  | clear => exact Nat.zero_le _

/-- **Calls fit if there is room for the new keys that they make.** -/
lemma fit_of_newKeys_le {m : Finmap fun _ : κ => ν} {cs : List (TreapCall κ ν)}
    (h : m.keys.card + newKeys m cs ≤ Slots.limit) : Fit m cs := by
  induction cs generalizing m with
  | nil =>
      intro before hbefore
      rw [List.prefix_nil.mp hbefore]
      exact h
  | cons c cs ih =>
      have hc := card_keys_on_le m c
      rw [newKeys] at h
      rintro (- | ⟨c', before⟩) hbefore
      · exact (Nat.le_add_right _ _).trans h
      · obtain ⟨rfl, hrest⟩ := List.cons_prefix_cons.mp hbefore
        exact ih (by omega) before hrest

/-- Fewer calls than slots always fit. -/
lemma fit_of_length_le {m : Finmap fun _ : κ => ν} {cs : List (TreapCall κ ν)}
    (h : m.keys.card + cs.length ≤ Slots.limit) : Fit m cs :=
  fit_of_newKeys_le ((Nat.add_le_add_left (newKeys_le_length m cs) _).trans h)

end TreapCall

variable [LT κ] [DecidableLT κ] [LE κ] [DecidableLE κ]

namespace Treap

/-- Carries out a call, with its answer. -/
def call (t : Treap κ ν) : TreapCall κ ν → Except TreapError (Option ν × Treap κ ν)
  | .insert key value => (t.insert key value).map (none, ·)
  | .erase key => .ok (t.erase key)
  | .modify key f => .ok ((t.get? key).map f, t.modify key f)
  | .clear => .ok (none, t.clear)

/-- Carries out several calls, with their answers.  The first refusal ends it. -/
def callAll (t : Treap κ ν) :
    List (TreapCall κ ν) → Except TreapError (List (Option ν) × Treap κ ν)
  | [] => .ok ([], t)
  | c :: cs => do
    let (answer, t) ← t.call c
    let (answers, t) ← callAll t cs
    return (answer :: answers, t)

lemma callAll_cons {t t' : Treap κ ν} {c : TreapCall κ ν} {answer : Option ν}
    (hcall : t.call c = .ok (answer, t')) (cs : List (TreapCall κ ν)) :
    t.callAll (c :: cs) = (t'.callAll cs).map fun rest => (answer :: rest.1, rest.2) := by
  rw [callAll, hcall]
  show (do let (answers, t) ← t'.callAll cs; pure (answer :: answers, t)) = _
  cases t'.callAll cs <;> rfl

variable [Std.IsLinearOrder κ] [Std.LawfulOrderLT κ]

/-! ## The relation -/

/-- The treap is well formed, and its pairs are those of a finite map. -/
structure Denotes (t : Treap κ ν) (m : Finmap fun _ : κ => ν) : Prop where
  wellFormed : t.WellFormed
  mem_iff : ∀ p, p ∈ t.toList ↔ m.lookup p.1 = some p.2

lemma denotes_empty (draws : Draws) : (empty draws : Treap κ ν).Denotes ∅ where
  wellFormed := wellFormed_empty draws
  mem_iff p := by simp [empty, toList, Tree.toList]

lemma WellFormed.get?_eq_some_iff {t : Treap κ ν} (ht : t.WellFormed) (k : κ) (v : ν) :
    t.get? k = some v ↔ (k, v) ∈ t.toList := by
  simp only [get?, Option.map_eq_some_iff, Tree.find?_eq_some_iff ht.sorted, toList, List.mem_map,
    Prod.mk.injEq, and_assoc]

/-- A modification keeps a treap well formed, and changes the value of its key alone. -/
lemma WellFormed.modify_spec {t : Treap κ ν} (ht : t.WellFormed) (k : κ) (f : ν → ν) :
    (t.modify k f).WellFormed ∧ ∀ p, p ∈ (t.modify k f).toList ↔
      (∃ v, (k, v) ∈ t.toList ∧ p = (k, f v)) ∨ (p ∈ t.toList ∧ p.1 ≠ k) := by
  have hlist := Tree.toList_modify k f ht.sorted
  refine ⟨⟨?_, ?_⟩, ?_⟩
  · rw [modify, Tree.Sorted, hlist, List.pairwise_map]
    simp only [Entry.key_modifyAt]
    exact ht.sorted
  · rw [modify, hlist, List.map_map]
    simpa [Function.comp_def] using ht.holds
  · intro p
    rw [toList, modify, hlist, List.map_map, List.mem_map]
    simp only [toList, List.mem_map, Function.comp_apply, Entry.modifyAt, Prod.mk.injEq]
    constructor
    · rintro ⟨e, he, rfl⟩
      by_cases hk : e.key = k
      · exact .inl ⟨e.value, ⟨e, he, hk, rfl⟩, by simp [hk]⟩
      · exact .inr ⟨⟨e, he, by simp [hk]⟩, by simp [hk]⟩
    · rintro (⟨v, ⟨e, he, hk, rfl⟩, rfl⟩ | ⟨⟨e, he, rfl⟩, hk⟩)
      · exact ⟨e, he, by simp [hk]⟩
      · exact ⟨e, he, by simp only [if_neg hk]⟩

namespace Denotes

variable {t : Treap κ ν} {m : Finmap fun _ : κ => ν}

lemma get? (h : t.Denotes m) (k : κ) : t.get? k = m.lookup k := by
  refine Option.ext ?_
  intro v
  rw [h.wellFormed.get?_eq_some_iff, h.mem_iff]

lemma keys_eq (h : t.Denotes m) : t.keys = m.keys := by
  ext k
  simp only [mem_keys, h.mem_iff, Finmap.mem_keys, Finmap.mem_iff]

lemma size_eq (h : t.Denotes m) : t.size = m.keys.card := by
  rw [← h.wellFormed.card_keys, h.keys_eq]

/-! ## Calls of a treap -/

/-- **A call of a treap is a call of its finite map**, and refused only if it makes more keys than
there are slots. -/
theorem call (h : t.Denotes m) (c : TreapCall κ ν) (room : (c.on m).2.keys.card ≤ Slots.limit) :
    ∃ t', t.call c = .ok ((c.on m).1, t') ∧ t'.Denotes (c.on m).2 := by
  cases c with
  | insert k v =>
      have hsub : t.keys ⊆ (m.insert k v).keys := by
        intro j hj
        rw [h.keys_eq, Finmap.mem_keys] at hj
        rw [Finmap.mem_keys, Finmap.mem_insert]
        exact .inr hj
      have hmem : k ∈ (m.insert k v).keys := by
        rw [Finmap.mem_keys, Finmap.mem_insert]
        exact .inl rfl
      obtain ⟨t', hinsert, hwf, hlist⟩ :=
        h.wellFormed.insert_spec k v (h.wellFormed.room_of_mem hsub hmem room)
      refine ⟨t', by rw [Treap.call, hinsert]; rfl, hwf, ?_⟩
      rintro ⟨j, w⟩
      rw [hlist, h.mem_iff]
      by_cases hj : j = k
      · subst hj
        simp [TreapCall.on, eq_comm]
      · simp [TreapCall.on, hj]
  | erase k =>
      obtain ⟨hwf, hlist, hget⟩ := h.wellFormed.erase_spec k
      have hanswer : (t.erase k).1 = m.lookup k := by
        refine Option.ext ?_
        intro v
        rw [hget, h.mem_iff]
      refine ⟨(t.erase k).2, by rw [Treap.call, TreapCall.on, ← hanswer], hwf, ?_⟩
      rintro ⟨j, w⟩
      rw [hlist, h.mem_iff]
      by_cases hj : j = k
      · subst hj
        simp [TreapCall.on]
      · simp [TreapCall.on, hj]
  | modify k f =>
      obtain ⟨hwf, hlist⟩ := h.wellFormed.modify_spec k f
      refine ⟨t.modify k f, by rw [Treap.call, h.get?]; rfl, hwf, ?_⟩
      rintro ⟨j, w⟩
      simp only [hlist, h.mem_iff, TreapCall.on]
      cases hk : m.lookup k with
      | none =>
          by_cases hj : j = k
          · subst hj
            simp [hk]
          · simp [hj]
      | some v =>
          by_cases hj : j = k
          · subst hj
            simp [eq_comm]
          · simp [hj]
  | clear =>
      refine ⟨t.clear, rfl, ⟨List.Pairwise.nil, Slots.holds_nil⟩, ?_⟩
      intro p
      simp [TreapCall.on, clear, toList, Tree.toList]

/-- **Calls of a treap are calls of its finite map.** -/
theorem callAll (h : t.Denotes m) (cs : List (TreapCall κ ν)) (hfit : TreapCall.Fit m cs) :
    ∃ t', t.callAll cs = .ok ((TreapCall.onAll m cs).1, t') ∧
      t'.Denotes (TreapCall.onAll m cs).2 := by
  induction cs generalizing t m with
  | nil => exact ⟨t, rfl, h⟩
  | cons c cs ih =>
      obtain ⟨t₁, hcall, h₁⟩ := h.call c hfit.head
      obtain ⟨t', hcalls, h'⟩ := ih h₁ hfit.tail
      refine ⟨t', ?_, h'⟩
      rw [callAll_cons hcall, hcalls]
      rfl

end Denotes

/-! ## Queries -/

/-- Every query of the treap is answered as the finite map has it. -/
structure Agrees (t : Treap κ ν) (m : Finmap fun _ : κ => ν) : Prop where
  get? : ∀ k, t.get? k = m.lookup k
  contains : ∀ k, t.contains k = true ↔ k ∈ m
  size : t.size = m.keys.card
  isEmpty : t.isEmpty = true ↔ m = ∅
  /-- A floor is the greatest entry with a key up to the given one. -/
  floor? : ∀ k p, t.floor? k = some p ↔
    m.lookup p.1 = some p.2 ∧ p.1 ≤ k ∧ ∀ j ∈ m, j ≤ k → j ≤ p.1
  /-- What comes next is the least entry with a key above the given one. -/
  higher? : ∀ k p, t.higher? k = some p ↔
    m.lookup p.1 = some p.2 ∧ k < p.1 ∧ ∀ j ∈ m, k < j → p.1 ≤ j
  min? : ∀ p, t.min? = some p ↔ m.lookup p.1 = some p.2 ∧ ∀ j ∈ m, p.1 ≤ j
  max? : ∀ p, t.max? = some p ↔ m.lookup p.1 = some p.2 ∧ ∀ j ∈ m, j ≤ p.1
  toList : t.toList.Pairwise (fun p q => p.1 < q.1) ∧
    ∀ p, p ∈ t.toList ↔ m.lookup p.1 = some p.2
  /-- A range holds just the entries that satisfy both bounds, whatever they are. -/
  range : ∀ first last, (t.range first last).Pairwise (fun p q => p.1 < q.1) ∧
    ∀ p, p ∈ t.range first last ↔
      m.lookup p.1 = some p.2 ∧ first.startsBy p.1 ∧ last.endsAfter p.1

/-- **The queries of a treap are questions about its finite map.** -/
theorem Denotes.agrees {t : Treap κ ν} {m : Finmap fun _ : κ => ν} (h : t.Denotes m) :
    t.Agrees m := by
  have hsorted := h.wellFormed.pairwise_toList
  have hkeys : ∀ P : κ → Prop, (∀ j ∈ m, P j) ↔ ∀ q ∈ t.toList, P q.1 := by
    intro P
    constructor
    · intro hall q hq
      exact hall q.1 (Finmap.mem_of_lookup_eq_some ((h.mem_iff q).mp hq))
    · intro hall j hj
      obtain ⟨v, hv⟩ := Finmap.mem_iff.mp hj
      exact hall (j, v) ((h.mem_iff (j, v)).mpr hv)
  refine ⟨h.get?, ?_, h.size_eq, ?_, ?_, ?_, ?_, ?_, ⟨hsorted, h.mem_iff⟩, ?_⟩
  · intro k
    rw [h.wellFormed.contains_iff, h.keys_eq, Finmap.mem_keys]
  · have hnil : t.isEmpty = true ↔ t.toList = [] := by
      rw [Treap.isEmpty, Treap.toList]
      cases t.root <;> simp [Tree.isEmpty, Tree.toList]
    rw [hnil, List.eq_nil_iff_forall_not_mem]
    constructor
    · intro hnone
      refine Finmap.ext_lookup fun k => Option.eq_none_iff_forall_ne_some.mpr ?_
      intro v hv
      exact hnone (k, v) ((h.mem_iff (k, v)).mpr hv)
    · rintro rfl p hp
      cases (h.mem_iff p).mp hp
  · intro k p
    rw [h.wellFormed.floor?_eq, getLast?_eq_some_iff (hsorted.filter _)]
    simp only [List.mem_filter, decide_eq_true_eq, h.mem_iff, hkeys, and_assoc, and_imp]
  · intro k p
    rw [h.wellFormed.higher?_eq, head?_eq_some_iff (hsorted.filter _)]
    simp only [List.mem_filter, decide_eq_true_eq, h.mem_iff, hkeys, and_assoc, and_imp]
  · intro p
    rw [min?_eq, head?_eq_some_iff hsorted, h.mem_iff, hkeys]
  · intro p
    rw [max?_eq, getLast?_eq_some_iff hsorted, h.mem_iff, hkeys]
  · intro first last
    rw [h.wellFormed.range_eq]
    refine ⟨hsorted.filter _, ?_⟩
    intro p
    rw [List.mem_filter, h.mem_iff, Bool.and_eq_true, and_comm (b := first.startsBy p.1 = true)]

end Treap

end RegionLedger
