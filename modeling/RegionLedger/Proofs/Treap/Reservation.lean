import Mathlib.Data.List.Sort
import RegionLedger.Proofs.Treap.Linked

/-!
# Room for new keys

A treap that is asked for room counts its slots, not its keys: those that are vacant and the fresh
numbers beyond.  The answer is about the keys all the same.  Every slot holds a node or is in the chain
of vacant ones, so `n` new keys are promised room exactly if there are then no more keys than slot
numbers.

The promise is kept.  Calls that make at most `n` new keys, whichever keys they remove in between, are
all carried out.

* `LinkedTreap.Mirrors.reserve_eq` — the arena answers as the treap over a tree does.
* `TreapRequest`, `TreapRequest.onAll` — calls and questions for room, some of them refused.
* `Treap.Denotes.requestAll`, `LinkedTreap.Mirrors.requestAll` — requests are those of a finite map that
  has room for as many keys as there are slots.
* `LinkedTreap.Answers.congr` — the contents settle what the queries answer.
* `LinkedTreap.reservations_kept` — the promise, after any requests.
-/

set_option linter.unusedSectionVars false

namespace RegionLedger

variable {κ ν : Type}

/-! ## The answer -/

/-- The slots that hold no node are the vacant ones. -/
lemma Slots.Holds.used_sub_live {s : Slots} {held : List ℕ} (h : s.Holds held) :
    s.used - s.live = s.vacant.length := by
  have hlen := h.length_add_vacant
  rw [h.live_eq]
  omega

/-- The arena promises slots as far as `Slots` does. -/
lemma Arena.Keeps.reserve_eq {a : Arena κ ν} {s : Slots} {held : List ℕ} (h : a.Keeps s)
    (hs : s.Holds held) (n : UInt64) :
    a.reserve n = if s.canTake n.toNat then .ok () else .error .outOfSlots := by
  -- the sum that stops at the largest number is above the limit if the exact sum is
  have hstop : Slots.limit < min (s.used + (n.toNat - s.vacant.length)) (UInt64.size - 1) ↔
      ¬s.used + (n.toNat - s.vacant.length) ≤ Slots.limit := by
    rw [lt_min_iff, not_le]
    exact and_iff_left (by decide)
  simp only [Arena.reserve, h.size, h.live, hs.used_sub_live, hstop, ite_not, Slots.canTake,
    Bool.or_eq_true, beq_iff_eq, decide_eq_true_eq, ite_or]

/-! ## Requests -/

/-- A call, or a question whether new keys will find room. -/
inductive TreapRequest (κ ν : Type) where
  /-- Carries out a call. -/
  | call (c : TreapCall κ ν)
  /-- Asks for room for new keys. -/
  | reserve (n : UInt64)

section Requests

variable [DecidableEq κ]

namespace TreapRequest

/-- What a request does to a finite map that has room for as many keys as there are slots, with its
answer.  A new key beyond them is refused, and room is promised up to them. -/
def on (m : Finmap fun _ : κ => ν) :
    TreapRequest κ ν → Except TreapError (Option ν) × Finmap fun _ : κ => ν
  | call c =>
    if c.IsNew m ∧ Slots.limit ≤ m.keys.card then (.error .outOfSlots, m)
    else (.ok (c.on m).1, (c.on m).2)
  | reserve n =>
    (if m.keys.card + n.toNat ≤ Slots.limit then .ok none else .error .outOfSlots, m)

/-- Several requests, with their answers. -/
def onAll (m : Finmap fun _ : κ => ν) :
    List (TreapRequest κ ν) → List (Except TreapError (Option ν)) × Finmap fun _ : κ => ν
  | [] => ([], m)
  | r :: rs => ((r.on m).1 :: (onAll (r.on m).2 rs).1, (onAll (r.on m).2 rs).2)

end TreapRequest

variable [LT κ] [DecidableLT κ] [LE κ] [DecidableLE κ]

namespace Treap

/-- Carries out a request, with its answer.  A refusal leaves the treap. -/
def request (t : Treap κ ν) : TreapRequest κ ν → Except TreapError (Option ν) × Treap κ ν
  | .call c =>
    match t.call c with
    | .ok (answer, t') => (.ok answer, t')
    | .error e => (.error e, t)
  | .reserve n => ((t.reserve n.toNat).map fun _ => none, t)

/-- Carries out several requests, with their answers. -/
def requestAll (t : Treap κ ν) :
    List (TreapRequest κ ν) → List (Except TreapError (Option ν)) × Treap κ ν
  | [] => ([], t)
  | r :: rs => ((t.request r).1 :: ((t.request r).2.requestAll rs).1, ((t.request r).2.requestAll rs).2)

end Treap

namespace LinkedTreap

/-- Carries out a request, with its answer. -/
def request (t : LinkedTreap κ ν) :
    TreapRequest κ ν → Option (Except TreapError (Option ν) × LinkedTreap κ ν)
  | .call c => t.call c
  | .reserve n => some ((t.reserve n).map fun _ => none, t)

/-- Carries out several requests, with their answers. -/
def requestAll (t : LinkedTreap κ ν) :
    List (TreapRequest κ ν) → Option (List (Except TreapError (Option ν)) × LinkedTreap κ ν)
  | [] => some ([], t)
  | r :: rs => do
    let (answer, t) ← t.request r
    let (answers, t) ← requestAll t rs
    return (answer :: answers, t)

end LinkedTreap

end Requests

variable [LT κ] [DecidableLT κ] [LE κ] [DecidableLE κ] [Std.IsLinearOrder κ]
  [Std.LawfulOrderLT κ] [DecidableEq κ]

/-! ## Requests over the tree -/

namespace Treap.Denotes

variable {t : Treap κ ν} {m : Finmap fun _ : κ => ν}

/-- Neither the draws made nor the shape matter for what a treap denotes. -/
lemma reshape (h : t.Denotes m) {root : Tree κ ν} (hroot : root.toList = t.root.toList) (drawn : ℕ) :
    Treap.Denotes { t with drawn, root } m where
  wellFormed :=
    { sorted := by
        rw [Tree.Sorted, hroot]
        exact h.wellFormed.sorted
      holds := by
        rw [hroot]
        exact h.wellFormed.holds }
  mem_iff p := by
    rw [← h.mem_iff, Treap.toList, Treap.toList, hroot]

/-- **Room is promised exactly if there is room for the keys**, old and new. -/
lemma reserve_eq (h : t.Denotes m) (n : ℕ) :
    t.reserve n = if m.keys.card + n ≤ Slots.limit then .ok () else .error .outOfSlots := by
  have hiff := h.wellFormed.reserve_eq_ok_iff n
  rw [h.size_eq] at hiff
  split_ifs with hroom
  · exact hiff.mpr hroom
  · cases hreserve : t.reserve n with
    | ok u => exact absurd (hiff.mp hreserve) hroom
    | error e =>
        cases e
        rfl

/-- A call that makes no new key beyond the slots finds room. -/
lemma room_of_not (h : t.Denotes m) {c : TreapCall κ ν}
    (hroom : ¬(c.IsNew m ∧ Slots.limit ≤ m.keys.card)) : (c.on m).2.keys.card ≤ Slots.limit := by
  have hle := c.card_keys_on_le m
  have hsize := h.wellFormed.size_le
  rw [h.size_eq] at hsize
  split_ifs at hle with hnew
  · have hfree := not_le.mp fun hfull => hroom ⟨hnew, hfull⟩
    omega
  · exact hle.trans hsize

/-- A new key beyond the slots is refused. -/
lemma insert_full (h : t.Denotes m) {k : κ} (v : ν) (hk : k ∉ m) (hfull : Slots.limit ≤ m.keys.card) :
    t.insert k v = .error .outOfSlots := by
  refine h.wellFormed.insert_full v ?_ (h.size_eq ▸ hfull)
  rw [Bool.eq_false_iff, Ne, h.wellFormed.contains_iff, h.keys_eq, Finmap.mem_keys]
  exact hk

/-- **One request over the tree.** -/
theorem request (h : t.Denotes m) (r : TreapRequest κ ν) :
    (t.request r).1 = (r.on m).1 ∧ (t.request r).2.Denotes (r.on m).2 := by
  cases r with
  | reserve n =>
      refine ⟨?_, h⟩
      rw [Treap.request, TreapRequest.on, h.reserve_eq]
      split_ifs <;> rfl
  | call c =>
      rw [Treap.request, TreapRequest.on]
      split_ifs with hcrowded
      · cases c with
        | erase | modify | clear => cases hcrowded.1
        | insert k v =>
            rw [Treap.call, h.insert_full v hcrowded.1 hcrowded.2]
            exact ⟨rfl, h⟩
      · obtain ⟨t', hcall, h'⟩ := h.call c (h.room_of_not hcrowded)
        rw [hcall]
        exact ⟨rfl, h'⟩

/-- **Any requests over the tree.** -/
theorem requestAll (h : t.Denotes m) (rs : List (TreapRequest κ ν)) :
    (t.requestAll rs).1 = (TreapRequest.onAll m rs).1 ∧
      (t.requestAll rs).2.Denotes (TreapRequest.onAll m rs).2 := by
  induction rs generalizing t m with
  | nil => exact ⟨rfl, h⟩
  | cons r rs ih =>
      obtain ⟨hanswer, hnext⟩ := h.request r
      obtain ⟨hanswers, hdone⟩ := ih hnext
      exact ⟨congrArg₂ List.cons hanswer hanswers, hdone⟩

end Treap.Denotes

/-! ## Requests in the arena -/

namespace LinkedTreap

/-- The contents settle what the queries answer. -/
lemma Answers.congr {a : LinkedTreap κ ν} {t t' : Treap κ ν} {m : Finmap fun _ : κ => ν}
    (h : a.Answers t) (ht : t.Agrees m) (ht' : t'.Agrees m) : a.Answers t' where
  size := h.size.trans (ht.size.trans ht'.size.symm)
  isEmpty := h.isEmpty.trans (Bool.eq_iff_iff.mpr (ht.isEmpty.trans ht'.isEmpty.symm))
  get? k := (h.get? k).trans (congrArg some ((ht.get? k).trans (ht'.get? k).symm))
  contains k := (h.contains k).trans
    (congrArg some (Bool.eq_iff_iff.mpr ((ht.contains k).trans (ht'.contains k).symm)))
  floor? k := (h.floor? k).trans
    (congrArg some (Option.ext fun p => (ht.floor? k p).trans (ht'.floor? k p).symm))
  higher? k := (h.higher? k).trans
    (congrArg some (Option.ext fun p => (ht.higher? k p).trans (ht'.higher? k p).symm))
  min? := h.min?.trans (congrArg some (Option.ext fun p => (ht.min? p).trans (ht'.min? p).symm))
  max? := h.max?.trans (congrArg some (Option.ext fun p => (ht.max? p).trans (ht'.max? p).symm))
  range first last := by
    rw [h.range]
    refine congrArg some ((ht.range first last).1.eq_of_mem_iff (ht'.range first last).1 ?_)
    exact fun p => ((ht.range first last).2 p).trans ((ht'.range first last).2 p).symm
  toList := by
    rw [h.toList]
    refine congrArg some (ht.toList.1.eq_of_mem_iff ht'.toList.1 ?_)
    exact fun p => (ht.toList.2 p).trans (ht'.toList.2 p).symm

namespace Mirrors

variable {a : LinkedTreap κ ν} {t : Treap κ ν} {m : Finmap fun _ : κ => ν}

/-- The arena promises room as the treap over a tree does. -/
lemma reserve_eq (h : a.Mirrors t) (ht : t.WellFormed) (n : UInt64) :
    a.reserve n = t.reserve n.toNat := h.keeps.reserve_eq ht.holds n

/-- **One request in the arena.**  A refusal joins the tree again that was cut. -/
theorem request (h : a.Mirrors t) (hm : t.Denotes m) (r : TreapRequest κ ν) :
    ∃ t' a', a.request r = some ((r.on m).1, a') ∧ a'.Mirrors t' ∧ t'.Denotes (r.on m).2 := by
  cases r with
  | reserve n =>
      refine ⟨t, a, ?_, h, hm⟩
      rw [LinkedTreap.request, TreapRequest.on, h.reserve_eq hm.wellFormed, hm.reserve_eq]
      split_ifs <;> rfl
  | call c =>
      rw [LinkedTreap.request, TreapRequest.on]
      split_ifs with hcrowded
      · cases c with
        | erase | modify | clear => cases hcrowded.1
        | insert k v =>
            obtain ⟨a', root, hrun, h', hroot⟩ := h.insert_refused hm.wellFormed k v
              (hm.insert_full v hcrowded.1 hcrowded.2)
            refine ⟨_, a', ?_, h', hm.reshape hroot _⟩
            rw [LinkedTreap.call, hrun]
            rfl
      · obtain ⟨t', hcall, hm'⟩ := hm.call c (hm.room_of_not hcrowded)
        obtain ⟨a', hrun, h'⟩ := h.call hm.wellFormed c hcall
        exact ⟨t', a', hrun, h', hm'⟩

/-- **Any requests in the arena.** -/
theorem requestAll (h : a.Mirrors t) (hm : t.Denotes m) (rs : List (TreapRequest κ ν)) :
    ∃ t' a', a.requestAll rs = some ((TreapRequest.onAll m rs).1, a') ∧ a'.Mirrors t' ∧
      t'.Denotes (TreapRequest.onAll m rs).2 := by
  induction rs generalizing a t m with
  | nil => exact ⟨t, a, rfl, h, hm⟩
  | cons r rs ih =>
      obtain ⟨t₁, a₁, hrun, h₁, hm₁⟩ := h.request hm r
      obtain ⟨t', a', hruns, h', hm'⟩ := ih h₁ hm₁
      refine ⟨t', a', ?_, h', hm'⟩
      rw [LinkedTreap.requestAll, hrun]
      simp [hruns, TreapRequest.onAll]

end Mirrors

/-! ## The promise -/

/-- **A promise of room is exact, and it is kept.**  Whatever the draws, any calls and questions for room,
some of which may be refused, are answered as by a finite map, over the tree and in the arena alike.
Then room for `n` new keys is promised exactly if there are at most 2³² keys with them, and asking
changes nothing.  Once room is promised, calls that make at most `n` new keys are all carried out. -/
theorem reservations_kept (draws : Draws) (rs : List (TreapRequest κ ν)) :
    let m := (TreapRequest.onAll ∅ rs).2
    ∃ t a, (Treap.empty draws).requestAll rs = ((TreapRequest.onAll ∅ rs).1, t) ∧
      (LinkedTreap.empty draws).requestAll rs = some ((TreapRequest.onAll ∅ rs).1, a) ∧
      t.Agrees m ∧ a.Answers t ∧ ∀ n : UInt64,
        (a.reserve n = .ok () ↔ a.size + n.toNat ≤ 2 ^ 32) ∧
        a.reserve n = t.reserve n.toNat ∧
        (∃ answer, a.request (.reserve n) = some (answer, a)) ∧
        (a.reserve n = .ok () → ∀ cs, TreapCall.newKeys m cs ≤ n.toNat →
          (∃ t', t.callAll cs = .ok ((TreapCall.onAll m cs).1, t')) ∧
          ∃ a', a.callAll cs = some ((TreapCall.onAll m cs).1.map .ok, a')) := by
  intro m
  obtain ⟨hanswers, ht⟩ := (Treap.denotes_empty (κ := κ) (ν := ν) draws).requestAll rs
  -- after a refusal the arena is that of another tree, with the same contents
  obtain ⟨t', a, hruns, h, ht'⟩ := (mirrors_empty draws).requestAll (Treap.denotes_empty draws) rs
  refine ⟨_, a, Prod.ext hanswers rfl, hruns, ht.agrees,
    (h.answers ht'.wellFormed).congr ht'.agrees ht.agrees, ?_⟩
  intro n
  have hreserve : a.reserve n =
      if m.keys.card + n.toNat ≤ Slots.limit then .ok () else .error .outOfSlots := by
    rw [h.reserve_eq ht'.wellFormed, ht'.reserve_eq]
  have hiff : a.reserve n = .ok () ↔ m.keys.card + n.toNat ≤ Slots.limit := by
    rw [hreserve]
    split_ifs with hroom <;> simp [hroom]
  refine ⟨?_, ?_, ⟨_, rfl⟩, ?_⟩
  · rw [hiff, (h.answers ht'.wellFormed).size, ht'.size_eq]
    rfl
  · rw [hreserve, ht.reserve_eq]
  · intro hok cs hnew
    have hfit := TreapCall.fit_of_newKeys_le
      ((Nat.add_le_add_left hnew m.keys.card).trans (hiff.mp hok))
    obtain ⟨-, a', -, hcalls, -⟩ := h.callAll ht' cs hfit
    obtain ⟨t'', hcalls', -⟩ := ht.callAll cs hfit
    exact ⟨⟨t'', hcalls'⟩, a', hcalls⟩

/-- Requests after which one slot holds a node and another is vacant. -/
def roomAsked : List (TreapRequest UInt64 ℕ) :=
  slotReuse.map .call ++ [.reserve 0xffffffff, .call (.erase 5), .reserve 3]

/-- Calls of which three make a new key: one key is overwritten, removed and stored again. -/
def threeNew : List (TreapCall UInt64 ℕ) :=
  [.insert 5 4, .insert 7 9, .erase 7, .insert 7 1, .insert 3 8]

/-- With one key there is room for 2³² - 1 further ones, and the three that were asked for are taken. -/
theorem three_new_kept :
    ∃ a, (empty (Draws.ofSeed defaultSeed)).requestAll roomAsked =
        some ([none, none, some 11, some 2, none, none].map .ok ++
          [.error .outOfSlots, .ok (some 11), .ok none], a) ∧
      a.size = 1 ∧ a.reserve 3 = .ok () ∧ a.reserve 0xffffffff = .ok () ∧
      a.reserve 0x100000000 ≠ .ok () ∧ a.reserve 0xffffffffffffffff ≠ .ok () ∧
      ∃ a', a.callAll threeNew = some ([none, none, some 9, none, none].map .ok, a') := by
  obtain ⟨t, a, -, hruns, hagrees, hanswers, hroom⟩ :=
    reservations_kept (Draws.ofSeed defaultSeed) roomAsked
  have hsize : a.size = 1 := by
    rw [hanswers.size, hagrees.size]
    decide +kernel
  have hiff : ∀ n, a.reserve n = .ok () ↔ 1 + n.toNat ≤ 2 ^ 32 := by
    intro n
    rw [(hroom n).1, hsize]
  have hthree : a.reserve 3 = .ok () := (hiff 3).mpr (by decide)
  obtain ⟨-, -, -, hkept⟩ := hroom 3
  refine ⟨a, hruns, hsize, hthree, (hiff _).mpr (by decide), ?_, ?_, ?_⟩
  · exact fun hok => absurd ((hiff _).mp hok) (by decide)
  · exact fun hok => absurd ((hiff _).mp hok) (by decide)
  · exact (hkept hthree threeNew (by decide +kernel)).2

end LinkedTreap

end RegionLedger
