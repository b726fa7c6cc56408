import RegionLedger.Proofs.Region.Painting
import RegionLedger.Proofs.Space.Peaks
import RegionLedger.Proofs.Space.Repeating

/-!
# Mappings made in pieces

A range of the process can be mapped piece by piece, in any order.  All pieces have the distance from
address to offset of the whole, so they paint the bytes with one side and leave no boundary between
them.  On the way there may be more boundaries than before and after, one for each cut; and every
piece moves each counter in the direction of the whole, so what is booked adds up to what the whole
mapping books, even if the totals are not exact.

* `Operation.pieces`, `Operation.cuts` — the mappings of consecutive pieces, and where they end.
* `Space.Painted` — a space of which parts of a range have been painted.
* `Ledger.Underway` — some pieces have been mapped.
* `Ledger.map_in_pieces` — what is left when all of them have.
-/

namespace RegionLedger

/-! ## Pieces -/

namespace Operation

/-- The mappings of consecutive pieces of the given lengths, the first from `base` onto `offset`. -/
def pieces (id : SpaceId) (tag : Tag) (stack : CallStack) (base offset : Address) :
    List UInt64 → List Operation
  | [] => []
  | n :: rest => map id base n offset tag stack :: pieces id tag stack (base + n) (offset + n) rest

/-- The addresses at which consecutive pieces of the given lengths begin or end. -/
def cuts (base : Address) : List UInt64 → List Address
  | [] => [base]
  | n :: rest => base :: cuts (base + n) rest

/-- The lengths are those of consecutive pieces of a length, none of which is empty. -/
structure CutsUp (sizes : List UInt64) (size : UInt64) : Prop where
  nonempty : ∀ n ∈ sizes, n ≠ 0
  sum_eq : (sizes.map UInt64.toNat).sum = size.toNat

lemma length_cuts (base : Address) (sizes : List UInt64) :
    (cuts base sizes).length = sizes.length + 1 := by
  induction sizes generalizing base with
  | nil => rfl
  | cons n rest ih => rw [cuts, List.length_cons, ih, List.length_cons]

lemma base_mem_cuts (base : Address) (sizes : List UInt64) : base ∈ cuts base sizes := by
  cases sizes <;> exact List.mem_cons_self

variable {id : SpaceId} {tag : Tag} {stack : CallStack} {base offset : Address}
  {sizes : List UInt64} {total : ℕ} {op : Operation}

/-- The `n` bytes from `b`, mapped from `o` on, are a piece of the `total` bytes from `base`, mapped
from `offset` on. -/
structure IsPiece (base offset : Address) (total : ℕ) (sizes : List UInt64) (b : Address) (n : UInt64)
    (o : Address) : Prop where
  size_mem : n ∈ sizes
  base_le : base.toNat ≤ b.toNat
  stop_le : b.toNat + n.toNat ≤ base.toNat + total
  offset_stop_le : o.toNat + n.toNat ≤ offset.toNat + total
  distance : o - b = offset - base
  start_mem : b ∈ cuts base sizes
  stop_mem : b + n ∈ cuts base sizes

/-- **Pieces lie in the range**, at the distance of the whole. -/
lemma exists_isPiece (hop : op ∈ pieces id tag stack base offset sizes)
    (hsum : (sizes.map UInt64.toNat).sum = total) (hbase : base.toNat + total < 2 ^ 64)
    (hoffset : offset.toNat + total < 2 ^ 64) :
    ∃ b n o, op = map id b n o tag stack ∧ IsPiece base offset total sizes b n o := by
  induction sizes generalizing base offset total with
  | nil => cases hop
  | cons n rest ih =>
      rw [List.map_cons, List.sum_cons] at hsum
      have hbase' : (base + n).toNat = base.toNat + n.toNat := toNat_add_of_lt (by omega)
      have hoffset' : (offset + n).toNat = offset.toNat + n.toNat := toNat_add_of_lt (by omega)
      rcases List.mem_cons.mp hop with rfl | hop
      · exact ⟨base, n, offset, rfl, List.mem_cons_self, le_refl _, by omega, by omega, rfl,
          List.mem_cons_self, List.mem_cons_of_mem _ (base_mem_cuts _ _)⟩
      · have hrest : (rest.map UInt64.toNat).sum = total - n.toNat := by omega
        obtain ⟨b, k, o, rfl, hpiece⟩ := ih hop hrest (by omega) (by omega)
        have hdistance : offset + n - (base + n) = offset - base := by grind
        refine ⟨b, k, o, rfl, List.mem_cons_of_mem _ hpiece.size_mem, ?_, ?_, ?_,
          hpiece.distance.trans hdistance, List.mem_cons_of_mem _ hpiece.start_mem,
          List.mem_cons_of_mem _ hpiece.stop_mem⟩
        · have hle := hpiece.base_le
          omega
        · have hle := hpiece.stop_le
          omega
        · have hle := hpiece.offset_stop_le
          omega

/-- **Pieces leave nothing out.** -/
lemma exists_piece_covers (hsum : (sizes.map UInt64.toNat).sum = total)
    (hbase : base.toNat + total < 2 ^ 64) {x : Address} (hle : base ≤ x)
    (hlt : x.toNat < base.toNat + total) :
    ∃ op ∈ pieces id tag stack base offset sizes, op.Covers x := by
  induction sizes generalizing base offset total with
  | nil =>
      rw [UInt64.le_iff_toNat_le] at hle
      rw [List.map_nil, List.sum_nil] at hsum
      omega
  | cons n rest ih =>
      rw [List.map_cons, List.sum_cons] at hsum
      have hbase' : (base + n).toNat = base.toNat + n.toNat := toNat_add_of_lt (by omega)
      by_cases hfirst : x.toNat < base.toNat + n.toNat
      · exact ⟨_, List.mem_cons_self, hle, hfirst⟩
      · have hrest : (rest.map UInt64.toNat).sum = total - n.toNat := by omega
        have hend : (base + n).toNat + (total - n.toNat) < 2 ^ 64 := by omega
        have hle' : base + n ≤ x := by
          rw [UInt64.le_iff_toNat_le]
          omega
        obtain ⟨op, hop, hcovers⟩ := ih hrest hend hle' (by omega)
        exact ⟨op, List.mem_cons_of_mem _ hop, hcovers⟩

/-- Nothing stands against a piece of a range that lies within its space. -/
lemma objection?_piece {known : SpaceId → Bool} {size n : UInt64} {b o : Address}
    (hnone : (map id base size offset tag stack).objection? known = none)
    (ho : o.toNat + n.toNat < 2 ^ 64) : (map id b n o tag stack).objection? known = none := by
  have hend : endOf? o n = some (o + n) := if_pos ho
  rw [objection?] at hnone ⊢
  split_ifs at hnone with hself hunknown
  rw [if_neg hself, if_neg hunknown, hend]
  rfl

lemma offset_stop_of_objection? {known : SpaceId → Bool} {size : UInt64}
    (hnone : (map id base size offset tag stack).objection? known = none) :
    offset.toNat + size.toNat < 2 ^ 64 := by
  rw [objection?] at hnone
  split_ifs at hnone with hself hunknown hoffset
  by_contra hend
  have hrefused : endOf? offset size = none := if_neg hend
  rw [hrefused] at hoffset
  exact hoffset rfl

end Operation

/-- Every cut is one more boundary at most. -/
lemma RegionMap.card_union_cuts_le {μ : Type} {m : RegionMap μ} (hm : m.boundaries.WellFormed)
    (base : Address) (sizes : List UInt64) :
    (m.keys ∪ (Operation.cuts base sizes).toFinset).card ≤ m.size + sizes.length + 1 := by
  have hunion := Finset.card_union_le m.keys (Operation.cuts base sizes).toFinset
  have hcuts := List.toFinset_card_le (Operation.cuts base sizes)
  rw [Operation.length_cuts] at hcuts
  rw [card_keys hm] at hunion
  omega

/-! ## Spaces -/

lemma Bytes.painted_overwrite {μ : Type} {f : Bytes μ} {a b first last : Address} {side : Side μ}
    (hfirst : a ≤ first) (hlast : last ≤ b) :
    f.Painted (f.overwrite first last side) a b side := by
  intro x
  by_cases hx : first ≤ x ∧ x < last
  · exact .inr ⟨⟨by grind, by grind⟩, Bytes.overwrite_of_mem hx.1 hx.2⟩
  · exact .inl (Bytes.overwrite_of_not_mem hx)

namespace Space

/-- The range from `a` to `b` of the space `s` has been painted in parts, which returned the deltas
`ds`; these have a sum.  New boundaries are at the addresses in `marks` only. -/
structure Painted (s : Space) (a b : Address) (side : Side Placement) (marks : Finset Address)
    (ds : List Deltas) (t : Space) : Prop where
  represents : t.reserved.Represents t.reserved.sideAt
  painted : Bytes.Painted s.reserved.sideAt t.reserved.sideAt a b side
  keys : t.reserved.keys ⊆ s.reserved.keys ∪ marks
  summed : ∃ sum, ds.foldlM Deltas.plus ∅ = .ok sum ∧
    sum.Books s.reserved.sideAt t.reserved.sideAt ∧ t.totals = s.totals.apply sum
  name : t.name = s.name
  committed : t.committed = s.committed

namespace Painted

variable {s t t' : Space} {a b start : Address} {side : Side Placement} {marks : Finset Address}
  {ds : List Deltas} {size : UInt64} {data : Placement} {d : Deltas}

lemma refl (hs : s.reserved.Represents s.reserved.sideAt) (a b : Address) (side : Side Placement)
    (marks : Finset Address) : s.Painted a b side marks [] s :=
  ⟨hs, Bytes.Painted.refl _ a b side, Finset.subset_union_left, ⟨∅, rfl, Deltas.books_empty _, rfl⟩,
    rfl, rfl⟩

/-- **One more part is painted**, unless the slots run out. -/
lemma reserve (h : s.Painted a b { state := .reserved, data } marks ds t)
    (hsorted : s.totals.Sorted) (hpeaked : s.totals.Peaked) (hpos : 0 < size.toNat)
    (hlen : b.toNat - a.toNat ≤ 2 ^ 63 - 1) (hfirst : a ≤ start)
    (hlast : start.toNat + size.toNat ≤ b.toNat) (hstart : start ∈ marks)
    (hstop : start + size ∈ marks) :
    (∃ d t', t.reserve start size data = (.ok d, t') ∧
      s.Painted a b { state := .reserved, data } marks (ds ++ [d]) t' ∧
      t'.reserved.sideAt =
        Bytes.overwrite t.reserved.sideAt start (start + size) { state := .reserved, data }) ∨
    (t.reserve start size data).1 = .error (.outOfMemory .outOfSlots) ∧
      Slots.limit < (s.reserved.keys ∪ marks).card := by
  have hword := b.toNat_lt
  have hle := UInt64.le_iff_toNat_le.mp hfirst
  have hroom : start.toNat + size.toNat < 2 ^ 64 := by omega
  have hend := toNat_add_of_lt hroom
  have hkeys : t.reserved.keys ∪ {start, start + size} ⊆ s.reserved.keys ∪ marks := by
    refine Finset.union_subset h.keys ?_
    simp [Finset.insert_subset_iff, hstart, hstop]
  rcases h.represents.reserve_answers hpos (by omega) hroom data with
    ⟨d, m, hok, hm, hsides, hbooks, hmarks⟩ | ⟨hfull, hlimit⟩
  · refine .inl ⟨d, account { t with reserved := m } d, ?_, ?_, hsides⟩
    · rw [Space.reserve, hok]
      rfl
    · have hstep : Bytes.Painted t.reserved.sideAt m.sideAt a b { state := .reserved, data } := by
        rw [hsides]
        refine Bytes.painted_overwrite hfirst ?_
        rw [UInt64.le_iff_toNat_le, hend]
        exact hlast
      have hpainted := h.painted.trans hstep
      have hchange := RegionMap.fits_held_sub hlen hpainted.outside
      obtain ⟨sum, hfold, hsumbooks, htotals⟩ := h.summed
      obtain ⟨sum', hplus, hbooks'⟩ := hsumbooks.exists_plus hbooks hchange
      have hsame := h.painted.sameWay hstep State.noConfusion hsumbooks hbooks
      refine ⟨hm, hpainted, hmarks.trans hkeys, ⟨sum', ?_, hbooks', ?_⟩, h.name, h.committed⟩
      · rw [List.foldlM_append, hfold]
        exact (bind_pure (sum.plus d)).trans hplus
      · show t.totals.apply d = _
        rw [htotals]
        exact hpeaked.apply_plus hsorted hsumbooks.distinct hbooks.distinct hsame hplus
  · refine .inr ⟨?_, hlimit.trans_le (Finset.card_le_card hkeys)⟩
    rw [Space.reserve, hfull]
    rfl

/-- **It makes no difference in which parts a range is painted.** -/
lemma unchanged (h : s.Painted a b side marks ds t)
    (hm : t'.reserved.Represents t'.reserved.sideAt)
    (hd : d.Books s.reserved.sideAt t'.reserved.sideAt) (htotals : t'.totals = s.totals.apply d)
    (hname : t'.name = s.name) (hcommitted : t'.committed = s.committed)
    (hsame : t.reserved.sideAt = t'.reserved.sideAt) :
    t'.Unchanged t ∧ ∃ sum, ds.foldlM Deltas.plus ∅ = .ok sum ∧ (sum == d) = true := by
  have hrepresents := h.represents
  obtain ⟨sum, hfold, hbooks, htotals'⟩ := h.summed
  rw [hsame] at hrepresents hbooks
  have hget : ∀ tag, sum.get tag = d.get tag := by
    intro tag
    refine Deltas.get_eq_of_amount_eq fun c => ?_
    rw [hbooks.amount, hd.amount]
  have hagree : Deltas.Agree sum d := ⟨hbooks.distinct, hd.distinct, hget⟩
  refine ⟨⟨h.name.trans hname.symm, hrepresents.points_unique hm, ?_, ?_⟩,
    sum, hfold, hbooks.distinct.beq hd.distinct hget⟩
  · rw [h.committed, hcommitted]
  · rw [htotals', htotals, Totals.apply, Totals.apply, hagree.toList_eq]

end Painted

/-- A reservation that is carried out paints its range. -/
lemma Maps.of_reserve_eq_ok {s t : Space} (hs : s.Maps) {start : Address} {size : UInt64}
    {data : Placement} {d : Deltas} (hok : s.reserve start size data = (.ok d, t)) :
    (0 < size.toNat ∧ size.toNat ≤ 2 ^ 63 - 1 ∧ start.toNat + size.toNat < 2 ^ 64) ∧
      t.reserved.Represents t.reserved.sideAt ∧
      t.reserved.sideAt =
        Bytes.overwrite s.reserved.sideAt start (start + size) { state := .reserved, data } ∧
      d.Books s.reserved.sideAt t.reserved.sideAt ∧ t.totals = s.totals.apply d ∧
      t.name = s.name ∧ t.committed = s.committed := by
  rw [Space.reserve] at hok
  cases happly : s.reserved.reserve start size data with
  | error e =>
      rw [happly] at hok
      cases hok
  | ok answer =>
      obtain ⟨d', m⟩ := answer
      rw [happly] at hok
      cases hok
      have hmutation : (Mutation.reserve start size data).apply s.reserved = .ok (d, m) := happly
      obtain ⟨hvalid, hm, hsides, hbooks⟩ := hs.reserved.apply_writes hmutation
      simp only [Mutation.Valid, Mutation.first, Mutation.stop, Mutation.size] at hvalid
      have hend : start.toNat + size.toNat < 2 ^ 64 := hvalid.2.2
      refine ⟨by omega, hm, ?_, hbooks, rfl, rfl, rfl⟩
      show m.sideAt = _
      rw [hsides]
      exact funext fun x => if_congr (inRange_iff hend x) rfl rfl

end Space

/-! ## Ledgers -/

namespace Ledger

/-- The calls for operations. -/
abbrev callsOf (ops : List Operation) : List LedgerCall := ops.map .operation

lemma answers_concat (v : Ledger) (calls : List LedgerCall) (c : LedgerCall) :
    v.answers (calls ++ [c]) = v.answers calls ++ [(v.run calls).answer c] := by
  induction calls generalizing v with
  | nil => rfl
  | cons first rest ih =>
      show v.answer first :: (v.step first).answers (rest ++ [c]) = _
      rw [ih]
      rfl

/-- The operations are carried out one after the other, and return the deltas `ds`. -/
def CarriesOut (v : Ledger) (ops : List Operation) (ds : List Deltas) : Prop :=
  v.answers (callsOf ops) = ds.map fun d => .ok (.inr d)

lemma run_callsOf_concat (v : Ledger) (ops : List Operation) (op : Operation) :
    v.run (callsOf (ops ++ [op])) = ((v.run (callsOf ops)).apply op).2 := by
  rw [callsOf, List.map_append]
  exact run_concat v _ _

lemma CarriesOut.concat {v v' : Ledger} {ops : List Operation} {ds : List Deltas} {op : Operation}
    {d : Deltas} (h : v.CarriesOut ops ds) (hok : (v.run (callsOf ops)).apply op = (.ok d, v')) :
    v.CarriesOut (ops ++ [op]) (ds ++ [d]) := by
  rw [CarriesOut, callsOf, List.map_append, List.map_append, ← h]
  refine (answers_concat v _ _).trans (congrArg _ ?_)
  rw [answer, hok]
  rfl

/-- A mapping of a range of the process, with the reference to its call stack. -/
structure MappedRange where
  /-- The space behind the range. -/
  id : SpaceId
  /-- The first byte. -/
  base : Address
  /-- The length. -/
  size : UInt64
  /-- The offset that the first byte maps to. -/
  offset : Address
  /-- The tag that the range is booked under. -/
  tag : Tag
  /-- The call stack. -/
  stack : CallStack
  /-- The place of the call stack in the store. -/
  ref : StackRef

namespace MappedRange

/-- The mapping in one operation. -/
def whole (r : MappedRange) : Operation := .map r.id r.base r.size r.offset r.tag r.stack

/-- The mapping in consecutive pieces. -/
def pieces (r : MappedRange) (sizes : List UInt64) : List Operation :=
  Operation.pieces r.id r.tag r.stack r.base r.offset sizes

/-- The metadata of the range. -/
def data (r : MappedRange) : Placement :=
  { stack := r.ref, tag := r.tag, mapping := some (.ofBase r.id r.base r.offset) }

end MappedRange

/-- The ledger can map the range: nothing stands against it, its call stack has its place, and the
range is valid. -/
structure CanMap (v : Ledger) (r : MappedRange) (store : StackStore) (s : Space) : Prop where
  unopposed : r.whole.objection? v.knows = none
  push : v.callStacks.push r.stack = .ok (r.ref, store)
  again : store.push r.stack = .ok (r.ref, store)
  process : v.space? .process = some s
  covered : s.Covered
  peaked : s.totals.Peaked
  size_le : r.size.toNat ≤ 2 ^ 63 - 1
  stop_lt : r.base.toNat + r.size.toNat < 2 ^ 64

/-- Some pieces of the range have been mapped: they returned the deltas `ds`, and the process `s` has
become `t`, which is mapped wherever a piece covers it. -/
structure Underway (v : Ledger) (r : MappedRange) (store : StackStore) (s : Space)
    (sizes : List UInt64) (ops : List Operation) (ds : List Deltas) (t : Space) : Prop where
  carriesOut : v.CarriesOut ops ds
  size : (v.run (callsOf ops)).size = v.size
  seed : (v.run (callsOf ops)).seed = v.seed
  push : (v.run (callsOf ops)).callStacks.push r.stack = .ok (r.ref, store)
  stored : ops ≠ [] → (v.run (callsOf ops)).callStacks = store
  process : (v.run (callsOf ops)).space? .process = some t
  elsewhere : ∀ id, id ≠ .process → (v.run (callsOf ops)).space? id = v.space? id
  painted : s.Painted r.base (r.base + r.size) { state := .reserved, data := r.data }
    (Operation.cuts r.base sizes).toFinset ds t
  covered : ∀ x, (∃ op ∈ ops, op.Covers x) →
    t.reserved.sideAt x = { state := .reserved, data := r.data }

variable {v : Ledger} {r : MappedRange} {store : StackStore} {s t : Space} {sizes : List UInt64}
  {ops : List Operation} {ds : List Deltas}

lemma CanMap.underway_nil (hv : v.CanMap r store s) (sizes : List UInt64) :
    v.Underway r store s sizes [] [] s where
  carriesOut := rfl
  size := rfl
  seed := rfl
  push := hv.push
  stored hne := absurd rfl hne
  process := hv.process
  elsewhere _ _ := rfl
  painted := .refl hv.covered.reserved _ _ _ _
  covered := by simp

/-- A piece at the distance of the whole is left to the process, with the metadata of the whole. -/
lemma Underway.apply_piece (h : v.Underway r store s sizes ops ds t) (hv : v.CanMap r store s)
    {b o : Address} {n : UInt64} (ho : o.toNat + n.toNat < 2 ^ 64)
    (hdistance : o - b = r.offset - r.base) :
    (v.run (callsOf ops)).apply (.map r.id b n o r.tag r.stack) =
      ((t.reserve b n r.data).1.mapError .region, { v.run (callsOf ops) with
        callStacks := store
        spaces := (v.run (callsOf ops)).spaces.setIfInBounds SpaceId.process.raw.toNat
          (t.reserve b n r.data).2 }) := by
  have hunopposed : (Operation.map r.id b n o r.tag r.stack).objection?
      (v.run (callsOf ops)).knows = none := by
    rw [knows_congr h.size]
    exact Operation.objection?_piece hv.unopposed ho
  have hprocess : space? { v.run (callsOf ops) with callStacks := store } .process = some t :=
    h.process
  have hact : (Operation.map r.id b n o r.tag r.stack).act r.ref t = t.reserve b n r.data := by
    have hmapping : Mapping.ofBase r.id b o = .ofBase r.id r.base r.offset := by
      rw [Mapping.ofBase, Mapping.ofBase, hdistance]
    rw [MappedRange.data, ← hmapping]
    rfl
  rw [← hact]
  exact (apply_of_push hunopposed rfl h.push).trans (onSpace_eq hprocess _)

/-- **One more piece is mapped**, unless the slots run out. -/
lemma Underway.concat (h : v.Underway r store s sizes ops ds t) (hv : v.CanMap r store s)
    (hsizes : Operation.CutsUp sizes r.size) {op : Operation} (hop : op ∈ r.pieces sizes) :
    (∃ d t', v.Underway r store s sizes (ops ++ [op]) (ds ++ [d]) t') ∨
    (v.run (callsOf ops)).OutOfSlots op ∧
      Slots.limit < (s.reserved.keys ∪ (Operation.cuts r.base sizes).toFinset).card := by
  have hoffset := Operation.offset_stop_of_objection? hv.unopposed
  obtain ⟨b, n, o, rfl, hpiece⟩ :=
    Operation.exists_isPiece hop hsizes.sum_eq hv.stop_lt hoffset
  have hstop := hpiece.stop_le
  have hlen := hv.size_le
  have hlt := hv.stop_lt
  have hend := toNat_add_of_lt hlt
  have hpos : 0 < n.toNat := by
    refine Nat.pos_of_ne_zero fun hzero => hsizes.nonempty n hpiece.size_mem ?_
    exact UInt64.toNat_inj.mp hzero
  have happly := h.apply_piece hv (hpiece.offset_stop_le.trans_lt hoffset) hpiece.distance
  rcases h.painted.reserve hv.covered.sorted hv.peaked hpos (by omega)
    (UInt64.le_iff_toNat_le.mpr hpiece.base_le) (by omega) (List.mem_toFinset.mpr hpiece.start_mem)
    (List.mem_toFinset.mpr hpiece.stop_mem) with ⟨d, t', hok, hpainted, hsides⟩ | ⟨hfull, hlimit⟩
  · rw [hok] at happly
    have hspace := space?_set h.process t'
    refine .inl ⟨d, t', h.carriesOut.concat happly, ?_, ?_, ?_, ?_, ?_, ?_, hpainted, ?_⟩
    · rw [run_callsOf_concat, ← h.size]
      exact (v.run (callsOf ops)).size_apply _
    · rw [run_callsOf_concat, happly]
      exact h.seed
    · rw [run_callsOf_concat, happly]
      exact hv.again
    · intro _
      rw [run_callsOf_concat, happly]
    · rw [run_callsOf_concat, happly]
      exact (hspace .process).trans (if_pos rfl)
    · intro id hid
      rw [run_callsOf_concat, happly]
      exact ((hspace id).trans (if_neg hid)).trans (h.elsewhere id hid)
    · rintro x ⟨op, hop, hx⟩
      rw [hsides, Bytes.overwrite]
      split_ifs with hin
      · rfl
      · rcases List.mem_append.mp hop with hop | hop
        · exact h.covered x ⟨op, hop, hx⟩
        · rw [List.mem_singleton.mp hop] at hx
          have hroom : b.toNat + n.toNat < 2 ^ 64 := by omega
          exact absurd ((inRange_iff hroom x).mp hx) hin
  · refine .inr ⟨?_, hlimit⟩
    rw [OutOfSlots, happly, hfull]
    rfl

/-- **Pieces are mapped one after the other**, unless the slots run out.  The induction is on the
pieces, from the last one. -/
lemma CanMap.underway (hv : v.CanMap r store s) (hsizes : Operation.CutsUp sizes r.size)
    (hops : ∀ op ∈ ops, op ∈ r.pieces sizes) :
    (∃ ds t, v.Underway r store s sizes ops ds t) ∨
    (∃ before op ds, before ++ [op] <+: ops ∧ v.CarriesOut before ds ∧
        (v.run (callsOf before)).OutOfSlots op) ∧
      Slots.limit < (s.reserved.keys ∪ (Operation.cuts r.base sizes).toFinset).card := by
  induction ops using List.reverseRecOn with
  | nil => exact .inl ⟨[], s, hv.underway_nil sizes⟩
  | append_singleton ops op ih =>
      rcases ih fun op hop => hops op (List.mem_append_left _ hop) with
        ⟨ds, t, h⟩ | ⟨⟨before, op', ds, hprefix, hfull⟩, hlimit⟩
      · rcases h.concat hv hsizes (hops op (List.mem_append_right _ List.mem_cons_self)) with
          ⟨d, t', h'⟩ | ⟨hfull, hlimit⟩
        · exact .inl ⟨_, t', h'⟩
        · exact .inr ⟨⟨ops, op, ds, List.prefix_rfl, h.carriesOut, hfull⟩, hlimit⟩
      · exact .inr ⟨⟨before, op', ds, hprefix.trans (List.prefix_append _ _), hfull⟩, hlimit⟩

/-- **All pieces together** paint the whole range. -/
lemma Underway.sideAt_eq (h : v.Underway r store s sizes ops ds t) (hv : v.CanMap r store s)
    (hsizes : Operation.CutsUp sizes r.size) (hops : ∀ op ∈ r.pieces sizes, op ∈ ops) :
    t.reserved.sideAt = Bytes.overwrite s.reserved.sideAt r.base (r.base + r.size)
      { state := .reserved, data := r.data } := by
  funext x
  rw [Bytes.overwrite]
  split_ifs with hin
  · obtain ⟨hle, hlt⟩ := (inRange_iff hv.stop_lt x).mpr hin
    obtain ⟨op, hop, hcovers⟩ := Operation.exists_piece_covers hsizes.sum_eq hv.stop_lt hle hlt
    exact h.covered x ⟨op, hops op hop, hcovers⟩
  · exact h.painted.painted.outside x hin

/-- A mapping that is carried out could be. -/
lemma exists_canMap (hpos : 0 < v.size) (hindexed : v.Indexed)
    (hprocess : ∀ s, v.space? .process = some s → s.Covered ∧ s.totals.Peaked) {id : SpaceId}
    {base offset : Address} {size : UInt64} {tag : Tag} {stack : CallStack} {d : Deltas} {v' : Ledger}
    (hok : v.apply (.map id base size offset tag stack) = (.ok d, v')) :
    ∃ ref store s s', v.CanMap ⟨id, base, size, offset, tag, stack, ref⟩ store s ∧
      s.reserve base size { stack := ref, tag, mapping := some (.ofBase id base offset) } =
        (.ok d, s') ∧
      v' = { v with
        callStacks := store
        spaces := v.spaces.setIfInBounds SpaceId.process.raw.toNat s' } := by
  have hunopposed := unopposed_of_apply_ok hok
  rcases apply_cases hpos (.map id base size offset tag stack) with
    ⟨e, hrefused⟩ | ⟨ref, store, s, hpush, hs, -, happly⟩
  · cases hrefused.symm.trans hok
  · obtain ⟨hcovered, hpeaked⟩ := hprocess s hs
    cases hact : s.reserve base size
        { stack := ref, tag, mapping := some (.ofBase id base offset) } with
    | mk answer s' =>
        have hact' : (Operation.map id base size offset tag stack).act ref s = (answer, s') := hact
        rw [happly, hact', Prod.mk.injEq] at hok
        obtain ⟨hanswer, rfl⟩ := hok
        cases answer with
        | error e => cases hanswer
        | ok d' =>
            obtain rfl : d' = d := Except.ok.inj hanswer
            obtain ⟨⟨-, hlen, hend⟩, -⟩ := hcovered.of_reserve_eq_ok hact
            exact ⟨ref, store, s, s', ⟨hunopposed, hpush, hindexed.push_again hpush, hs, hcovered,
              hpeaked, hlen, hend⟩, hact, rfl⟩

/-- The region around a byte in use. -/
lemma exists_findRegion? (hs : v.space? .process = some s)
    (hm : s.reserved.Represents s.reserved.sideAt) {x : Address}
    (hx : (s.reserved.sideAt x).state ≠ .released) :
    ∃ found, v.findRegion? x = some found ∧ found.run.side = s.reserved.sideAt x := by
  cases hrun : s.reserved.enclosing? x with
  | none => exact absurd ((hm.enclosing?_eq_none_iff x).mp hrun) hx
  | some run =>
      refine ⟨{ run, stack := v.callStacks.get run.side.data.stack }, ?_,
        hm.side_of_enclosing? hrun⟩
      rw [findRegion?, hs, Option.bind_some, hrun, Option.map_some]

/-- An address of a mapped range maps to the offset of the range and its distance from the start. -/
lemma toNat_offsetOf_ofBase {id : SpaceId} {base offset x : Address} {size : UInt64}
    (hx : InRange base size x) (hoffset : offset.toNat + size.toNat < 2 ^ 64) :
    ((Mapping.ofBase id base offset).offsetOf x).toNat = offset.toNat + (x.toNat - base.toNat) := by
  obtain ⟨hle, hlt⟩ := hx
  have hsub : (x - base).toNat = x.toNat - base.toNat := UInt64.toNat_sub_of_le _ _ hle
  have hsum : (Mapping.ofBase id base offset).offsetOf x = offset + (x - base) := by
    rw [Mapping.ofBase, Mapping.offsetOf]
    grind
  rw [UInt64.le_iff_toNat_le] at hle
  rw [hsum, toNat_add_of_lt (by omega), hsub]

/-- Every address of the range maps to its own offset when all pieces have been mapped. -/
lemma Underway.exists_mapping (h : v.Underway r store s sizes ops ds t) (hv : v.CanMap r store s)
    (hsizes : Operation.CutsUp sizes r.size) (hops : ∀ op ∈ r.pieces sizes, op ∈ ops) {x : Address}
    (hx : InRange r.base r.size x) :
    ∃ found m, (v.run (callsOf ops)).findRegion? x = some found ∧
      found.run.side.data.mapping = some m ∧ m.space = r.id ∧
      (m.offsetOf x).toNat = r.offset.toNat + (x.toNat - r.base.toNat) := by
  have hin := (inRange_iff hv.stop_lt x).mp hx
  have hside : t.reserved.sideAt x = { state := .reserved, data := r.data } := by
    rw [h.sideAt_eq hv hsizes hops]
    exact Bytes.overwrite_of_mem hin.1 hin.2
  obtain ⟨found, hfound, hrun⟩ := exists_findRegion? h.process h.painted.represents (x := x)
    (by rw [hside]; exact State.noConfusion)
  refine ⟨found, .ofBase r.id r.base r.offset, hfound, ?_, rfl, ?_⟩
  · rw [hrun, hside]
    rfl
  · exact toNat_offsetOf_ofBase hx (Operation.offset_stop_of_objection? hv.unopposed)

/-- **All pieces leave what the whole leaves**, and what they return adds up to what it returns. -/
lemma Underway.unchanged (h : v.Underway r store s sizes ops ds t) (hv : v.CanMap r store s)
    (hsizes : Operation.CutsUp sizes r.size) (hops : ∀ op ∈ r.pieces sizes, op ∈ ops) {d : Deltas}
    {s' : Space} (hact : s.reserve r.base r.size r.data = (.ok d, s')) :
    Unchanged { v with
        callStacks := store
        spaces := v.spaces.setIfInBounds SpaceId.process.raw.toNat s' } (v.run (callsOf ops)) ∧
      ∃ sum, ds.foldlM Deltas.plus ∅ = .ok sum ∧ (sum == d) = true := by
  obtain ⟨⟨hpos, -, hend⟩, hm, hsides, hbooks, htotals, hname, hcommitted⟩ :=
    hv.covered.of_reserve_eq_ok hact
  have hsame := (h.sideAt_eq hv hsizes hops).trans hsides.symm
  obtain ⟨hunchanged, hsum⟩ := h.painted.unchanged hm hbooks htotals hname hcommitted hsame
  have hne : ops ≠ [] := by
    obtain ⟨op, hop, -⟩ := Operation.exists_piece_covers (x := r.base) hsizes.sum_eq hend
      (UInt64.le_refl r.base) (by omega)
    exact List.ne_nil_of_mem (hops op hop)
  have hspace := space?_set (v := { v with callStacks := store }) hv.process s'
  refine ⟨⟨?_, h.seed, h.stored hne, ?_⟩, hsum⟩
  · rw [h.size]
    simp [Ledger.size]
  · intro j u hu
    by_cases hj : j = .process
    · obtain rfl : s' = u := by
        rw [hj] at hu
        exact Option.some.inj (((hspace .process).trans (if_pos rfl)).symm.trans hu)
      rw [hj]
      exact ⟨t, h.process, hunchanged⟩
    · refine ⟨u, (h.elsewhere j hj).trans ?_, Space.Unchanged.refl u⟩
      exact ((hspace j).trans (if_neg hj)).symm.trans hu

/-- **A mapping can be made in pieces.**  Take any run of calls and a mapping after it that is carried
out, and cut its length into consecutive non-empty pieces in any way.  The pieces, mapped in any order
from their own addresses onto their own offsets, are all carried out.  What they return adds up to
what the whole mapping returns, and they leave what it leaves: the same boundaries, totals and call
stacks.  Then every address of the range maps to its own offset, whether the offsets lie above the
addresses or below.  The one exception is that the slots run out on the way, which takes more
boundaries than there are slots. -/
theorem map_in_pieces (config : Config) (calls : List LedgerCall) (id : SpaceId) (base : Address)
    (size : UInt64) (offset : Address) (tag : Tag) (stack : CallStack) (d : Deltas) (v' : Ledger)
    (hok : ((create config).run calls).apply (.map id base size offset tag stack) = (.ok d, v'))
    (sizes : List UInt64) (hsizes : Operation.CutsUp sizes size) (ops : List Operation)
    (horder : ops.Perm (Operation.pieces id tag stack base offset sizes)) :
    ((∃ before op ds, before ++ [op] <+: ops ∧ ((create config).run calls).CarriesOut before ds ∧
        (((create config).run calls).run (callsOf before)).OutOfSlots op) ∧
      ∃ s, ((create config).run calls).space? .process = some s ∧
        Slots.limit < s.reserved.size + sizes.length + 1) ∨
    (∃ ds sum, ((create config).run calls).CarriesOut ops ds ∧
        ds.foldlM Deltas.plus ∅ = .ok sum ∧ (sum == d) = true) ∧
      v'.Unchanged (((create config).run calls).run (callsOf ops)) ∧
      ∀ x, InRange base size x → ∃ found m,
        (((create config).run calls).run (callsOf ops)).findRegion? x = some found ∧
          found.run.side.data.mapping = some m ∧ m.space = id ∧
          (m.offsetOf x).toNat = offset.toNat + (x.toNat - base.toNat) := by
  have hv := charted_run config calls
  have hindexed := indexed_run config calls
  have hprocess : ∀ s, ((create config).run calls).space? .process = some s →
      s.Covered ∧ s.totals.Peaked := by
    intro s hs
    exact ⟨covered_run config calls hs, peaked_run config calls hs⟩
  generalize (create config).run calls = v at hv hindexed hprocess hok ⊢
  obtain ⟨ref, store, s, s', hcan, hact, rfl⟩ := exists_canMap hv.pos hindexed hprocess hok
  have hall : ∀ op ∈ Operation.pieces id tag stack base offset sizes, op ∈ ops := fun op hop =>
    horder.mem_iff.mpr hop
  rcases hcan.underway hsizes fun op hop => horder.mem_iff.mp hop with
    ⟨ds, t, h⟩ | ⟨hfull, hlimit⟩
  · obtain ⟨hunchanged, hsum⟩ := h.unchanged hcan hsizes hall hact
    obtain ⟨sum, hfold, hequal⟩ := hsum
    exact .inr ⟨⟨ds, sum, h.carriesOut, hfold, hequal⟩, hunchanged, fun x hx =>
      h.exists_mapping hcan hsizes hall hx⟩
  · exact .inl ⟨hfull, s, hcan.process, hlimit.trans_le
      (RegionMap.card_union_cuts_le hcan.covered.reserved.wellFormed base sizes)⟩

/-- A reservation, partly committed, in the range that is to be mapped. -/
def occupiedCalls : List LedgerCall :=
  [.register "device", .operation (.reserve .process 0x10800 0x1000 ⟨7⟩ ⟨[0xa1]⟩),
    .operation (.commit .process 0x11000 0x400 ⟨7⟩ ⟨[0xa1]⟩)]

/-- Three pieces onto offsets below their addresses, the last one first. -/
theorem three_pieces_mapped :
    let v := (create {}).run occupiedCalls
    let ops := [Operation.map ⟨1⟩ 0x11800 0x1800 0x2800 ⟨2⟩ ⟨[0xb2]⟩,
      .map ⟨1⟩ 0x10000 0x1000 0x1000 ⟨2⟩ ⟨[0xb2]⟩, .map ⟨1⟩ 0x11000 0x800 0x2000 ⟨2⟩ ⟨[0xb2]⟩]
    ops.Perm (Operation.pieces ⟨1⟩ ⟨2⟩ ⟨[0xb2]⟩ 0x10000 0x1000 [0x1000, 0x800, 0x1800]) ∧
      ∃ d v', v.apply (.map ⟨1⟩ 0x10000 0x3000 0x1000 ⟨2⟩ ⟨[0xb2]⟩) = (.ok d, v') ∧
        d.toList = [(⟨2⟩, { reserve := 0x3000 }), (⟨7⟩, { reserve := -0x1000, commit := -0x400 })] ∧
        (∃ ds sum, v.CarriesOut ops ds ∧ ds.foldlM Deltas.plus ∅ = .ok sum ∧ (sum == d) = true) ∧
        v'.Unchanged (v.run (callsOf ops)) := by
  intro v ops
  have hsizes : Operation.CutsUp [0x1000, 0x800, 0x1800] 0x3000 :=
    ⟨by simp, by simp⟩
  have horder : ops.Perm
      (Operation.pieces ⟨1⟩ ⟨2⟩ ⟨[0xb2]⟩ 0x10000 0x1000 [0x1000, 0x800, 0x1800]) := by
    decide +kernel
  have hanswer :
      (v.apply (.map ⟨1⟩ 0x10000 0x3000 0x1000 ⟨2⟩ ⟨[0xb2]⟩)).1.toOption.map Deltas.toList =
      some [(⟨2⟩, { reserve := 0x3000 }), (⟨7⟩, { reserve := -0x1000, commit := -0x400 })] := by
    decide +kernel
  have hok : (v.apply
      (.map ⟨1⟩ 0x10000 0x3000 0x1000 ⟨2⟩ ⟨[0xb2]⟩)).1.toOption.isSome = true := by
    decide +kernel
  obtain ⟨d, happly⟩ := exists_apply_eq_ok hok
  rw [happly] at hanswer
  refine ⟨horder, d, _, happly, Option.some.inj hanswer, ?_⟩
  rcases map_in_pieces {} occupiedCalls ⟨1⟩ 0x10000 0x3000 0x1000 ⟨2⟩ ⟨[0xb2]⟩ d _ happly
    [0x1000, 0x800, 0x1800] hsizes ops horder with ⟨-, s, hs, hlimit⟩ | ⟨hsum, hsame, -⟩
  · -- so few boundaries do not use up the slots
    have hsize : (v.space? .process).map (·.reserved.size) = some 4 := by decide +kernel
    rw [hs, Option.map_some, Option.some.injEq] at hsize
    have hslots : Slots.limit = 4294967296 := rfl
    have hlength : [(0x1000 : UInt64), 0x800, 0x1800].length = 3 := rfl
    omega
  · exact ⟨hsum, hsame⟩

end Ledger

end RegionLedger
