import RegionLedger.Proofs.Accounting.Building
import RegionLedger.Proofs.Trace.Comparing

/-!
# The comparison of traces as text

The text has a block for every number that is compared, in the order of the numbers.  The first line
of a block is that of the space, under the name that the comparison reports; a line for each tag that
changed follows, under the name of the tag.  The numbers in these lines are the changes of the
comparison.  There is a text unless a sum in the line of a space is no word, be it of its bytes over
all tags or of their changes.

* `Snapshot.changeLines_eq_ok_iff`, `Snapshot.exists_changeLines_iff` — the lines of a block, and
  when there are any.
* `Comparison.Block`, `Comparison.Block.Tells` — what a block says.
* `Comparison.exists_render_iff` — when there is a text.
* `Replay.Continues.render_tells`, `Replay.Continues.render_tells_by_name` — what it says, by numbers
  and by names.
-/

namespace RegionLedger

namespace Snapshot

variable {now was : Snapshot} {names : TagNames} {scale : Scale} {id : SpaceId}

/-- **The lines of a block** carry the change of the space, tag by tag and summed up, and its bytes
summed up. -/
theorem changeLines_eq_ok_iff {lines : List String} :
    changeLines now was names scale id = .ok lines ↔
      ∃ d total reserved committed, change now was id = .ok d ∧ d.total = .ok total ∧
        ((now.totals? id).getD .empty).total .reserved = .ok reserved ∧
        ((now.totals? id).getD .empty).total .committed = .ok committed ∧
        lines = "" :: spaceLine scale id (nameOf now was id) reserved committed total ::
          d.toList.map fun p => changeLine ((now.totals? id).getD .empty) names scale p.1 p.2 := by
  constructor
  · intro h
    obtain ⟨d, hd, h⟩ := bind_eq_ok_iff.mp h
    obtain ⟨total, htotal, h⟩ := bind_eq_ok_iff.mp h
    obtain ⟨reserved, hreserved, h⟩ := bind_eq_ok_iff.mp h
    obtain ⟨committed, hcommitted, h⟩ := bind_eq_ok_iff.mp h
    exact ⟨d, total, reserved, committed, hd, htotal, hreserved, hcommitted,
      (Except.ok.inj h).symm⟩
  · rintro ⟨d, total, reserved, committed, hd, htotal, hreserved, hcommitted, rfl⟩
    refine bind_eq_ok_iff.mpr ⟨d, hd, bind_eq_ok_iff.mpr ⟨total, htotal, ?_⟩⟩
    exact bind_eq_ok_iff.mpr ⟨reserved, hreserved,
      bind_eq_ok_iff.mpr ⟨committed, hcommitted, rfl⟩⟩

/-- **A block can be printed** if there is a change, its sum over the tags does not leave the signed
words on the way, and the sums of the bytes are words. -/
theorem exists_changeLines_iff :
    (∃ lines, changeLines now was names scale id = .ok lines) ↔
      ∃ d, change now was id = .ok d ∧
        (∀ l, l <+: d.entries → ∀ c, Fits (Deltas.entrySum l c)) ∧
        ∀ c, ((now.totals? id).getD .empty).sum c < 2 ^ 64 := by
  simp only [changeLines_eq_ok_iff, ← Deltas.exists_total_iff]
  constructor
  · rintro ⟨_, d, total, reserved, committed, hd, htotal, hreserved, hcommitted, _⟩
    refine ⟨d, hd, ⟨total, htotal⟩, Column.forall_iff.mpr ⟨?_, ?_⟩⟩
    · exact Totals.total_eq_ok_iff.mp hreserved ▸ reserved.toNat_lt
    · exact Totals.total_eq_ok_iff.mp hcommitted ▸ committed.toNat_lt
  · rintro ⟨d, hd, ⟨total, htotal⟩, hsums⟩
    obtain ⟨reserved, hreserved, _⟩ := Totals.exists_total (hsums .reserved)
    obtain ⟨committed, hcommitted, _⟩ := Totals.exists_total (hsums .committed)
    exact ⟨_, d, total, reserved, committed, hd, htotal, hreserved, hcommitted, rfl⟩

end Snapshot

namespace Comparison

variable {c : Comparison} {scale : Scale}

/-- What is printed of a space. -/
structure Block where
  /-- The name that stands there. -/
  name : String
  /-- The number that stands there. -/
  id : SpaceId
  /-- Its reserved bytes over all tags. -/
  reserved : UInt64
  /-- Its committed bytes over all tags. -/
  committed : UInt64
  /-- Its change over all tags. -/
  total : Delta
  /-- The tags with their changes. -/
  rows : List (Tag × Delta)

namespace Block

/-- The block in words. -/
def lines (b : Block) (c : Comparison) (scale : Scale) : List String :=
  "" :: Snapshot.spaceLine scale b.id b.name b.reserved b.committed b.total ::
    b.rows.map fun p =>
      Snapshot.changeLine ((c.now.totals? b.id).getD .empty) c.names scale p.1 p.2

/-- A block says of a space what the comparison says.  A tag stands there under its name, and once;
the tags that do not stand there did not change. -/
structure Tells (b : Block) (c : Comparison) : Prop where
  rows : ∀ p ∈ b.rows, ∀ k, c.changeAt b.id (c.names.display p.1) k = .ok (p.2.amount k).toInt
  complete : ∀ tag k, c.changeAt b.id tag k ≠ .ok 0 → ∃ p ∈ b.rows, c.names.display p.1 = tag
  ascending : b.rows.Pairwise fun p q => p.1.raw < q.1.raw
  total : ∀ k, (b.total.amount k).toInt = Deltas.entrySum b.rows k
  reserved : b.reserved.toNat = ((c.now.totals? b.id).getD .empty).sum .reserved
  committed : b.committed.toNat = ((c.now.totals? b.id).getD .empty).sum .committed

end Block

/-- **There is a text** if every block can be printed. -/
theorem exists_render_iff :
    (∃ text, c.render scale = .ok text) ↔
      ∀ space ∈ c.reported, ∃ d, Snapshot.change c.now c.was space.2 = .ok d ∧
        (∀ l, l <+: d.entries → ∀ k, Fits (Deltas.entrySum l k)) ∧
        ∀ k, ((c.now.totals? space.2).getD .empty).sum k < 2 ^ 64 := by
  have htext : (∃ text, c.render scale = .ok text) ↔ ∃ blocks,
      (Snapshot.ids c.now c.was).mapM (Snapshot.changeLines c.now c.was c.names scale) =
        .ok blocks := by
    simp only [render, Snapshot.renderSince, bind_eq_ok_iff]
    constructor
    · rintro ⟨_, blocks, hblocks, _⟩
      exact ⟨blocks, hblocks⟩
    · rintro ⟨blocks, hblocks⟩
      exact ⟨_, blocks, hblocks, rfl⟩
  rw [htext, exists_mapM_iff, reported, List.forall_mem_map]
  simp only [Snapshot.exists_changeLines_iff]

/-- What stands under a name that is reported once is the change of its number. -/
lemma changeUnder_of_mem (hnodup : (c.reported.map Prod.fst).Nodup) {space : String} {id : SpaceId}
    (h : (space, id) ∈ c.reported) (tag : String) (k : Column) :
    c.changeUnder space tag k = c.changeAt id tag k := by
  rw [changeUnder, (lookup_eq_some_iff hnodup space id).mpr h]

end Comparison

namespace Replay

open Comparison

variable {first second : Replay} {scale : Scale}

/-- A change of a space names no tag twice, and only tags that have a name. -/
lemma Continues.distinct_and_named (h : Continues first second) {id : SpaceId} {d : Deltas}
    (hd : Snapshot.change second.snapshot first.snapshot id = .ok d) :
    d.Distinct ∧ ∀ p ∈ d.toList, ∃ name, second.names.name? p.1 = some name := by
  have hempty : ∀ r : Replay, r.Sound → ∀ t, r.names.name? t = none →
      ((r.snapshot.totals? id).getD .empty).get t = {} := by
    intro r hr t hnone
    have htotals : r.snapshot.totals? id = (r.ledger.space? id).map Space.totals :=
      Ledger.totals?_snapshot hr.size_le _ id
    rw [htotals]
    cases hs : r.ledger.space? id with
    | none => rfl
    | some s => exact hr.get_of_unnamed hnone hs
  rcases Totals.since_cases ((second.snapshot.totals? id).getD .empty)
    ((first.snapshot.totals? id).getD .empty) with ⟨d', hd', hdistinct, hamount⟩ | ⟨hstop, _⟩
  · obtain rfl := Except.ok.inj (hd.symm.trans hd')
    refine ⟨hdistinct, ?_⟩
    intro p hp
    rw [← Option.ne_none_iff_exists']
    intro hnone
    obtain ⟨hget, hnonzero⟩ := (hdistinct.mem_toList_iff p).mp hp
    have hzero : p.2 = {} := by
      rw [hget]
      refine Delta.eq_of_amount_eq fun k => ?_
      have hold := Sound.name?_of_within h.left.names h.right.names h.within hnone
      have hread := hamount k p.1
      rw [hempty second h.right _ hnone, hempty first h.left _ hold] at hread
      rw [show ((d.get p.1).amount k).toInt = _ from hread]
      cases k <;> rfl
    rw [hzero] at hnonzero
    cases hnonzero
  · rw [show Snapshot.change second.snapshot first.snapshot id = .error .subtract from hstop] at hd
    cases hd

/-- **A block says what the comparison says.** -/
theorem Continues.lines_tell (h : Continues first second) {id : SpaceId} {lines : List String}
    (hlines : Snapshot.changeLines second.snapshot first.snapshot second.names scale id = .ok lines) :
    ∃ b : Block, b.name = Snapshot.nameOf second.snapshot first.snapshot id ∧ b.id = id ∧
      b.Tells (second.comparedWith first) ∧ lines = b.lines (second.comparedWith first) scale := by
  obtain ⟨d, total, reserved, committed, hd, htotal, hreserved, hcommitted, rfl⟩ :=
    Snapshot.changeLines_eq_ok_iff.mp hlines
  obtain ⟨hdistinct, hnamed⟩ := h.distinct_and_named hd
  have hchange : ∀ {tag t}, second.names.tag? tag = some t → ∀ k,
      (second.comparedWith first).changeAt id tag k = .ok (d.amount k t) := by
    intro tag t ht k
    rw [changeAt, comparedWith, hd, ht]
    rfl
  have hchange' : ∀ {tag}, second.names.tag? tag = none → ∀ k,
      (second.comparedWith first).changeAt id tag k = .ok 0 := by
    intro tag ht k
    rw [changeAt, comparedWith, hd, ht]
    rfl
  have hdisplay : ∀ {name t}, second.names.name? t = some name → second.names.display t = name := by
    intro name t ht
    rw [TagNames.display, ht, Option.getD_some]
  refine ⟨⟨_, id, reserved, committed, total, d.toList⟩, rfl, rfl, ?_, rfl⟩
  refine ⟨?_, ?_, hdistinct.pairwise_toList, hdistinct.total_toList htotal,
    Totals.total_eq_ok_iff.mp hreserved, Totals.total_eq_ok_iff.mp hcommitted⟩
  · intro p hp k
    obtain ⟨name, hname⟩ := hnamed p hp
    show (second.comparedWith first).changeAt id (second.names.display p.1) k = _
    rw [hdisplay hname, hchange ((h.right.names.tag?_eq_some_iff name p.1).mpr hname),
      ((hdistinct.mem_toList_iff p).mp hp).1]
    rfl
  · intro tag k hne
    change (second.comparedWith first).changeAt id tag k ≠ .ok 0 at hne
    cases htag : second.names.tag? tag with
    | none => exact absurd (hchange' htag k) hne
    | some t =>
        have hnonzero : (d.get t).isZero = false := by
          rw [← Bool.not_eq_true]
          intro hzero
          rw [hchange htag, Totals.amount_of_isZero hzero] at hne
          exact hne rfl
        exact ⟨(t, d.get t), (hdistinct.mem_toList_iff _).mpr ⟨rfl, hnonzero⟩,
          hdisplay ((h.right.names.tag?_eq_some_iff tag t).mp htag)⟩

/-- **What the text says.**  It has the blocks of the spaces that the comparison reports, and each of
them says what the comparison says. -/
theorem Continues.render_tells (h : Continues first second) {text : String}
    (htext : (second.comparedWith first).render scale = .ok text) :
    ∃ blocks : List Block,
      blocks.map (fun b => (b.name, b.id)) = (second.comparedWith first).reported ∧
      (∀ b ∈ blocks, b.Tells (second.comparedWith first)) ∧
      text = Report.unlines (Snapshot.changeHeading second.snapshot first.snapshot scale ++
        blocks.flatMap fun b => b.lines (second.comparedWith first) scale) := by
  have hblocks : ∀ {ids : List SpaceId} {printed : List (List String)},
      List.Forall₂ (fun id lines => Snapshot.changeLines second.snapshot first.snapshot second.names
        scale id = .ok lines) ids printed →
      ∃ blocks : List Block,
        blocks.map (fun b => (b.name, b.id)) =
          ids.map (fun id => (Snapshot.nameOf second.snapshot first.snapshot id, id)) ∧
        (∀ b ∈ blocks, b.Tells (second.comparedWith first)) ∧
        printed = blocks.map fun b => b.lines (second.comparedWith first) scale := by
    intro ids printed hprinted
    induction hprinted with
    | nil => exact ⟨[], rfl, nofun, rfl⟩
    | cons hlines _ ih =>
        obtain ⟨b, hname, hid, htells, rfl⟩ := h.lines_tell hlines
        obtain ⟨blocks, hspaces, hall, rfl⟩ := ih
        refine ⟨b :: blocks, ?_, List.forall_mem_cons.mpr ⟨htells, hall⟩, rfl⟩
        rw [List.map_cons, List.map_cons, hspaces, hname, hid]
  obtain ⟨printed, hprinted, hjoin⟩ := bind_eq_ok_iff.mp htext
  obtain ⟨blocks, hspaces, hall, rfl⟩ := hblocks (mapM_eq_ok_iff.mp hprinted)
  refine ⟨blocks, hspaces, hall, ?_⟩
  rw [List.flatMap_def]
  exact (Except.ok.inj hjoin).symm

/-- A page of the heap that only the second trace reserves. -/
example : (ofRecords {} [] [.reserve "process" 0x0 0x1000 "heap" []]).toOption.map (·.render .kilo) =
    some (.ok ("Virtual memory diff (scale: KB)\n\n" ++
      "space#0 process: reserved=4KB +4KB committed=0KB +0KB\n" ++
      "  heap             reserved=4KB +4KB committed=0KB +0KB\n")) := by
  decide +kernel

/-- **What the text says of replays that number their spaces alike.**  Every name of a space stands
over one block.  A line under it has the name of a tag and the bytes of that tag in the space of that
name, those of the second replay less those of the first; and wherever these differ there is a
line. -/
theorem Continues.render_tells_by_name (h : Continues first second)
    (hnumbered : Numbered first second) (hwas : first.snapshot.Moderate)
    (hnow : second.snapshot.Moderate) {text : String}
    (htext : (second.comparedWith first).render scale = .ok text) :
    ∃ blocks : List Block,
      text = Report.unlines (Snapshot.changeHeading second.snapshot first.snapshot scale ++
        blocks.flatMap fun b => b.lines (second.comparedWith first) scale) ∧
      (blocks.map Block.name).Nodup ∧
      (∀ b ∈ blocks, ∀ p ∈ b.rows, ∀ k, (p.2.amount k).toInt =
        (second.booked b.name (second.names.display p.1) k : ℤ) -
          first.booked b.name (second.names.display p.1) k) ∧
      ∀ space tag k, second.booked space tag k ≠ first.booked space tag k →
        ∃ b ∈ blocks, b.name = space ∧ ∃ p ∈ b.rows, second.names.display p.1 = tag := by
  obtain ⟨blocks, hspaces, htells, rfl⟩ := h.render_tells htext
  have hnodup := hnumbered.nodup_reported h.left h.right
  have hmem : ∀ {space id}, (space, id) ∈ (second.comparedWith first).reported ↔
      ∃ b ∈ blocks, b.name = space ∧ b.id = id := by
    intro space id
    rw [← hspaces, List.mem_map]
    simp only [Prod.mk.injEq]
  have hunder : ∀ b ∈ blocks, ∀ tag k, (second.comparedWith first).changeAt b.id tag k =
      .ok ((second.booked b.name tag k : ℤ) - first.booked b.name tag k) := by
    intro b hb tag k
    rw [← changeUnder_of_mem hnodup (hmem.mpr ⟨b, hb, rfl, rfl⟩),
      h.changeUnder_eq hnumbered hwas hnow]
  refine ⟨blocks, rfl, ?_, ?_, ?_⟩
  · have hnames : blocks.map Block.name = (second.comparedWith first).reported.map Prod.fst := by
      rw [← hspaces, List.map_map]
      rfl
    rwa [hnames]
  · intro b hb p hp k
    have hrow := (htells b hb).rows p hp k
    rw [hunder b hb] at hrow
    exact (Except.ok.inj hrow).symm
  · intro space tag k hne
    have hchange := h.changeUnder_eq hnumbered hwas hnow space tag k
    cases hspace : (second.comparedWith first).reported.lookup space with
    | none =>
        rw [changeUnder, hspace] at hchange
        have hzero := Except.ok.inj hchange
        omega
    | some id =>
        obtain ⟨b, hb, rfl, rfl⟩ := hmem.mp ((lookup_eq_some_iff hnodup space id).mp hspace)
        refine ⟨b, hb, rfl, (htells b hb).complete tag k ?_⟩
        rw [hunder b hb, Ne, Except.ok.injEq]
        omega

end Replay

end RegionLedger
