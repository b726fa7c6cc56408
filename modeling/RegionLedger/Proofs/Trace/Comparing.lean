import RegionLedger.Proofs.Trace.Records

/-!
# The comparison of traces

The second replay starts with the tag names of the first, so tags are compared by name, and a tag
that only the second trace names was not in use in the first.  Spaces are compared by number, that
is, by the order in which they are registered.  So what is printed under the name of a space is the
change of the space of that name if both traces register the spaces that they share first and in the
same order; otherwise a space is compared with one of another name.

* `Comparison.changeAt`, `Comparison.changeUnder` — the change of a number, and under a name.
* `Replay.Numbered` — two replays that number their spaces alike.
* `Comparison.by_number_and_by_name` — what is compared.
* `Comparison.other_order_compares_others` — two traces with the same memory and a change.
-/

namespace RegionLedger

namespace Comparison

/-- The change of the space of a number, for the name of a tag. -/
def changeAt (c : Comparison) (id : SpaceId) (tag : String) (k : Column) : Except Overflow ℤ :=
  (Snapshot.change c.now c.was id).map fun d =>
    match c.names.tag? tag with
    | some t => d.amount k t
    | none => 0

/-- The changes in the order in which they are printed, each with the name that stands there. -/
def reported (c : Comparison) : List (String × SpaceId) :=
  (Snapshot.ids c.now c.was).map fun id => (Snapshot.nameOf c.now c.was id, id)

/-- The change that is printed under the names of a space and a tag. -/
def changeUnder (c : Comparison) (space tag : String) (k : Column) : Except Overflow ℤ :=
  match c.reported.lookup space with
  | some id => c.changeAt id tag k
  | none => .ok 0

end Comparison

namespace Replay

variable {first second : Replay}

/-- The bytes of a replay under the names of a space and a tag. -/
def booked (r : Replay) (space tag : String) (k : Column) : ℕ :=
  match r.space? space with
  | some id => ((r.filed id tag).amount k).toNat
  | none => 0

/-- The second replay has the tag names of the first. -/
structure Continues (first second : Replay) : Prop where
  left : first.Sound
  right : second.Sound
  within : first.names.Within second.names

/-- The comparison of two replays. -/
def comparedWith (second first : Replay) : Comparison :=
  { now := second.snapshot, was := first.snapshot, names := second.names }

/-! ## Numbers -/

/-- What a snapshot says of a space. -/
lemma amount_snapshot (hr : first.Sound) (id : SpaceId) (k : Column) (t : Tag) :
    first.snapshot.amount id k t =
      (((first.ledger.space? id).map Space.totals).getD .empty).amount k t := by
  rw [Snapshot.amount]
  exact congrArg (fun m : Option Totals => (m.getD .empty).amount k t)
    (Ledger.totals?_snapshot hr.size_le _ id)

/-- A tag without a name is nowhere in use. -/
lemma Sound.get_of_unnamed (hr : first.Sound) {t : Tag} (h : first.names.name? t = none)
    {id : SpaceId} {s : Space} (hs : first.ledger.space? id = some s) : s.totals.get t = {} := by
  have huntagged : t ≠ .untagged := by
    rintro rfl
    rw [(hr.names.tag?_eq_some_iff _ _).mp hr.names.untagged] at h
    cases h
  exact (hr.unused t huntagged h id s hs).totals

/-- **A tag that only the second trace names** holds nothing in the first. -/
lemma Continues.amount_filed (h : Continues first second) {tag : String} {t : Tag}
    (htag : second.names.tag? tag = some t) (id : SpaceId) (k : Column) :
    first.snapshot.amount id k t = ((first.filed id tag).amount k).toNat := by
  rw [amount_snapshot h.left, filed]
  cases hs : first.ledger.space? id with
  | none => cases k <;> rfl
  | some s =>
      show ((s.totals.get t).amount k).toNat = _
      cases hold : first.names.tag? tag with
      | some t' =>
          obtain rfl := Option.some.inj ((h.within tag t' hold).symm.trans htag)
          rfl
      | none =>
          have hunnamed : first.names.name? t = none := by
            cases hname : first.names.name? t with
            | none => rfl
            | some name =>
                have hname' := (h.left.names.tag?_eq_some_iff name t).mpr hname
                rw [h.right.names.injective htag (h.within name t hname'), hname'] at hold
                cases hold
          exact congrArg (fun c : Counters => (c.amount k).toNat) (h.left.get_of_unnamed hunnamed hs)

/-- **Spaces are compared by number.** -/
theorem Continues.changeAt_eq (h : Continues first second) (hwas : first.snapshot.Moderate)
    (hnow : second.snapshot.Moderate) (id : SpaceId) (tag : String) (k : Column) :
    (second.comparedWith first).changeAt id tag k =
      .ok ((((second.filed id tag).amount k).toNat : ℤ) - ((first.filed id tag).amount k).toNat) := by
  obtain ⟨d, hd, _, hamount⟩ := Snapshot.exists_change hnow hwas id
  rw [Comparison.changeAt, comparedWith, hd]
  refine congrArg Except.ok ?_
  cases htag : second.names.tag? tag with
  | some t =>
      have hrefl : Continues second second := ⟨h.right, h.right, .refl _⟩
      exact (hamount k t).trans (by rw [h.amount_filed htag, hrefl.amount_filed htag])
  | none =>
      have hnone : first.names.tag? tag = none := by
        cases hold : first.names.tag? tag with
        | none => rfl
        | some t =>
            rw [h.within tag t hold] at htag
            cases htag
      have hzero : ∀ r : Replay, r.names.tag? tag = none → r.filed id tag = {} := by
        intro r hr
        rw [filed, hr]
        cases r.ledger.space? id <;> rfl
      rw [hzero first hnone, hzero second htag]
      cases k <;> rfl

/-! ## Names -/

/-- Spaces of the same number have the same name, and spaces of the same name the same number. -/
structure Numbered (first second : Replay) : Prop where
  names : ∀ id s s', first.ledger.space? id = some s → second.ledger.space? id = some s' →
    s.name = s'.name
  ids : ∀ name i j, first.space? name = some i → second.space? name = some j → i = j

lemma Numbered.symm (h : Numbered first second) : Numbered second first where
  names id s s' hs hs' := (h.names id s' s hs' hs).symm
  ids name i j hi hj := (h.ids name j i hj hi).symm

/-- The number of a space is its place in the list of names. -/
lemma Sound.space?_iff_getElem? (hr : first.Sound) (name : String) (id : SpaceId) :
    first.space? name = some id ↔ (first.spaces.map Prod.fst)[id.raw.toNat]? = some name := by
  have hnames : (first.spaces.map Prod.fst)[id.raw.toNat]? =
      (first.ledger.space? id).map (·.name) := by
    rw [List.getElem?_map, hr.numbered, Option.map_map]
    rfl
  rw [hr.space?_eq_some_iff, hnames, Option.map_eq_some_iff]

/-- **Spaces that are registered in the same order** are numbered alike. -/
theorem numbered_of_startsWith (hr : first.Sound) (hr' : second.Sound)
    (h : first.spaces.map Prod.fst <+: second.spaces.map Prod.fst) : Numbered first second := by
  have hmove : ∀ name i, first.space? name = some i → second.space? name = some i := by
    intro name i hi
    rw [hr.space?_iff_getElem?] at hi
    obtain ⟨hlt, hget⟩ := List.getElem?_eq_some_iff.mp hi
    rw [hr'.space?_iff_getElem?, List.prefix_iff_getElem?.mp h _ hlt, hget]
  refine ⟨?_, ?_⟩
  · intro id s s' hs hs'
    have hname := hmove _ id ((hr.space?_eq_some_iff _ id).mpr ⟨s, hs, rfl⟩)
    obtain ⟨t, ht, htname⟩ := (hr'.space?_eq_some_iff _ id).mp hname
    obtain rfl := Option.some.inj (hs'.symm.trans ht)
    exact htname.symm
  · intro name i j hi hj
    exact Option.some.inj ((hmove name i hi).symm.trans hj)

/-- A space of the name has the number in one of the replays. -/
def Known (first second : Replay) (name : String) (id : SpaceId) : Prop :=
  second.space? name = some id ∨ first.space? name = some id

namespace Numbered

variable (h : Numbered first second) (hr : first.Sound) (hr' : second.Sound) {name name' : String}
  {id id' : SpaceId}

include h

lemma known_number (hid : Known first second name id) (hid' : Known first second name id') :
    id = id' := by
  rcases hid with hid | hid <;> rcases hid' with hid' | hid'
  · exact Option.some.inj (hid.symm.trans hid')
  · exact (h.ids name id' id hid' hid).symm
  · exact h.ids name id id' hid hid'
  · exact Option.some.inj (hid.symm.trans hid')

include hr hr'

/-- A space that is known has the name in every replay that has the number. -/
lemma name_eq (hid : Known first second name id) :
    (∀ s, second.ledger.space? id = some s → s.name = name) ∧
      ∀ s, first.ledger.space? id = some s → s.name = name := by
  rcases hid with hid | hid
  · obtain ⟨t, ht, rfl⟩ := (hr'.space?_eq_some_iff _ id).mp hid
    refine ⟨?_, fun s hs => h.names id s t hs ht⟩
    intro s hs
    rw [Option.some.inj (hs.symm.trans ht)]
  · obtain ⟨t, ht, rfl⟩ := (hr.space?_eq_some_iff _ id).mp hid
    refine ⟨fun s hs => (h.names id t s ht hs).symm, ?_⟩
    intro s hs
    rw [Option.some.inj (hs.symm.trans ht)]

/-- **The name that stands over a change** is that of the space. -/
lemma nameOf_eq (hid : Known first second name id) :
    Snapshot.nameOf second.snapshot first.snapshot id = name := by
  obtain ⟨hsecond, hfirst⟩ := h.name_eq hr hr' hid
  refine (Ledger.nameOf_snapshot hr'.size_le hr.size_le _ _ id).trans ?_
  cases hs : second.ledger.space? id with
  | some s => exact hsecond s hs
  | none =>
      cases hs' : first.ledger.space? id with
      | some s => exact hfirst s hs'
      | none =>
          rcases hid with hid | hid
          · obtain ⟨t, ht, _⟩ := (hr'.space?_eq_some_iff _ id).mp hid
            rw [hs] at ht
            cases ht
          · obtain ⟨t, ht, _⟩ := (hr.space?_eq_some_iff _ id).mp hid
            rw [hs'] at ht
            cases ht

omit h in
/-- A number that is compared has a name. -/
lemma exists_known (hid : id ∈ Snapshot.ids second.snapshot first.snapshot) :
    ∃ name, Known first second name id := by
  rw [Snapshot.mem_ids_iff] at hid
  rcases hid with hid | hid
  · obtain ⟨s, hs⟩ := Option.isSome_iff_exists.mp
      ((Ledger.mem_map_id_snapshot_iff hr'.size_le id).mp hid)
    exact ⟨s.name, .inl ((hr'.space?_eq_some_iff _ id).mpr ⟨s, hs, rfl⟩)⟩
  · obtain ⟨s, hs⟩ := Option.isSome_iff_exists.mp
      ((Ledger.mem_map_id_snapshot_iff hr.size_le id).mp hid)
    exact ⟨s.name, .inr ((hr.space?_eq_some_iff _ id).mpr ⟨s, hs, rfl⟩)⟩

omit h in
/-- A number that has a name is compared. -/
lemma mem_ids (hid : Known first second name id) :
    id ∈ Snapshot.ids second.snapshot first.snapshot := by
  rw [Snapshot.mem_ids_iff]
  rcases hid with hid | hid
  · obtain ⟨s, hs, _⟩ := (hr'.space?_eq_some_iff _ id).mp hid
    exact .inl ((Ledger.mem_map_id_snapshot_iff hr'.size_le id).mpr (Option.isSome_of_eq_some hs))
  · obtain ⟨s, hs, _⟩ := (hr.space?_eq_some_iff _ id).mp hid
    exact .inr ((Ledger.mem_map_id_snapshot_iff hr.size_le id).mpr (Option.isSome_of_eq_some hs))

/-- **No name is reported twice.** -/
theorem nodup_reported : ((second.comparedWith first).reported.map Prod.fst).Nodup := by
  rw [Comparison.reported, List.map_map]
  refine List.Nodup.map_on ?_ ((Snapshot.pairwise_ids _ _).imp fun hlt heq => ?_)
  · intro i hi j hj hnames
    obtain ⟨a, ha⟩ := exists_known hr hr' hi
    obtain ⟨b, hb⟩ := exists_known hr hr' hj
    have hab : a = b := (h.nameOf_eq hr hr' ha).symm.trans (hnames.trans (h.nameOf_eq hr hr' hb))
    exact h.known_number (hab ▸ ha) hb
  · rw [heq] at hlt
    exact UInt32.lt_irrefl _ hlt

/-- **Every name is reported** with the number of its space. -/
theorem mem_reported_iff (name : String) (id : SpaceId) :
    (name, id) ∈ (second.comparedWith first).reported ↔ Known first second name id := by
  rw [Comparison.reported, List.mem_map]
  constructor
  · rintro ⟨i, hi, hpair⟩
    obtain ⟨hname, rfl⟩ := (Prod.mk.injEq ..).mp hpair
    obtain ⟨a, ha⟩ := exists_known hr hr' hi
    rwa [← hname, show Snapshot.nameOf (second.comparedWith first).now
      (second.comparedWith first).was i = a from h.nameOf_eq hr hr' ha]
  · intro hid
    exact ⟨id, mem_ids hr hr' hid, congrArg (·, id) (h.nameOf_eq hr hr' hid)⟩

end Numbered

/-- The bytes under a name are those of the number, if it is the number of that name. -/
lemma Sound.booked_eq {r : Replay} (hr : r.Sound) {space : String} {id : SpaceId}
    (hid : ∀ j, r.space? space = some j → j = id)
    (hname : ∀ s, r.ledger.space? id = some s → s.name = space) (tag : String) (k : Column) :
    r.booked space tag k = ((r.filed id tag).amount k).toNat := by
  rw [booked]
  cases hspace : r.space? space with
  | some j => rw [hid j hspace]
  | none =>
      cases hs : r.ledger.space? id with
      | none =>
          rw [filed, hs]
          cases k <;> rfl
      | some s =>
          have hknown := (hr.space?_eq_some_iff space id).mpr ⟨s, hs, hname s hs⟩
          rw [hspace] at hknown
          cases hknown

/-- **Spaces that are numbered alike are compared by name.** -/
theorem Continues.changeUnder_eq (h : Continues first second) (hnumbered : Numbered first second)
    (hwas : first.snapshot.Moderate) (hnow : second.snapshot.Moderate) (space tag : String)
    (k : Column) : (second.comparedWith first).changeUnder space tag k =
      .ok ((second.booked space tag k : ℤ) - first.booked space tag k) := by
  have hlookup : ∀ id, (second.comparedWith first).reported.lookup space = some id ↔
      Known first second space id := by
    intro id
    rw [lookup_eq_some_iff (hnumbered.nodup_reported h.left h.right),
      hnumbered.mem_reported_iff h.left h.right]
  rw [Comparison.changeUnder]
  cases hspace : (second.comparedWith first).reported.lookup space with
  | some id =>
      have hknown := (hlookup id).mp hspace
      obtain ⟨hsecond, hfirst⟩ := hnumbered.name_eq h.left h.right hknown
      show (second.comparedWith first).changeAt id tag k = _
      rw [h.changeAt_eq hwas hnow,
        h.right.booked_eq (fun j hj => hnumbered.known_number (.inl hj) hknown) hsecond,
        h.left.booked_eq (fun j hj => hnumbered.known_number (.inr hj) hknown) hfirst]
  | none =>
      have hnone : ∀ id, ¬ Known first second space id := by
        intro id hknown
        rw [(hlookup id).mpr hknown] at hspace
        cases hspace
      have hleft : first.space? space = none := Option.eq_none_iff_forall_ne_some.mpr fun id hid =>
        hnone id (.inr hid)
      have hright : second.space? space = none := Option.eq_none_iff_forall_ne_some.mpr fun id hid =>
        hnone id (.inl hid)
      rw [booked, booked, hleft, hright]
      rfl

end Replay

namespace Comparison

open Replay

/-- **What the comparison of two traces says.**  Both traces are replayed without a refusal, and no
counter at their ends is beyond the longest span.  Then the comparison gives for every number and
every name of a tag the bytes of the second trace less those of the first.  If one of the traces
registers the same names as the other, in the same order, and then perhaps more, the name of every
space of either trace stands over one change, and under it and the name of any tag stand the bytes
of the space of that name in the second trace less those in the first, where a space that only one of
them registers has none in the other. -/
theorem by_number_and_by_name (config : Config) (baseline current : List Record)
    (first second : Replay) (hfirst : (create config .initial).run baseline = (.ok (), first))
    (hsecond : (create config first.names).run current = (.ok (), second))
    (hwas : first.snapshot.Moderate) (hnow : second.snapshot.Moderate) :
    ∃ c, ofRecords config baseline current = .ok c ∧
      (∀ id tag k, c.changeAt id tag k =
        .ok ((((second.filed id tag).amount k).toNat : ℤ) - ((first.filed id tag).amount k).toNat)) ∧
      (Record.registered baseline <+: Record.registered current ∨
          Record.registered current <+: Record.registered baseline →
        (c.reported.map Prod.fst).Nodup ∧
        (∀ space, space ∈ c.reported.map Prod.fst ↔ space = Ledger.processName ∨
          space ∈ Record.registered baseline ∨ space ∈ Record.registered current) ∧
        ∀ space tag k, c.changeUnder space tag k =
          .ok ((second.booked space tag k : ℤ) - first.booked space tag k)) := by
  have hstart := sound_create config TagNames.Sound.initial
  obtain ⟨hafter, haccepted⟩ := runFrom_ok hfirst
  have hleft : first.Sound := hafter ▸ hstart.after baseline
  have hstart' := sound_create config hleft.names
  obtain ⟨hafter', haccepted'⟩ := runFrom_ok hsecond
  have hright : second.Sound := hafter' ▸ hstart'.after current
  have hcontinues : Continues first second :=
    ⟨hleft, hright, hafter' ▸ hstart'.within_after current⟩
  have hnames : first.spaces.map Prod.fst = Ledger.processName :: Record.registered baseline :=
    hafter ▸ hstart.map_fst_spaces_after haccepted
  have hnames' : second.spaces.map Prod.fst = Ledger.processName :: Record.registered current :=
    hafter' ▸ hstart'.map_fst_spaces_after haccepted'
  refine ⟨second.comparedWith first, ?_, hcontinues.changeAt_eq hwas hnow, ?_⟩
  · rw [ofRecords, hfirst]
    dsimp only
    rw [hsecond]
    rfl
  · intro horder
    have hnumbered : Numbered first second := by
      rcases horder with h | h
      · refine numbered_of_startsWith hleft hright ?_
        rw [hnames, hnames']
        exact List.cons_prefix_cons.mpr ⟨rfl, h⟩
      · refine (numbered_of_startsWith hright hleft ?_).symm
        rw [hnames, hnames']
        exact List.cons_prefix_cons.mpr ⟨rfl, h⟩
    have hreported := hnumbered.mem_reported_iff hleft hright
    refine ⟨hnumbered.nodup_reported hleft hright, ?_,
      hcontinues.changeUnder_eq hnumbered hwas hnow⟩
    intro space
    have hknown : (∃ id, Known first second space id) ↔
        space ∈ first.spaces.map Prod.fst ∨ space ∈ second.spaces.map Prod.fst := by
      have hspace : ∀ {r : Replay}, r.Sound →
          ((∃ id, r.space? space = some id) ↔ space ∈ r.spaces.map Prod.fst) := by
        intro r hr
        rw [← Option.ne_none_iff_exists', Ne, hr.space?_eq_none_iff, not_not]
      rw [← hspace hleft, ← hspace hright, ← exists_or]
      exact exists_congr fun id => or_comm
    have hmem : space ∈ (second.comparedWith first).reported.map Prod.fst ↔
        ∃ id, Known first second space id := by
      rw [List.mem_map]
      constructor
      · rintro ⟨⟨_, id⟩, hpair, rfl⟩
        exact ⟨id, (hreported _ id).mp hpair⟩
      · rintro ⟨id, hid⟩
        exact ⟨(space, id), (hreported space id).mpr hid, rfl⟩
    rw [hmem, hknown, hnames, hnames', List.mem_cons, List.mem_cons]
    exact or_or_distrib_left.symm

/-- The replay of a first trace. -/
def firstReplay (baseline : List Record) : Replay :=
  ((create { level := .summary } .initial).run baseline).2

/-- The replay of a second trace. -/
def secondReplay (baseline current : List Record) : Replay :=
  ((create { level := .summary } (firstReplay baseline).names).run current).2

/-- A heap on a device, and a stack. -/
def smallTrace : List Record :=
  [.space "a", .reserve "a" 0x0 0x1000 "heap" [], .reserve "process" 0x8000 0x1000 "stack" []]

/-- More of the heap, on the same device and on another one, and no stack. -/
def grownTrace : List Record :=
  [.space "a", .space "b", .reserve "a" 0x0 0x3000 "heap" [], .reserve "b" 0x0 0x1000 "heap" [],
    .reserve "b" 0x4000 0x800 "code" []]

/-- The two traces register devices in the same order, so they are compared by name. -/
theorem grown_trace_compared :
    ∃ c, ofRecords { level := .summary } smallTrace grownTrace = .ok c ∧
      c.changeUnder "a" "heap" .reserved = .ok 0x2000 ∧
      c.changeUnder "b" "heap" .reserved = .ok 0x1000 ∧
      c.changeUnder "b" "code" .reserved = .ok 0x800 ∧
      c.changeUnder "process" "stack" .reserved = .ok (-0x1000) := by
  obtain ⟨c, hc, _, hnames⟩ := by_number_and_by_name { level := .summary } smallTrace grownTrace
    (firstReplay smallTrace) (secondReplay smallTrace grownTrace) (run_of_ok (by decide +kernel))
    (run_of_ok (by decide +kernel)) (Snapshot.moderate_of_forall (by decide +kernel))
    (Snapshot.moderate_of_forall (by decide +kernel))
  obtain ⟨_, _, hunder⟩ := hnames (.inl (by decide))
  refine ⟨c, hc, ?_⟩
  simp only [hunder, Except.ok.injEq]
  decide +kernel

/-- The same heap on the device `a`, which is registered first in the one trace and second in the
other. -/
def abTrace : List Record := [.space "a", .space "b", .reserve "a" 0x0 0x1000 "heap" []]

def baTrace : List Record := [.space "b", .space "a", .reserve "a" 0x0 0x1000 "heap" []]

/-- **Another order compares other spaces.**  Both traces leave the same bytes under every name, and
the comparison gives a page more for the one device and a page less for the other. -/
theorem other_order_compares_others :
    (create { level := .summary } .initial).run abTrace = (.ok (), firstReplay abTrace) ∧
      (create { level := .summary } (firstReplay abTrace).names).run baTrace =
        (.ok (), secondReplay abTrace baTrace) ∧
      (firstReplay abTrace).snapshot.Moderate ∧ (secondReplay abTrace baTrace).snapshot.Moderate ∧
      (∀ space ∈ ["process", "a", "b"], ∀ tag ∈ ["none", "heap"], ∀ k ∈ Column.all,
        (secondReplay abTrace baTrace).booked space tag k =
          (firstReplay abTrace).booked space tag k) ∧
      ∀ c, ofRecords { level := .summary } abTrace baTrace = .ok c →
        c.changeUnder "a" "heap" .reserved = .ok 0x1000 ∧
        c.changeUnder "b" "heap" .reserved = .ok (-0x1000) := by
  have hchange : ((ofRecords { level := .summary } abTrace baTrace).toOption.map fun c =>
      (c.changeUnder "a" "heap" .reserved, c.changeUnder "b" "heap" .reserved)) =
        some (.ok 0x1000, .ok (-0x1000)) := by decide +kernel
  refine ⟨run_of_ok (by decide +kernel), run_of_ok (by decide +kernel),
    Snapshot.moderate_of_forall (by decide +kernel),
    Snapshot.moderate_of_forall (by decide +kernel), by decide +kernel, ?_⟩
  intro c hc
  rw [hc] at hchange
  exact (Prod.mk.injEq ..).mp (Option.some.inj hchange)

end Comparison

end RegionLedger
