import RegionLedger.Proofs.Space.RunningTotals

/-!
# What an operation writes

An operation of a ledger stores its call stack and then changes the maps of one space.  What it does
to them is said once, byte by byte: a refused operation leaves the space as it is, and one that is
carried out writes the bytes given here.  Only an operation of several steps can stop in between: for
want of memory, at a mapped run that is too long to be released, or when more is released than a
signed word can tell.  It leaves every byte as it was or as it should become.

Nothing here depends on the totals, nor on the length of a range.

* `Operation.stack?`, `Operation.act` — the call stack that is stored, and what is then done.
* `Ledger.apply_cases`, `Ledger.acts_of_apply_ok` — an operation is refused at once, or is left to its
  space; one that is carried out changes no other space.
* `Operation.reservedWrite`, `Operation.committedWrite` — the bytes after an operation.
* `Space.Halt`, `Space.releaseEach_cases` — why runs released one after the other stop.
* `Space.Maps.act_yields` — what a space answers.
* `Ledger.charted_run` — the maps of a ledger are sound after every run.
-/

namespace RegionLedger

namespace Operation

/-! ## The parts of an operation -/

/-- The call stack that the operation stores. -/
def stack? : Operation → Option CallStack
  | reserve _ _ _ _ stack | commit _ _ _ _ stack | map _ _ _ _ _ stack => some stack
  | uncommit id _ _ stack => if id.isProcess then some stack else none
  | release .. | unmap .. | retag .. => none

/-- What the operation does to its space, with the reference to its call stack. -/
def act (ref : StackRef) : Operation → Space → Except RegionError Deltas × Space
  | reserve _ start size tag _ => (·.reserve start size { stack := ref, tag })
  | commit _ start size tag _ => (·.commit start size ref tag)
  | uncommit _ start size _ => (·.uncommit start size ref)
  | release _ start size => (·.release start size)
  | map id base size offset tag _ =>
      (·.reserve base size { stack := ref, tag, mapping := some (.ofBase id base offset) })
  | unmap id base size => (·.unmap id base (base + size))
  | retag _ start size tag => (·.retag start size tag)

/-- The range of a removal of mappings is not empty and ends at an address, as the ledger checks. -/
def Checked (op : Operation) : Prop :=
  ∀ id base size, op = .unmap id base size →
    0 < size.toNat ∧ base.toNat + size.toNat < 2 ^ 64

end Operation

/-- Such a range ends behind its start. -/
lemma base_lt_end {base : Address} {size : UInt64} (hpos : 0 < size.toNat)
    (hend : base.toNat + size.toNat < 2 ^ 64) : base < base + size := by
  rw [UInt64.lt_iff_toNat_lt, UInt64.toNat_add, Nat.mod_eq_of_lt hend]
  omega

namespace Ledger

variable {v v' : Ledger} {op : Operation} {ref : StackRef} {callStacks : StackStore}

/-- The operation has stored its call stack, if it stores one. -/
def Stores (v : Ledger) (op : Operation) (ref : StackRef) (callStacks : StackStore) : Prop :=
  match op.stack? with
  | some stack => v.callStacks.push stack = .ok (ref, callStacks)
  | none => ref = {} ∧ callStacks = v.callStacks

/-- The operation is refused at once, or its call stack is stored and its space acts. -/
def Reaches (v : Ledger) (op : Operation) (r : Except LedgerError Deltas × Ledger) : Prop :=
  (∃ e, r = (.error e, v)) ∨
    ∃ ref callStacks s, v.Stores op ref callStacks ∧ v.space? op.target = some s ∧ op.Checked ∧
      r = ((op.act ref s).1.mapError .region,
        { v with
          callStacks
          spaces := v.spaces.setIfInBounds op.target.raw.toNat (op.act ref s).2 })

lemma Reaches.ifKnown {r : Except LedgerError Deltas × Ledger} {id : SpaceId}
    (hr : ∀ s, v.space? id = some s → v.Reaches op r) : v.Reaches op (v.ifKnown id r) := by
  rw [Ledger.ifKnown]
  cases hs : v.space? id with
  | none => exact .inl ⟨_, rfl⟩
  | some s => exact hr s hs

lemma reaches_onSpace (op : Operation) (hstack : op.stack? = none) (hop : op.Checked) :
    v.Reaches op (v.onSpace op.target (op.act {})) := by
  rw [onSpace]
  cases hs : v.space? op.target with
  | none => exact .inl ⟨_, rfl⟩
  | some s => exact .inr ⟨{}, v.callStacks, s, by rw [Stores, hstack]; exact ⟨rfl, rfl⟩, hs, hop, rfl⟩

lemma reaches_withStack {stack : CallStack} {s : Space} (hstack : op.stack? = some stack)
    (hs : v.space? op.target = some s) :
    v.Reaches op (v.withStack stack fun ref v => v.onSpace op.target (op.act ref)) := by
  have hop : op.Checked := by
    rintro _ _ _ rfl
    cases hstack
  rw [withStack]
  cases hpush : v.callStacks.push stack with
  | error e => exact .inl ⟨_, rfl⟩
  | ok answer =>
      obtain ⟨ref, callStacks⟩ := answer
      refine .inr ⟨ref, callStacks, s, by rw [Stores, hstack]; exact hpush, hs, hop, ?_⟩
      have hs' : space? { v with callStacks } op.target = some s := hs
      simp only [onSpace_eq hs']

/-- **An operation is refused at once**, and nothing changes, **or it is left to its space.** -/
theorem apply_cases (hpos : 0 < v.size) (op : Operation) : v.Reaches op (v.apply op) := by
  have hprocess : ∃ s, v.space? .process = some s := ⟨_, Array.getElem?_eq_getElem hpos⟩
  cases op with
  | reserve id start size tag stack =>
      refine Reaches.ifKnown ?_
      intro s hs
      exact reaches_withStack rfl hs
  | commit id start size tag stack =>
      refine Reaches.ifKnown ?_
      intro s hs
      exact reaches_withStack rfl hs
  | uncommit id start size stack =>
      show v.Reaches _ (v.uncommit id start size stack)
      rw [uncommit]
      split_ifs with hid
      · refine Reaches.ifKnown ?_
        intro s hs
        exact reaches_withStack (if_pos hid) hs
      · exact reaches_onSpace _ (if_neg hid) (by rintro _ _ _ ⟨⟩)
  | release id start size => exact reaches_onSpace _ rfl (by rintro _ _ _ ⟨⟩)
  | retag id start size tag => exact reaches_onSpace _ rfl (by rintro _ _ _ ⟨⟩)
  | map id base size offset tag stack =>
      show v.Reaches _ (v.map id base size offset tag stack)
      rw [map]
      split_ifs with hself hoffset
      · exact .inl ⟨_, rfl⟩
      · exact Reaches.ifKnown fun _ _ => .inl ⟨_, rfl⟩
      · obtain ⟨s, hs⟩ := hprocess
        exact Reaches.ifKnown fun _ _ => reaches_withStack rfl hs
  | unmap id base size =>
      show v.Reaches _ (v.unmap id base size)
      rw [unmap]
      split_ifs with hself hzero
      · exact .inl ⟨_, rfl⟩
      · refine Reaches.ifKnown fun _ _ => .inl ⟨.region (.invalidRange base size), ?_⟩
        cases endOf? base size <;> rfl
      · refine Reaches.ifKnown ?_
        intro _ _
        have hsize : size.toNat ≠ 0 := fun h => hzero (UInt64.toNat_inj.mp h)
        by_cases hend : base.toNat + size.toNat < UInt64.size
        · rw [endOf?, if_pos hend]
          refine reaches_onSpace (.unmap id base size) rfl ?_
          rintro _ _ _ ⟨⟩
          exact ⟨Nat.pos_of_ne_zero hsize, hend⟩
        · rw [endOf?, if_neg hend]
          exact .inl ⟨_, rfl⟩

/-- **An operation that is carried out** has its space act, and no other space changes. -/
lemma acts_of_apply_ok (hpos : 0 < v.size) {d : Deltas} (h : v.apply op = (.ok d, v')) :
    ∃ ref s s', op.Checked ∧ op.act ref s = (.ok d, s') ∧ v.space? op.target = some s ∧
      v'.space? op.target = some s' ∧ ∀ id, id ≠ op.target → v'.space? id = v.space? id := by
  rcases apply_cases hpos op with ⟨e, hrefused⟩ | ⟨ref, callStacks, s, _, hs, hop, happly⟩
  · rw [hrefused] at h
    cases h
  · cases hact : op.act ref s with
    | mk answer s' =>
        rw [happly, hact, Prod.mk.injEq] at h
        obtain ⟨hanswer, rfl⟩ := h
        have hspaces := space?_set hs s'
        cases answer with
        | error e => cases hanswer
        | ok d' =>
            obtain rfl : d' = d := Except.ok.inj hanswer
            refine ⟨ref, s, s', hop, hact, hs, (hspaces op.target).trans (if_pos rfl), ?_⟩
            intro id hid
            exact (hspaces id).trans (if_neg hid)

/-- Whether an operation is carried out can be computed. -/
lemma exists_apply_eq_ok (h : (v.apply op).1.toOption.isSome = true) :
    ∃ d, v.apply op = (.ok d, (v.apply op).2) := by
  cases happly : v.apply op with
  | mk answer v' =>
      rw [happly] at h
      cases answer with
      | error e => cases h
      | ok d => exact ⟨d, rfl⟩

end Ledger

/-! ## Bytes written -/

/-- The first few of some runs. -/
lemma Bytes.Shows.of_append {μ : Type} {f : Bytes μ} {a b : Address} {runs more : List (Run μ)}
    (h : f.Shows b a (runs ++ more)) : f.Shows b a runs := by
  induction runs generalizing a with
  | nil => exact .nil
  | cons r rest ih =>
      cases h with
      | cons hstart hlt hstop same tail => exact .cons hstart hlt hstop same (ih tail)

/-- Bytes of which some are released count no more than before. -/
lemma Bytes.held_le_of_released {f g : Bytes Placement} (h : ∀ x, g x = .released ∨ g x = f x)
    (c : Column) (t : Tag) : g.held c t ≤ f.held c t := by
  refine Set.ncard_le_ncard ?_
  intro x hx
  rcases h x with hreleased | hsame
  · rw [Set.mem_ofPred_eq, hreleased] at hx
    exact absurd hx (Side.not_countsIn_released c t)
  · rwa [Set.mem_ofPred_eq, ← hsame]

/-- The mapped parts of a range are released. -/
def Bytes.unmap (f : Bytes Placement) (id : SpaceId) (first last : Address) : Bytes Placement :=
  fun x =>
    if (first ≤ x ∧ x < last) ∧ (f x).state.isReserved ∧ (f x).data.mapping.map (·.space) = some id
    then .released else f x

namespace Operation

/-- The reservations after the operation; `apart` says whether the space keeps its commits apart. -/
def reservedWrite (op : Operation) (ref : StackRef) (apart : Bool) (f : Bytes Placement) :
    Bytes Placement :=
  match op, apart with
  | reserve _ start size tag _, _ => (Mutation.reserve start size { stack := ref, tag }).write f
  | commit _ start size tag _, false =>
      (Mutation.commit start size { stack := ref, tag } .adopt).write f
  | uncommit _ start size _, false => (Mutation.uncommit start size { stack := ref }).write f
  | commit .., true | uncommit .., true => f
  | release _ start size, _ => (Mutation.release start size).write f
  | map id base size offset tag _, _ =>
      (Mutation.reserve base size
        { stack := ref, tag, mapping := some (.ofBase id base offset) }).write f
  | unmap id base size, _ => f.unmap id base (base + size)
  | retag _ start size tag, _ => (Mutation.retag start size tag).write f

/-- The commits after the operation, in a space that keeps them apart. -/
def committedWrite (op : Operation) (ref : StackRef) (f : Bytes Attribution) : Bytes Attribution :=
  match op with
  | commit _ start size tag _ =>
      (Mutation.commit start size { stack := ref, tag } .replace).write f
  | uncommit _ start size _ | release _ start size => (Mutation.release start size).write f
  | retag _ start size tag => (Mutation.retag start size tag).write f
  | reserve .. | map .. | unmap .. => f

end Operation

namespace Space

variable {s : Space} {op : Operation} {ref : StackRef}

/-- A removal of mappings releases the runs of `short`, of which there are some, and stops at the run
`long`, which is too long to be released. -/
def StopsAtLong (s : Space) (op : Operation) (e : RegionError) (m : RegionMap Placement) : Prop :=
  ∃ id base size short long rest, op = .unmap id base size ∧ maxSpan < size ∧
    s.mapped id base (base + size) = short ++ long :: rest ∧ short ≠ [] ∧ maxSpan < long.size ∧
    e = .invalidRange long.start long.size ∧
    ∀ x, m.sideAt x = if ∃ r ∈ short, r.start ≤ x ∧ x < r.stop then .released
      else s.reserved.sideAt x

/-- A removal of mappings releases the runs of `short`, and then the bytes of one tag that it released
are more than a signed word can tell. -/
def StopsAtSum (s : Space) (op : Operation) (e : RegionError) (m : RegionMap Placement) : Prop :=
  ∃ id base size short rest c t, op = .unmap id base size ∧ 2 ^ 63 < size.toNat ∧
    s.mapped id base (base + size) = short ++ rest ∧ e = .overflow .add ∧
    (∀ x, m.sideAt x = if ∃ r ∈ short, r.start ≤ x ∧ x < r.stop then .released
      else s.reserved.sideAt x) ∧
    Bytes.held m.sideAt c t + 2 ^ 63 < Bytes.held s.reserved.sideAt c t

/-- What becomes of a space: a refused operation leaves it as it is, and one that is carried out
writes its bytes.  One that stops in between stores no call stack; it leaves each byte as it was or
as it should become, and nothing is booked. -/
inductive Yields (s : Space) (op : Operation) (ref : StackRef) :
    Except RegionError Deltas × Space → Prop where
  | refused (e : RegionError) : Yields s op ref (.error e, s)
  | done (d : Deltas) (s' : Space) (maps : s'.Maps)
      (kind : s'.committed.isSome = s.committed.isSome)
      (reserved : s'.reserved.sideAt =
        op.reservedWrite ref s.committed.isSome s.reserved.sideAt)
      (committed : ∀ m', s'.committed = some m' → ∃ m, s.committed = some m ∧
        m'.sideAt = op.committedWrite ref m.sideAt) : Yields s op ref (.ok d, s')
  | stopped (e : RegionError) (m : RegionMap Placement) (stackless : op.stack? = none)
      (maps : Maps { s with reserved := m })
      (each : ∀ x, m.sideAt x = s.reserved.sideAt x ∨
        m.sideAt x = op.reservedWrite ref s.committed.isSome s.reserved.sideAt x)
      (cause : e = .outOfMemory .outOfSlots ∨ s.StopsAtLong op e m ∨ s.StopsAtSum op e m) :
      Yields s op ref (.error e, { s with reserved := m })

/-- Booking leaves the maps alone. -/
lemma Maps.account (hs : s.Maps) (d : Deltas) : (s.account d).Maps :=
  ⟨hs.reserved, hs.committed, hs.apart⟩

/-- **An operation on the reservations.** -/
lemma Maps.yields_takeReserved (hs : s.Maps) (c : Mutation Placement)
    (hc : s.committed = none ∨ c.commits = false)
    (hwrite : op.reservedWrite ref s.committed.isSome = c.write)
    (hkeep : ∀ m, s.committed = some m → op.committedWrite ref m.sideAt = m.sideAt) :
    s.Yields op ref (s.takeReserved (c.apply s.reserved)) := by
  cases happly : c.apply s.reserved with
  | error e => exact .refused e
  | ok answer =>
      obtain ⟨d, m⟩ := answer
      obtain ⟨_, hmaps, _⟩ := hs.apply_reserved hc happly
      obtain ⟨_, _, hsides, _⟩ := hs.reserved.apply_writes happly
      refine .done d _ (hmaps.account d) rfl (by rw [hwrite]; exact hsides) ?_
      intro m' hm'
      exact ⟨m', hm', (hkeep m' hm').symm⟩

/-- **An operation on the commits.** -/
lemma Maps.yields_takeCommitted (hs : s.Maps) {m : RegionMap Attribution}
    (hcommitted : s.committed = some m) (c : Mutation Attribution)
    (hwrite : op.committedWrite ref = c.write)
    (hkeep : op.reservedWrite ref true s.reserved.sideAt = s.reserved.sideAt) :
    s.Yields op ref (s.takeCommitted (c.apply m)) := by
  have hsome : s.committed.isSome = true := by rw [hcommitted]; rfl
  cases happly : c.apply m with
  | error e => exact .refused e
  | ok answer =>
      obtain ⟨d, m'⟩ := answer
      obtain ⟨_, hm', hsides, hbooks⟩ := (hs.committed m hcommitted).apply_writes happly
      obtain ⟨hmaps, _⟩ := hs.change_committed hcommitted hm' hbooks
      refine .done _ _ (hmaps.account _) hsome.symm (by rw [hsome, hkeep]; rfl) ?_
      rintro _ ⟨⟩
      exact ⟨m, hcommitted, by rw [hwrite, hsides]⟩

/-- **An operation on both maps.**  The second step can only fail for want of memory, since the range
of the first was valid. -/
lemma Maps.yields_takeBoth (hs : s.Maps) (c : Mutation Placement) (c' : Mutation Attribution)
    (hstack : op.stack? = none) (hc : c.commits = false) (hvalid : c.Valid → c'.Valid)
    (hwrite : op.reservedWrite ref s.committed.isSome = c.write)
    (hwrite' : op.committedWrite ref = c'.write) :
    s.Yields op ref (s.takeBoth (c.apply s.reserved) (c'.apply ·)) := by
  cases happly : c.apply s.reserved with
  | error e => exact .refused e
  | ok answer =>
      obtain ⟨d, m⟩ := answer
      obtain ⟨hvalid₁, hmaps, hchange⟩ := hs.apply_reserved (.inr hc) happly
      obtain ⟨_, _, hsides, _⟩ := hs.reserved.apply_writes happly
      cases hcommitted : s.committed with
      | none =>
          rw [takeBoth_of_none hcommitted]
          refine .done d _ (hmaps.account d) rfl (by rw [hwrite]; exact hsides) ?_
          intro m' hm'
          rw [show s.committed = some m' from hm'] at hcommitted
          cases hcommitted
      | some m₁ =>
          have hm₁ := hs.committed m₁ hcommitted
          cases happly' : c'.apply m₁ with
          | error e =>
              rw [takeBoth_of_error hcommitted happly']
              refine .stopped e m hstack hmaps (fun x => .inr (by rw [hsides, hwrite])) (.inl ?_)
              rcases hm₁.apply_cases c' with ⟨hinvalid, _⟩ | ⟨_, _, _, _, _, _, _, hok, _⟩ |
                ⟨_, hfull, _⟩
              · exact absurd (hvalid hvalid₁) hinvalid
              · rw [hok] at happly'
                cases happly'
              · rw [hfull, Except.error.injEq] at happly'
                exact happly'.symm
          | ok answer =>
              obtain ⟨e, m₂⟩ := answer
              obtain ⟨_, hm₂, hsides₂, hbooks⟩ := hm₁.apply_writes happly'
              obtain ⟨hmaps', hchange'⟩ := hmaps.change_committed hcommitted hm₂ hbooks
              obtain ⟨sum, hsum, _⟩ := hchange.exists_plus hchange'
                (hchange.fits_both (by simp [hcommitted]) hbooks.distinct)
              rw [takeBoth_of_ok hcommitted happly' hsum]
              have hkind : (some m₂).isSome = s.committed.isSome := by rw [hcommitted]; rfl
              refine .done _ _ (hmaps'.account _) hkind (by rw [hwrite]; exact hsides) ?_
              rintro _ ⟨⟩
              exact ⟨m₁, hcommitted, by rw [hwrite', hsides₂]⟩

/-! ## Releasing mapped runs -/

/-- Why runs released one after the other stop before `rest`, when the bytes have changed from `f` to
`g`. -/
inductive Halt (f g : Bytes Placement) (rest : List (Run Placement)) : RegionError → Prop where
  | full : Halt f g rest (.outOfMemory .outOfSlots)
  | long (r : Run Placement) (more : List (Run Placement)) (first : rest = r :: more)
      (size : maxSpan < r.size) : Halt f g rest (.invalidRange r.start r.size)
  | sum (c : Column) (t : Tag) (beyond : ¬ Fits ((g.held c t : ℤ) - f.held c t)) :
      Halt f g rest (.overflow .add)

/-- **Runs released one after the other.**  Those of `short` are released, and either there are no
others, and the answer is the change from the bytes `f` that there were at first; or what follows is
left as it is, for one of three reasons. -/
lemma releaseEach_cases {m : RegionMap Placement} {f g : Bytes Placement} {a b : Address}
    (h : m.Represents g) {runs : List (Run Placement)} (hruns : g.Shows b a runs) {sum : Deltas}
    (hsum : sum.Books f g) :
    ∃ short rest m', runs = short ++ rest ∧
      m'.Represents (g.overwriteEach (fun _ => .released) short) ∧ (short = [] → m' = m) ∧
      ((∃ d, rest = [] ∧ releaseEach m sum runs = (.ok d, m') ∧
          d.Books f (g.overwriteEach (fun _ => .released) short)) ∨
        ∃ e, releaseEach m sum runs = (.error e, m') ∧
          Halt f (g.overwriteEach (fun _ => .released) short) rest e) := by
  induction runs generalizing m g a sum with
  | nil => exact ⟨[], [], m, rfl, h, fun _ => rfl, .inl ⟨sum, rfl, rfl, hsum⟩⟩
  | cons r rest ih =>
      have htail := hruns.tail_overwrite .released
      rw [releaseEach]
      cases hruns with
      | cons hstart hlt hstop same tail =>
          rcases release_run_cases h hlt with ⟨hlong, herror⟩ | ⟨d, m₁, hok, h₁, hbooks⟩ | ⟨hfull, _⟩
          · exact ⟨[], r :: rest, m, rfl, h, fun _ => rfl,
              .inr ⟨_, by rw [herror], .long r rest rfl hlong⟩⟩
          · rw [hok]
            cases hplus : sum.plus d with
            | error o =>
                obtain ⟨rfl, c, t, hbeyond⟩ := Deltas.error_of_plus hbooks.distinct hplus
                refine ⟨[r], rest, m₁, rfl, h₁, fun hnil => absurd hnil (List.cons_ne_nil _ _),
                  .inr ⟨_, by simp only [hplus], .sum c t ?_⟩⟩
                rw [hsum.amount, hbooks.amount, sub_add_sub_cancel'] at hbeyond
                exact hbeyond
            | ok sum' =>
                obtain ⟨short, rest', m', hsplit, h', _, hanswer⟩ :=
                  ih h₁ htail (hsum.of_plus hbooks hplus)
                refine ⟨r :: short, rest', m', by rw [hsplit]; rfl, h',
                  fun hnil => absurd hnil (List.cons_ne_nil _ _), ?_⟩
                simp only [hplus]
                exact hanswer
          · exact ⟨[], r :: rest, m, rfl, h, fun _ => rfl, .inr ⟨_, by rw [hfull], .full⟩⟩

lemma mapped_eq (s : Space) (target : SpaceId) (first last : Address) :
    s.mapped target first last = (s.reserved.segments first last).filter fun r =>
      r.side.state.isReserved && r.side.data.mapping.map (·.space) = some target := by
  rw [mapped, RegionMap.runsIn, List.filter_filter]
  refine List.filter_congr ?_
  intro r _
  rw [Bool.and_comm]
  rfl

/-- The mapped runs of a range stand in ascending order, and cover its mapped bytes. -/
lemma Maps.mapped_spec (hs : s.Maps) (target : SpaceId) {first last : Address}
    (hlt : first < last) :
    Bytes.Shows s.reserved.sideAt last first (s.mapped target first last) ∧
      ∀ x, (∃ r ∈ s.mapped target first last, r.start ≤ x ∧ x < r.stop) ↔
        (first ≤ x ∧ x < last) ∧ (s.reserved.sideAt x).state.isReserved ∧
          (s.reserved.sideAt x).data.mapping.map (·.space) = some target := by
  have htiles := hs.reserved.tiles_segments hlt
  rw [mapped_eq]
  refine ⟨htiles.shows_filter _, ?_⟩
  intro x
  rw [htiles.exists_mem_filter_iff (fun side => side.state.isReserved &&
    side.data.mapping.map (·.space) = some target) x, Bool.and_eq_true, decide_eq_true_eq]

/-- A mapped run is not empty, and lies in the range. -/
lemma Maps.mem_mapped (hs : s.Maps) {target : SpaceId} {first last : Address} {r : Run Placement}
    (hr : r ∈ s.mapped target first last) :
    first < last ∧ first ≤ r.start ∧ r.start < r.stop ∧ r.stop ≤ last := by
  have hmem := (List.mem_filter.mp (List.mem_filter.mp hr).1).1
  have hlt : first < last := by
    by_contra hnot
    rw [RegionMap.segments, if_neg hnot] at hmem
    cases hmem
  exact ⟨hlt, ((hs.reserved.tiles_segments hlt).mem hmem).1⟩

/-- A mapped run is not longer than the range. -/
lemma Maps.size_le_of_mapped (hs : s.Maps) {target : SpaceId} {first last : Address}
    {r : Run Placement} (hr : r ∈ s.mapped target first last) : r.size ≤ last - first := by
  obtain ⟨hlt, hstart, hne, hle⟩ := hs.mem_mapped hr
  rw [UInt64.le_iff_toNat_le, UInt64.toNat_sub_of_le _ _ (UInt64.le_of_lt hlt), Run.size,
    UInt64.toNat_sub_of_le _ _ (UInt64.le_of_lt hne)]
  rw [UInt64.le_iff_toNat_le] at hstart hle
  omega

/-- Released runs hold no committed memory. -/
lemma Maps.of_released (hs : s.Maps) {m : RegionMap Placement} (hm : m.Represents m.sideAt)
    (hsides : ∀ x, m.sideAt x = .released ∨ m.sideAt x = s.reserved.sideAt x) :
    Maps { s with reserved := m } := by
  refine ⟨hm, hs.committed, ?_⟩
  intro hsome x
  rcases hsides x with hx | hx
  · rw [hx]
    exact State.noConfusion
  · rw [hx]
    exact hs.apart hsome x

/-- **Releasing the mapped parts of a range.**  The runs of `short` are released, and either these are
all and the change is booked, or what follows is left as it is and nothing is booked. -/
lemma Maps.unmap_cases (hs : s.Maps) (id : SpaceId) (first last : Address) :
    ∃ short rest m, s.mapped id first last = short ++ rest ∧ m.Represents m.sideAt ∧
      (∀ x, m.sideAt x = if ∃ r ∈ short, r.start ≤ x ∧ x < r.stop then .released
        else s.reserved.sideAt x) ∧
      (short = [] → m = s.reserved) ∧
      ((∃ d, rest = [] ∧ d.Books s.reserved.sideAt m.sideAt ∧
          s.unmap id first last = (.ok d, Space.account { s with reserved := m } d)) ∨
        ∃ e, s.unmap id first last = (.error e, { s with reserved := m }) ∧
          Halt s.reserved.sideAt m.sideAt rest e) := by
  have hshows : Bytes.Shows s.reserved.sideAt last first (s.mapped id first last) := by
    by_cases hlt : first < last
    · exact (hs.mapped_spec id hlt).1
    · have hnone : s.mapped id first last = [] :=
        List.eq_nil_iff_forall_not_mem.mpr fun r hr => hlt (hs.mem_mapped hr).1
      rw [hnone]
      exact .nil
  obtain ⟨short, rest, m, hsplit, hm, hnone, hanswer⟩ :=
    releaseEach_cases hs.reserved hshows (Deltas.books_empty _)
  have hshort : Bytes.Shows s.reserved.sideAt last first short :=
    Bytes.Shows.of_append (hsplit ▸ hshows)
  rw [← funext hm.sideAt_eq] at hanswer
  refine ⟨short, rest, m, hsplit, hm.sideAt, ?_, hnone, ?_⟩
  · intro x
    rw [hm.sideAt_eq, hshort.overwriteEach_apply]
  · rcases hanswer with ⟨d, hall, hrun, hbooks⟩ | ⟨e, hrun, hhalt⟩
    · exact .inl ⟨d, hall, hbooks, unmap_of_ok hrun⟩
    · exact .inr ⟨e, unmap_of_error hrun, hhalt⟩

/-- Each byte is released or as it was, if those of some runs are released. -/
lemma released_or_same {f g : Bytes Placement} {runs : List (Run Placement)}
    (h : ∀ x, g x = if ∃ r ∈ runs, r.start ≤ x ∧ x < r.stop then .released else f x)
    (x : Address) : g x = .released ∨ g x = f x := by
  rw [h]
  split_ifs
  · exact .inl rfl
  · exact .inr rfl

/-- The first mapped runs cover only what is to be released. -/
lemma Maps.mapped_of_append (hs : s.Maps) {id : SpaceId} {first last : Address} (hlt : first < last)
    {short rest : List (Run Placement)} (hsplit : s.mapped id first last = short ++ rest) (x : Address)
    (hx : ∃ r ∈ short, r.start ≤ x ∧ x < r.stop) :
    (first ≤ x ∧ x < last) ∧ (s.reserved.sideAt x).state.isReserved ∧
      (s.reserved.sideAt x).data.mapping.map (·.space) = some id := by
  obtain ⟨r, hr, hin⟩ := hx
  exact ((hs.mapped_spec id hlt).2 x).mp ⟨r, hsplit ▸ List.mem_append_left _ hr, hin⟩

/-- **Why a removal of mappings stops midway.** -/
lemma Maps.stops_of_halt (hs : s.Maps) {id : SpaceId} {base : Address} {size : UInt64}
    (hpos : 0 < size.toNat) (hend : base.toNat + size.toNat < 2 ^ 64)
    {short rest : List (Run Placement)} {m : RegionMap Placement} {e : RegionError}
    (hsplit : s.mapped id base (base + size) = short ++ rest) (hsome : short ≠ [])
    (hsides : ∀ x, m.sideAt x = if ∃ r ∈ short, r.start ≤ x ∧ x < r.stop then .released
      else s.reserved.sideAt x) (hhalt : Halt s.reserved.sideAt m.sideAt rest e) :
    e = .outOfMemory .outOfSlots ∨ s.StopsAtLong (.unmap id base size) e m ∨
      s.StopsAtSum (.unmap id base size) e m := by
  cases hhalt with
  | full => exact .inl rfl
  | long r more hfirst hlong =>
      subst hfirst
      have hmem : r ∈ s.mapped id base (base + size) := by
        rw [hsplit]
        exact List.mem_append_right _ List.mem_cons_self
      have hle := hs.size_le_of_mapped hmem
      rw [UInt64.add_comm, UInt64.add_sub_cancel] at hle
      exact .inr (.inl ⟨id, base, size, short, r, more, rfl, UInt64.lt_of_lt_of_le hlong hle,
        hsplit, hsome, hlong, rfl, hsides⟩)
  | sum c t hbeyond =>
      have hle := Bytes.held_le_of_released (released_or_same hsides) c t
      have hword := (Bytes.held_le_inUse s.reserved.sideAt c t).trans_lt
        (Bytes.inUse_lt hs.reserved.last_released c)
      have hmore : Bytes.held m.sideAt c t + 2 ^ 63 < Bytes.held s.reserved.sideAt c t := by
        simp only [Fits] at hbeyond
        omega
      refine .inr (.inr ⟨id, base, size, short, rest, c, t, rfl, ?_, hsplit, rfl, hsides, hmore⟩)
      -- what is released lies in the range, so the range is longer than that
      have hout : ∀ x, ¬ (base ≤ x ∧ x < base + size) → m.sideAt x = s.reserved.sideAt x :=
        fun x hx => (hsides x).trans
          (if_neg fun h => hx (hs.mapped_of_append (base_lt_end hpos hend) hsplit x h).1)
      have hheld := Bytes.held_add_heldIn hout c t
      have hlen := Bytes.heldIn_le s.reserved.sideAt base (base + size) c t
      have hstop := toNat_add_of_lt hend
      omega

/-- **What a removal of mappings yields.** -/
lemma Maps.yields_unmap (hs : s.Maps) (id : SpaceId) {base : Address} {size : UInt64}
    (hpos : 0 < size.toNat) (hend : base.toNat + size.toNat < 2 ^ 64) :
    s.Yields (.unmap id base size) ref (s.unmap id base (base + size)) := by
  have hlt := base_lt_end hpos hend
  obtain ⟨short, rest, m, hsplit, hm, hsides, hnone, hanswer⟩ :=
    hs.unmap_cases id base (base + size)
  have hmaps := hs.of_released hm (released_or_same hsides)
  rcases hanswer with ⟨d, rfl, _, hunmap⟩ | ⟨e, hunmap, hhalt⟩
  · rw [List.append_nil] at hsplit
    rw [hunmap]
    refine .done d _ (hmaps.account d) rfl ?_ fun m' hm' => ⟨m', hm', rfl⟩
    funext x
    show m.sideAt x = Bytes.unmap s.reserved.sideAt id base (base + size) x
    rw [hsides, ← hsplit, Bytes.unmap]
    simp only [(hs.mapped_spec id hlt).2]
  · rw [hunmap]
    by_cases hshortnil : short = []
    · rw [hnone hshortnil]
      exact .refused e
    · refine .stopped e m rfl hmaps ?_ (hs.stops_of_halt hpos hend hsplit hshortnil hsides hhalt)
      intro x
      rw [hsides]
      split_ifs with hx
      · exact .inr (if_pos (hs.mapped_of_append hlt hsplit x hx)).symm
      · exact .inl rfl

/-- **What a space answers.** -/
theorem Maps.act_yields (hs : s.Maps) (hop : op.Checked) (ref : StackRef) :
    s.Yields op ref (op.act ref s) := by
  cases op with
  | reserve id start size tag stack =>
      exact hs.yields_takeReserved (.reserve start size { stack := ref, tag }) (.inr rfl) rfl
        fun _ _ => rfl
  | commit id start size tag stack =>
      show s.Yields _ ref (s.commit start size ref tag)
      rw [Space.commit]
      cases hcommitted : s.committed with
      | none =>
          refine hs.yields_takeReserved (.commit start size { stack := ref, tag } .adopt)
            (.inl hcommitted) (by rw [hcommitted]; rfl) ?_
          intro m hm
          rw [hcommitted] at hm
          cases hm
      | some m =>
          exact hs.yields_takeCommitted hcommitted
            (.commit start size { stack := ref, tag } .replace) rfl rfl
  | uncommit id start size stack =>
      show s.Yields _ ref (s.uncommit start size ref)
      rw [Space.uncommit]
      cases hcommitted : s.committed with
      | none =>
          refine hs.yields_takeReserved (.uncommit start size { stack := ref }) (.inr rfl)
            (by rw [hcommitted]; rfl) ?_
          intro m hm
          rw [hcommitted] at hm
          cases hm
      | some m => exact hs.yields_takeCommitted hcommitted (.release start size) rfl rfl
  | release id start size =>
      exact hs.yields_takeBoth (.release start size) (.release start size) rfl rfl
        (fun h => h)
        (by cases s.committed <;> rfl) rfl
  | retag id start size tag =>
      exact hs.yields_takeBoth (.retag start size tag) (.retag start size tag) rfl rfl
        (fun h => h)
        (by cases s.committed <;> rfl) rfl
  | map id base size offset tag stack =>
      exact hs.yields_takeReserved (.reserve base size
        { stack := ref, tag, mapping := some (.ofBase id base offset) }) (.inr rfl) rfl
        fun _ _ => rfl
  | unmap id base size =>
      obtain ⟨hpos, hend⟩ := hop id base size rfl
      exact hs.yields_unmap id hpos hend

end Space

/-! ## Ledgers with sound maps -/

namespace Ledger

variable {v : Ledger} {op : Operation} {id : SpaceId}

lemma stateAt_eq {s : Space} (hs : v.space? .process = some s) (x : Address) :
    v.stateAt x = (s.reserved.sideAt x).state := by
  rw [stateAt, hs]

/-- The maps of every space are sound, and all spaces but the process keep their commits apart. -/
structure Charted (v : Ledger) : Prop where
  maps : ∀ id s, v.space? id = some s → s.Maps
  kind : ∀ id s, v.space? id = some s → (s.committed = none ↔ id.isProcess)
  pos : 0 < v.size

/-- **An operation is refused at once, or is what its space yields.** -/
theorem Charted.apply_cases (hv : v.Charted) (op : Operation) :
    (∃ e, v.apply op = (.error e, v)) ∨
      ∃ ref callStacks s r, v.Stores op ref callStacks ∧ v.space? op.target = some s ∧
        s.Yields op ref r ∧
        v.apply op = (r.1.mapError .region,
          { v with
            callStacks
            spaces := v.spaces.setIfInBounds op.target.raw.toNat r.2 }) := by
  rcases Ledger.apply_cases hv.pos op with hrefused | ⟨ref, callStacks, s, hstores, hs, hop, happly⟩
  · exact .inl hrefused
  · exact .inr ⟨ref, callStacks, s, _, hstores, hs, (hv.maps _ s hs).act_yields hop ref, happly⟩

lemma charted_create (config : Config) : (create config).Charted :=
  have h := sound_create config
  ⟨fun id s hs => (h.sound id s hs).toMaps, h.kind, h.pos⟩

/-- Another space with sound maps in the place of the old one. -/
lemma Charted.set (hv : v.Charted) {s s' : Space} (hs : v.space? id = some s) (hmaps : s'.Maps)
    (hkind : s'.committed.isSome = s.committed.isSome) (callStacks : StackStore) :
    Charted { v with callStacks, spaces := v.spaces.setIfInBounds id.raw.toNat s' } := by
  have hspaces : ∀ j s₁,
      space? { v with callStacks, spaces := v.spaces.setIfInBounds id.raw.toNat s' } j = some s₁ →
        (j = id ∧ s₁ = s') ∨ v.space? j = some s₁ := by
    intro j s₁ hs₁
    have hset := (space?_set hs s' j).symm.trans hs₁
    split_ifs at hset with hj
    · exact .inl ⟨hj, (Option.some.inj hset).symm⟩
    · exact .inr hset
  refine ⟨?_, ?_, ?_⟩
  · intro j s₁ hs₁
    rcases hspaces j s₁ hs₁ with ⟨_, rfl⟩ | hs₁
    · exact hmaps
    · exact hv.maps j s₁ hs₁
  · intro j s₁ hs₁
    rcases hspaces j s₁ hs₁ with ⟨rfl, rfl⟩ | hs₁
    · rw [← hv.kind j s hs, ← Option.not_isSome_iff_eq_none, hkind, Option.not_isSome_iff_eq_none]
    · exact hv.kind j s₁ hs₁
  · have hsize := hv.pos
    simpa [size] using hsize

/-- **A call leaves the maps of a ledger sound**, whatever it answers. -/
theorem Charted.step (hv : v.Charted) (c : LedgerCall) : (v.step c).Charted := by
  cases c with
  | register name =>
      refine ⟨?_, fun id s hs => kind_register hv.pos hv.kind name hs, ?_⟩
      · intro j s hs
        rcases v.register_cases name with hstep | ⟨new, _, hspace, _⟩
        · rw [hstep] at hs
          exact hv.maps j s hs
        · rw [hspace] at hs
          split_ifs at hs
          · rw [← Option.some.inj hs]
            exact (Space.sound_create _ _ _).toMaps
          · exact hv.maps j s hs
      · have hpos := hv.pos
        rcases v.register_cases name with hstep | ⟨_, _, _, hsize⟩
        · rwa [hstep]
        · omega
  | operation op =>
      show (v.apply op).2.Charted
      rcases hv.apply_cases op with ⟨e, happly⟩ | ⟨ref, callStacks, s, r, _, hs, hyields, happly⟩
      · rwa [happly]
      · rw [happly]
        cases hyields with
        | refused e => exact hv.set hs (hv.maps _ s hs) rfl callStacks
        | done d s' maps kind _ _ => exact hv.set hs maps kind callStacks
        | stopped e m _ maps _ _ => exact hv.set hs maps rfl callStacks

/-- **The maps of a ledger are sound after every run.** -/
theorem charted_run (config : Config) (calls : List LedgerCall) :
    ((create config).run calls).Charted := by
  induction calls using List.reverseRecOn with
  | nil => exact charted_create config
  | append_singleton calls c ih =>
      rw [run_concat]
      exact ih.step c

end Ledger

end RegionLedger
