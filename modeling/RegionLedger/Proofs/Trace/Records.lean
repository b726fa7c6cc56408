import RegionLedger.Proofs.Space.Renumbering
import RegionLedger.Proofs.Space.TagUse
import RegionLedger.Proofs.Tag.Names
import RegionLedger.Proofs.Tracker.Snapshots
import RegionLedger.Trace.Comparison

/-!
# What a record does

A record registers a space, or names a space and perhaps a tag and an operation on them.  In the
second case the space is looked up, the tag is numbered, and the tracker is given the operation; that
is the same for all seven kinds of operations.  So what a replay keeps is said once: spaces are
numbered in the order in which they are registered, and a tag that is in use has a name.

* `Reading`, `Record.reading?` — what a record of an operation names.
* `Replay.follow`, `Replay.apply_of_reading` — such a record is carried out.
* `Replay.Outcome`, `Replay.apply_outcome` — all that a record can do.
* `Replay.Does`, `Replay.apply_does` — the same without the counts.
* `Replay.answers`, `Replay.after` — records applied one by one, refused ones included.
* `Replay.Sound`, `Replay.Sound.after` — what a replay keeps.
* `Replay.filed` — the counters filed under a name.
-/

namespace RegionLedger

/-! ## Readings -/

/-- What a record of an operation names: a space, perhaps a tag, and the operation on both. -/
structure Reading where
  /-- The name of the space. -/
  space : String
  /-- The name of the tag. -/
  tag? : Option String
  /-- The operation, once the names are resolved. -/
  operation : SpaceId → Tag → Operation
  /-- The operation has the tag if there is a name for it. -/
  tag?_operation : ∀ id tag, (operation id tag).tag? = tag?.map fun _ => tag
  /-- The tag is used for nothing else. -/
  renumber_operation : ∀ (π : Renumbering) id tag,
    (operation id tag).renumber π = operation id (π tag)

/-- What a record of an operation names. -/
def Record.reading? : Record → Option Reading
  | .space _ => none
  | .reserve name start size tag frames => some
      { space := name, tag? := some tag
        operation := fun id tag => .reserve id start size tag ⟨frames⟩
        tag?_operation := fun _ _ => rfl, renumber_operation := fun _ _ _ => rfl }
  | .commit name start size tag frames => some
      { space := name, tag? := some tag
        operation := fun id tag => .commit id start size tag ⟨frames⟩
        tag?_operation := fun _ _ => rfl, renumber_operation := fun _ _ _ => rfl }
  | .uncommit name start size frames => some
      { space := name, tag? := none
        operation := fun id _ => .uncommit id start size ⟨frames⟩
        tag?_operation := fun _ _ => rfl, renumber_operation := fun _ _ _ => rfl }
  | .release name start size => some
      { space := name, tag? := none
        operation := fun id _ => .release id start size
        tag?_operation := fun _ _ => rfl, renumber_operation := fun _ _ _ => rfl }
  | .map name base size offset tag frames => some
      { space := name, tag? := some tag
        operation := fun id tag => .map id base size offset tag ⟨frames⟩
        tag?_operation := fun _ _ => rfl, renumber_operation := fun _ _ _ => rfl }
  | .unmap name base size => some
      { space := name, tag? := none
        operation := fun id _ => .unmap id base size
        tag?_operation := fun _ _ => rfl, renumber_operation := fun _ _ _ => rfl }
  | .retag name start size tag => some
      { space := name, tag? := some tag
        operation := fun id tag => .retag id start size tag
        tag?_operation := fun _ _ => rfl, renumber_operation := fun _ _ _ => rfl }

/-- The names that records register. -/
def Record.registered (records : List Record) : List String :=
  records.filterMap fun
    | .space name => some name
    | _ => none

/-- The tag of a name, which is numbered if it is new; without a name, that of untagged memory. -/
def TagNames.resolve (t : TagNames) : Option String → Except TagError Tag × TagNames
  | none => (.ok .untagged, t)
  | some name => t.intern name

/-- **What becomes of a name, if there is one.** -/
lemma TagNames.Sound.resolve_cases {t : TagNames} (ht : t.Sound) (name? : Option String) :
    (∃ tag u, t.resolve name? = (.ok tag, u) ∧ u.Sound ∧ t.Within u ∧
      ∀ name, name? = some name → u.tag? name = some tag) ∨
      ∃ e, t.resolve name? = (.error e, t) := by
  cases name? with
  | none => exact .inl ⟨.untagged, t, rfl, ht, .refl t, nofun⟩
  | some name =>
      rcases ht.intern_cases name with ⟨tag, u, hintern, hu, hwithin, htag⟩ | hintern
      · refine .inl ⟨tag, u, hintern, hu, hwithin, ?_⟩
        rintro _ ⟨⟩
        exact htag
      · exact .inr ⟨_, hintern⟩

/-- A table that refuses a name stays as it is. -/
lemma TagNames.eq_of_resolve_eq_error {t u : TagNames} {name? : Option String} {e : TagError}
    (h : t.resolve name? = (.error e, u)) : u = t := by
  cases name? with
  | none => cases h
  | some name =>
      rw [resolve, intern] at h
      split at h
      · cases h
      · split_ifs at h
        · cases h
        · exact ((Prod.mk.injEq ..).mp h).2.symm

/-- An entry of a list in which every key stands once. -/
lemma lookup_eq_some_iff {α : Type} {l : List (String × α)} (hl : (l.map Prod.fst).Nodup)
    (key : String) (value : α) : l.lookup key = some value ↔ (key, value) ∈ l := by
  induction l with
  | nil => simp
  | cons p rest ih =>
      obtain ⟨first, a⟩ := p
      obtain ⟨hfirst, hrest⟩ := List.nodup_cons.mp hl
      rw [List.lookup_cons, List.mem_cons]
      by_cases hkey : key = first
      · have hnot : (key, value) ∉ rest := by
          rw [hkey]
          exact fun h => hfirst (List.mem_map.mpr ⟨(first, value), h, rfl⟩)
        simp only [hkey, beq_self_eq_true, Option.some.injEq, Prod.mk.injEq, true_and]
        rw [← hkey, or_iff_left hnot, eq_comm]
      · rw [beq_false_of_ne hkey]
        simp only [Prod.mk.injEq, hkey, false_and, false_or]
        exact ih hrest

/-! ## The names of spaces -/

/-- No operation renames a space. -/
lemma Space.name_act (s : Space) (op : Operation) (ref : StackRef) :
    (op.act ref s).2.name = s.name := by
  have htake : ∀ p, (s.takeReserved p).2.name = s.name := by
    intro p
    cases p <;> rfl
  have htake' : ∀ p, (s.takeCommitted p).2.name = s.name := by
    intro p
    cases p <;> rfl
  have hboth : ∀ p f, (s.takeBoth p f).2.name = s.name := by
    intro p f
    obtain _ | ⟨d, m⟩ := p
    · rfl
    · cases hcommitted : s.committed with
      | none => rw [takeBoth_of_none hcommitted, account]
      | some m₁ =>
          obtain ⟨p, hp⟩ : ∃ p, f m₁ = p := ⟨_, rfl⟩
          obtain _ | ⟨d', m₂⟩ := p
          · rw [takeBoth_of_error hcommitted hp]
          · cases hsum : d.plus d'.commitOnly with
            | error o => rw [takeBoth_of_overflow hcommitted hp hsum]
            | ok sum => rw [takeBoth_of_ok hcommitted hp hsum, account]
  cases op with
  | reserve id start size tag stack => exact htake _
  | map id base size offset tag stack => exact htake _
  | commit id start size tag stack =>
      show (s.commit start size ref tag).2.name = s.name
      rw [Space.commit]
      cases s.committed with
      | none => exact htake _
      | some m => exact htake' _
  | uncommit id start size stack =>
      show (s.uncommit start size ref).2.name = s.name
      rw [Space.uncommit]
      cases s.committed with
      | none => exact htake _
      | some m => exact htake' _
  | release id start size => exact hboth _ _
  | retag id start size tag => exact hboth _ _
  | unmap id base size =>
      show (s.unmap id base (base + size)).2.name = s.name
      generalize hp : releaseEach s.reserved ∅ (s.mapped id base (base + size)) = p
      obtain ⟨answer, m⟩ := p
      cases answer with
      | error e => rw [unmap_of_error hp]
      | ok d =>
          rw [unmap_of_ok hp]
          rfl

lemma Ledger.name_apply (v : Ledger) (hpos : 0 < v.size) (op : Operation) (i : ℕ) :
    (v.apply op).2.spaces[i]?.map (·.name) = v.spaces[i]?.map (·.name) := by
  rcases Ledger.apply_cases hpos op with ⟨e, happly⟩ | ⟨ref, callStacks, s, _, hs, _, happly⟩
  · rw [happly]
  · rw [happly]
    dsimp only
    rw [Array.getElem?_setIfInBounds]
    split_ifs with hi hlt
    · have hs' : v.spaces[i]? = some s := hi ▸ hs
      rw [hs', Option.map_some, Option.map_some, s.name_act]
    · rw [← hi, Array.getElem?_eq_none (not_lt.mp hlt)]
    · rfl

namespace Replay

variable {r : Replay} {record : Record} {q : Reading}

/-! ## What a record does -/

/-- Carries out a reading. -/
def follow (r : Replay) (q : Reading) : Except ReplayError Unit × Replay :=
  match r.space? q.space with
  | none => (.error (.unknownSpace q.space), r)
  | some id =>
    match r.names.resolve q.tag? with
    | (.error e, names) => (.error (.tag e), { r with names })
    | (.ok tag, names) => Replay.record { r with names } (q.operation id tag)

lemma follow_of_unknown (h : r.space? q.space = none) :
    r.follow q = (.error (.unknownSpace q.space), r) := by
  rw [follow, h]

lemma follow_of_exhausted {id : SpaceId} (h : r.space? q.space = some id) {e : TagError}
    {names : TagNames} (hresolve : r.names.resolve q.tag? = (.error e, names)) :
    r.follow q = (.error (.tag e), { r with names }) := by
  rw [follow, h]
  simp only [hresolve]

lemma follow_of_resolved {id : SpaceId} (h : r.space? q.space = some id) {tag : Tag}
    {names : TagNames} (hresolve : r.names.resolve q.tag? = (.ok tag, names)) :
    r.follow q = Replay.record { r with names } (q.operation id tag) := by
  rw [follow, h]
  simp only [hresolve]

/-- **A record of an operation is carried out** as it reads. -/
theorem apply_of_reading (h : record.reading? = some q) : r.apply record = r.takeUp.follow q := by
  cases record with
  | space name => cases h
  | reserve space start size tag frames
  | commit space start size tag frames
  | map space base size offset tag frames
  | retag space start size tag =>
      obtain rfl := Option.some.inj h
      simp only [apply, withTag, withSpace, follow, TagNames.resolve]
      cases r.takeUp.space? space with
      | none => rfl
      | some id =>
          dsimp only
          generalize r.takeUp.names.intern tag = answer
          obtain ⟨_ | _, names⟩ := answer <;> rfl
  | uncommit space start size frames
  | release space start size
  | unmap space base size =>
      obtain rfl := Option.some.inj h
      simp only [apply, withSpace, follow, TagNames.resolve]
      cases r.takeUp.space? space <;> rfl

/-- A record registers a space or reads as an operation. -/
lemma space_or_reading (record : Record) :
    (∃ name, record = .space name) ∨ ∃ q, record.reading? = some q := by
  cases record with
  | space name => exact .inl ⟨name, rfl⟩
  | _ => exact .inr ⟨_, rfl⟩

/-- The ledger of the replay. -/
abbrev ledger (r : Replay) : Ledger := r.tracker.ledger

/-- With tracking off, an operation is counted and else forgotten. -/
lemma record_of_off (h : r.tracker.level = .off) (op : Operation) :
    r.record op =
      (.ok (), { r with stats := { r.stats with operations := r.stats.operations + 1 } }) := by
  rw [record, Tracker.record, if_pos h]

lemma record_of_ok (h : r.tracker.level ≠ .off) {op : Operation} {d : Deltas} {v : Ledger}
    (happly : r.ledger.apply op = (.ok d, v)) :
    r.record op =
      (.ok (), { r with
        tracker := { r.tracker with ledger := v }
        stats := { r.stats with operations := r.stats.operations + 1 } }) := by
  rw [record, Tracker.record, if_neg h, if_neg (by rw [Bool.and_false]; exact Bool.false_ne_true),
    happly]
  rfl

lemma record_of_error (h : r.tracker.level ≠ .off) {op : Operation} {e : LedgerError} {v : Ledger}
    (happly : r.ledger.apply op = (.error e, v)) :
    r.record op =
      (.error (.rejected op e), { r with tracker := { r.tracker with ledger := v } }) := by
  rw [record, Tracker.record, if_neg h, if_neg (by rw [Bool.and_false]; exact Bool.false_ne_true),
    happly]
  rfl

/-- An operation changes nothing but the counts and the ledger. -/
lemma record_cases (r : Replay) (op : Operation) :
    (r.record op).2.names = r.names ∧ (r.record op).2.spaces = r.spaces ∧
      ((r.record op).2.ledger = r.ledger ∨ (r.record op).2.ledger = (r.ledger.apply op).2) := by
  by_cases hlevel : r.tracker.level = .off
  · rw [record_of_off hlevel]
    exact ⟨rfl, rfl, .inl rfl⟩
  · generalize happly : r.ledger.apply op = p
    obtain ⟨_ | _, v⟩ := p
    · rw [record_of_error hlevel happly]
      exact ⟨rfl, rfl, .inr rfl⟩
    · rw [record_of_ok hlevel happly]
      exact ⟨rfl, rfl, .inr rfl⟩

/-- A registration that is refused leaves the ledger alone. -/
lemma ledger_register (r : Replay) (name : String) :
    (r.register name).2.ledger = r.ledger ∨
      (r.register name).2.ledger = r.ledger.step (.register name) := by
  rw [register]
  cases r.space? name with
  | some id => exact .inl rfl
  | none =>
      refine .inr ?_
      dsimp only
      rw [Tracker.register, Ledger.step]
      cases r.tracker.ledger.register name <;> rfl

/-- All that a record can do.  It is counted in any case. -/
inductive Outcome (r : Replay) (record : Record) : Except ReplayError Unit × Replay → Prop where
  /-- A space of the name is there already. -/
  | known (name : String) (id : SpaceId) (space : record = .space name)
      (old : r.space? name = some id) : Outcome r record (.error (.registeredTwice name), r.takeUp)
  /-- There is no number for the space. -/
  | full (name : String) (e : LedgerError) (space : record = .space name)
      (new : r.space? name = none) (register : r.tracker.register name = .error e) :
      Outcome r record (.error (.registration e), r.takeUp)
  /-- The space is registered. -/
  | registered (name : String) (id : SpaceId) (tracker : Tracker) (space : record = .space name)
      (new : r.space? name = none) (register : r.tracker.register name = .ok (id, tracker)) :
      Outcome r record (.ok (), { r.takeUp with
        tracker
        spaces := r.spaces ++ [(name, id)]
        stats := { r.takeUp.stats with spaces := r.stats.spaces + 1 } })
  /-- There is no space of the name. -/
  | unknown (q : Reading) (reading : record.reading? = some q) (new : r.space? q.space = none) :
      Outcome r record (.error (.unknownSpace q.space), r.takeUp)
  /-- There is no number for the tag. -/
  | exhausted (q : Reading) (id : SpaceId) (e : TagError) (reading : record.reading? = some q)
      (old : r.space? q.space = some id) (resolve : r.names.resolve q.tag? = (.error e, r.names)) :
      Outcome r record (.error (.tag e), r.takeUp)
  /-- The names are resolved, and the tracker is given the operation. -/
  | offered (q : Reading) (id : SpaceId) (tag : Tag) (names : TagNames)
      (reading : record.reading? = some q) (old : r.space? q.space = some id)
      (resolve : r.names.resolve q.tag? = (.ok tag, names)) :
      Outcome r record (Replay.record { r.takeUp with names } (q.operation id tag))

/-- **All that a record can do.** -/
theorem apply_outcome (r : Replay) (record : Record) : r.Outcome record (r.apply record) := by
  rcases space_or_reading record with ⟨name, rfl⟩ | ⟨q, hq⟩
  · show r.Outcome _ (r.takeUp.register name)
    rw [register]
    cases hspace : r.takeUp.space? name with
    | some id => exact .known name id rfl hspace
    | none =>
        cases hregister : r.takeUp.tracker.register name with
        | error e => exact .full name e rfl hspace hregister
        | ok p => exact .registered name p.1 p.2 rfl hspace hregister
  · rw [apply_of_reading hq]
    cases hspace : r.takeUp.space? q.space with
    | none =>
        rw [follow_of_unknown hspace]
        exact .unknown q hq hspace
    | some id =>
        cases hresolve : r.takeUp.names.resolve q.tag? with
        | mk answer names =>
            cases answer with
            | error e =>
                obtain rfl := TagNames.eq_of_resolve_eq_error hresolve
                rw [follow_of_exhausted hspace hresolve]
                exact .exhausted q id e hq hspace hresolve
            | ok tag =>
                rw [follow_of_resolved hspace hresolve]
                exact .offered q id tag names hq hspace hresolve

/-- All that a record can do, but for the counts. -/
inductive Does (r : Replay) (record : Record) : Except ReplayError Unit × Replay → Prop where
  | refused (e : ReplayError) (r' : Replay) (names : r'.names = r.names)
      (spaces : r'.spaces = r.spaces) (ledger : r'.ledger = r.ledger) :
      Does r record (.error e, r')
  | registered (name : String) (id : SpaceId) (r' : Replay) (space : record = .space name)
      (fresh : r.space? name = none) (names : r'.names = r.names)
      (spaces : r'.spaces = r.spaces ++ [(name, id)])
      (ledger : r.ledger.register name = .ok (id, r'.ledger)) : Does r record (.ok (), r')
  | operated (q : Reading) (id : SpaceId) (tag : Tag) (answer : Except ReplayError Unit) (r' : Replay)
      (reading : record.reading? = some q)
      (resolved : r.names.resolve q.tag? = (.ok tag, r'.names)) (spaces : r'.spaces = r.spaces)
      (ledger : r'.ledger = r.ledger ∨ r'.ledger = (r.ledger.apply (q.operation id tag)).2) :
      Does r record (answer, r')

/-- A tracker registers a space in its ledger. -/
lemma ledger_of_register_eq_ok {t t' : Tracker} {name : String} {id : SpaceId}
    (h : t.register name = .ok (id, t')) : t.ledger.register name = .ok (id, t'.ledger) := by
  rw [Tracker.register] at h
  cases hregister : t.ledger.register name with
  | error e =>
      rw [hregister] at h
      cases h
  | ok p =>
      rw [hregister] at h
      cases h
      rfl

/-- **All that a record can do**, but for the counts. -/
theorem apply_does (r : Replay) (record : Record) : r.Does record (r.apply record) := by
  have houtcome := r.apply_outcome record
  generalize r.apply record = p at houtcome
  cases houtcome with
  | known | full | unknown | exhausted => exact .refused _ _ rfl rfl rfl
  | registered name id tracker space new register =>
      exact .registered name id _ space new rfl rfl (ledger_of_register_eq_ok register)
  | offered q id tag names reading old resolve =>
      obtain ⟨hnames, hspaces, hledger⟩ :=
        record_cases { r.takeUp with names } (q.operation id tag)
      exact .operated q id tag _ _ reading (hnames.symm ▸ resolve) hspaces hledger

/-! ## Records one by one -/

/-- What is answered to records that are applied one by one. -/
def answers (r : Replay) : List Record → List (Except ReplayError Unit)
  | [] => []
  | record :: rest => (r.apply record).1 :: answers (r.apply record).2 rest

/-- The replay after records that are applied one by one. -/
def after (r : Replay) (records : List Record) : Replay :=
  records.foldl (fun r record => (r.apply record).2) r

lemma after_cons (r : Replay) (record : Record) (rest : List Record) :
    r.after (record :: rest) = (r.apply record).2.after rest := rfl

/-- **A run without a refusal** applies all records, and accepts every one. -/
theorem runFrom_ok {r' : Replay} {records : List Record} {n : ℕ}
    (h : r.runFrom n records = (.ok (), r')) :
    r' = r.after records ∧ ∀ answer ∈ r.answers records, answer = .ok () := by
  induction records generalizing r n with
  | nil =>
      obtain ⟨_, rfl⟩ := (Prod.mk.injEq ..).mp h
      exact ⟨rfl, nofun⟩
  | cons record rest ih =>
      rw [runFrom] at h
      rw [after_cons, answers]
      generalize r.apply record = p at h
      obtain ⟨_ | _, next⟩ := p
      · cases h
      · obtain ⟨hafter, hanswers⟩ := ih h
        exact ⟨hafter, List.forall_mem_cons.mpr ⟨rfl, hanswers⟩⟩

lemma run_of_ok {records : List Record} (h : (r.run records).1 = .ok ()) :
    r.run records = (.ok (), (r.run records).2) := by
  rw [← h]

/-! ## What a replay keeps -/

/-- Spaces are numbered in the order in which they are registered, each under a name of its own, and
a tag that is in use has a name. -/
structure Sound (r : Replay) : Prop where
  names : r.names.Sound
  charted : r.ledger.Charted
  unused : ∀ t, t ≠ .untagged → r.names.name? t = none → r.ledger.Lacks t
  size_le : r.ledger.size ≤ UInt32.size
  numbered : ∀ i : ℕ, r.spaces[i]? = r.ledger.spaces[i]?.map fun s => (s.name, ⟨UInt32.ofNat i⟩)
  nodup : (r.spaces.map Prod.fst).Nodup

theorem sound_create (config : Config) {names : TagNames} (hnames : names.Sound) :
    (create config names).Sound := by
  refine ⟨hnames, Ledger.charted_create config, ?_, ?_, ?_, List.nodup_singleton _⟩
  · intro t ht _
    exact .create ht config
  · show 1 ≤ UInt32.size
    decide
  · intro i
    cases i <;> rfl

namespace Sound

/-- A tag without a name had none before. -/
lemma name?_of_within {t u : TagNames} (ht : t.Sound) (hu : u.Sound) (h : t.Within u) {tag : Tag}
    (hnone : u.name? tag = none) : t.name? tag = none := by
  cases hname : t.name? tag with
  | none => rfl
  | some name =>
      rw [← ht.tag?_eq_some_iff] at hname
      have htag := (hu.tag?_eq_some_iff name tag).mp (h name tag hname)
      rw [hnone] at htag
      cases htag

/-- A space is known under the name that it has in the ledger. -/
lemma mem_spaces_iff (hr : r.Sound) (name : String) (id : SpaceId) :
    (name, id) ∈ r.spaces ↔ ∃ s, r.ledger.space? id = some s ∧ s.name = name := by
  rw [List.mem_iff_getElem?]
  constructor
  · rintro ⟨i, hi⟩
    rw [hr.numbered, Option.map_eq_some_iff] at hi
    obtain ⟨s, hs, hpair⟩ := hi
    obtain ⟨rfl, rfl⟩ := (Prod.mk.injEq ..).mp hpair
    have hlt : i < r.ledger.spaces.size := (Array.getElem?_eq_some_iff.mp hs).1
    refine ⟨s, ?_, rfl⟩
    show r.ledger.spaces[(UInt32.ofNat i).toNat]? = some s
    rwa [UInt32.toNat_ofNat_of_lt' (hlt.trans_le hr.size_le)]
  · rintro ⟨s, hs, rfl⟩
    refine ⟨id.raw.toNat, ?_⟩
    have hs' : r.ledger.spaces[id.raw.toNat]? = some s := hs
    rw [hr.numbered, hs', UInt32.ofNat_toNat]
    rfl

/-- **The space of a name** has that name, and no other space has. -/
theorem space?_eq_some_iff (hr : r.Sound) (name : String) (id : SpaceId) :
    r.space? name = some id ↔ ∃ s, r.ledger.space? id = some s ∧ s.name = name := by
  rw [← hr.mem_spaces_iff, space?]
  exact lookup_eq_some_iff hr.nodup name id

lemma space?_eq_none_iff (hr : r.Sound) (name : String) :
    r.space? name = none ↔ name ∉ r.spaces.map Prod.fst := by
  constructor
  · intro hnone hmem
    obtain ⟨⟨_, id⟩, hpair, rfl⟩ := List.mem_map.mp hmem
    rw [hr.mem_spaces_iff, ← hr.space?_eq_some_iff, hnone] at hpair
    cases hpair
  · intro hnot
    cases hspace : r.space? name with
    | none => rfl
    | some id =>
        rw [hr.space?_eq_some_iff, ← hr.mem_spaces_iff] at hspace
        exact absurd (List.mem_map_of_mem hspace) hnot

/-! ### One record -/

/-- A registration. -/
lemma register (hr : r.Sound) {r' : Replay} {name : String} {id : SpaceId}
    (hfresh : r.space? name = none) (hnames : r'.names = r.names)
    (hspaces : r'.spaces = r.spaces ++ [(name, id)])
    (hledger : r.ledger.register name = .ok (id, r'.ledger)) : r'.Sound := by
  have hstep : r'.ledger = r.ledger.step (.register name) := by rw [Ledger.step, hledger]
  have hroom : r.ledger.spaces.size < UInt32.size := by
    by_contra hnot
    rw [Ledger.register_of_not_lt name hnot] at hledger
    cases hledger
  obtain ⟨hid, hpush⟩ := (Prod.mk.injEq ..).mp
    (Except.ok.inj ((Ledger.register_of_lt name hroom).symm.trans hledger))
  have hlength : r.spaces.length = r.ledger.spaces.size := by
    have hend := hr.numbered r.spaces.length
    have hend' := hr.numbered r.ledger.spaces.size
    rw [List.getElem?_eq_none (le_refl _), eq_comm, Option.map_eq_none_iff,
      Array.getElem?_eq_none_iff] at hend
    rw [Array.getElem?_eq_none (le_refl _), Option.map_none, List.getElem?_eq_none_iff] at hend'
    omega
  refine ⟨hnames ▸ hr.names, hstep ▸ hr.charted.step _, ?_, ?_, ?_, ?_⟩
  · intro t ht hnone
    rw [hnames] at hnone
    exact hstep ▸ (hr.unused t ht hnone).register ht name
  · exact hstep ▸ Ledger.size_step_le hr.size_le _
  · intro i
    rw [hspaces, ← hpush, List.getElem?_append, Array.getElem?_push, hlength]
    rcases Nat.lt_trichotomy i r.ledger.spaces.size with hlt | heq | hgt
    · rw [if_pos hlt, if_neg hlt.ne]
      exact hr.numbered i
    · rw [if_neg heq.not_lt, if_pos heq, heq, Nat.sub_self, ← hid]
      rfl
    · rw [if_neg hgt.not_gt, if_neg hgt.ne', Array.getElem?_eq_none hgt.le]
      obtain ⟨n, hn⟩ := Nat.exists_eq_add_of_lt hgt
      rw [show i - r.ledger.spaces.size = n + 1 by omega]
      rfl
  · rw [hspaces, List.map_append, List.map_singleton]
    refine hr.nodup.append (List.nodup_singleton name) ?_
    rw [List.disjoint_singleton]
    exact (hr.space?_eq_none_iff name).mp hfresh

/-- An operation under a tag that has a name, if it is carried out. -/
lemma operate (hr : r.Sound) {r' : Replay} {q : Reading} {id : SpaceId} {tag : Tag}
    (hresolve : r.names.resolve q.tag? = (.ok tag, r'.names)) (hspaces : r'.spaces = r.spaces)
    (hledger : r'.ledger = r.ledger ∨ r'.ledger = (r.ledger.apply (q.operation id tag)).2) :
    r'.Sound := by
  obtain ⟨hnames, hwithin, htag⟩ : r'.names.Sound ∧ r.names.Within r'.names ∧
      ∀ name, q.tag? = some name → r'.names.tag? name = some tag := by
    rcases hr.names.resolve_cases q.tag? with ⟨tag', u, hanswer, hu⟩ | ⟨_, hanswer⟩
    · obtain ⟨htag, rfl⟩ := (Prod.mk.injEq ..).mp (hanswer.symm.trans hresolve)
      obtain rfl := Except.ok.inj htag
      exact hu
    · rw [hanswer] at hresolve
      cases hresolve
  have hother : ∀ t, r'.names.name? t = none → (q.operation id tag).tag? ≠ some t := by
    intro t hnone
    rw [q.tag?_operation]
    cases hname : q.tag? with
    | none => exact nofun
    | some name =>
        rintro ⟨⟩
        have hnamed := (hnames.tag?_eq_some_iff name tag).mp (htag name hname)
        rw [hnone] at hnamed
        cases hnamed
  have hunused : ∀ t, t ≠ .untagged → r'.names.name? t = none → r.ledger.Lacks t := by
    intro t ht hnone
    exact hr.unused t ht (name?_of_within hr.names hnames hwithin hnone)
  rcases hledger with hledger | hledger
  · exact ⟨hnames, hledger ▸ hr.charted, hledger ▸ hunused, hledger ▸ hr.size_le,
      hspaces ▸ hledger ▸ hr.numbered, hspaces ▸ hr.nodup⟩
  · have hstep : r'.ledger = r.ledger.step (.operation (q.operation id tag)) := hledger
    refine ⟨hnames, hstep ▸ hr.charted.step _, ?_, hstep ▸ Ledger.size_step_le hr.size_le _, ?_,
      hspaces ▸ hr.nodup⟩
    · intro t ht hnone
      rw [hledger]
      exact (hunused t ht hnone).apply ht hr.charted (hother t hnone)
    · intro i
      have hname := r.ledger.name_apply hr.charted.pos (q.operation id tag) i
      have hmap := congrArg (Option.map fun name => (name, (⟨UInt32.ofNat i⟩ : SpaceId))) hname
      rw [Option.map_map, Option.map_map] at hmap
      rw [hspaces, hr.numbered, hledger]
      exact hmap.symm

/-- **A record** leaves a replay sound. -/
theorem apply (hr : r.Sound) (record : Record) : (r.apply record).2.Sound := by
  have hdoes := r.apply_does record
  generalize r.apply record = p at hdoes
  cases hdoes with
  | refused e r' names spaces ledger =>
      exact ⟨names ▸ hr.names, ledger ▸ hr.charted, names ▸ ledger ▸ hr.unused, ledger ▸ hr.size_le,
        spaces ▸ ledger ▸ hr.numbered, spaces ▸ hr.nodup⟩
  | registered name id r' space fresh names spaces ledger =>
      exact hr.register fresh names spaces ledger
  | operated q id tag answer r' reading resolved spaces ledger =>
      exact hr.operate resolved spaces ledger

/-- **Records** leave a replay sound. -/
theorem after (hr : r.Sound) (records : List Record) : (r.after records).Sound := by
  induction records generalizing r with
  | nil => exact hr
  | cons record rest ih => exact ih (hr.apply record)

/-! ### What is added -/

/-- A record keeps the tags of all names. -/
lemma within_apply (hr : r.Sound) (record : Record) : r.names.Within (r.apply record).2.names := by
  have hdoes := r.apply_does record
  generalize r.apply record = p at hdoes
  cases hdoes with
  | refused e r' names spaces ledger => exact names ▸ .refl _
  | registered name id r' space fresh names spaces ledger => exact names ▸ .refl _
  | operated q id tag answer r' reading resolved spaces ledger =>
      rcases hr.names.resolve_cases q.tag? with ⟨_, u, hanswer, _, hwithin, _⟩ | ⟨_, hanswer⟩
      · obtain ⟨_, rfl⟩ := (Prod.mk.injEq ..).mp (hanswer.symm.trans resolved)
        exact hwithin
      · rw [hanswer] at resolved
        cases resolved

/-- **Names keep their tags.** -/
theorem within_after (hr : r.Sound) (records : List Record) :
    r.names.Within (r.after records).names := by
  induction records generalizing r with
  | nil => exact .refl _
  | cons record rest ih => exact (hr.within_apply record).trans (ih (hr.apply record))

/-- **Accepted records register their names** in order, after those that were there. -/
theorem map_fst_spaces_after (hr : r.Sound) {records : List Record}
    (haccepted : ∀ answer ∈ r.answers records, answer = .ok ()) :
    (r.after records).spaces.map Prod.fst =
      r.spaces.map Prod.fst ++ Record.registered records := by
  induction records generalizing r with
  | nil => exact (List.append_nil _).symm
  | cons record rest ih =>
      rw [answers, List.forall_mem_cons] at haccepted
      obtain ⟨hfirst, hrest⟩ := haccepted
      have hone : (r.apply record).2.spaces.map Prod.fst =
          r.spaces.map Prod.fst ++ Record.registered [record] := by
        have hdoes := r.apply_does record
        generalize r.apply record = p at hdoes hfirst
        cases hdoes with
        | refused e r' names spaces ledger => cases hfirst
        | registered name id r' space fresh names spaces ledger =>
            rw [spaces, space, List.map_append]
            rfl
        | operated q id tag answer r' reading resolved spaces ledger =>
            have hnone : Record.registered [record] = [] := by
              cases record with
              | space name => cases reading
              | _ => rfl
            rw [spaces, hnone, List.append_nil]
      have happend : Record.registered (record :: rest) =
          Record.registered [record] ++ Record.registered rest :=
        List.filterMap_append (l := [record])
      rw [after_cons, ih (hr.apply record) hrest, hone, happend, List.append_assoc]

end Sound

/-! ## What is known by name -/

/-- The counters of a space that are filed under a name, which are zero if it is not known. -/
def filed (r : Replay) (id : SpaceId) (name : String) : Counters :=
  match r.ledger.space? id, r.names.tag? name with
  | some s, some tag => s.totals.get tag
  | _, _ => {}

end Replay

end RegionLedger
