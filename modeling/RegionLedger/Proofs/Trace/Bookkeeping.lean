import RegionLedger.Proofs.Trace.Records

/-!
# The books of a replay

A replay keeps the names of spaces in a table of its own, beside the ledger that stores them too, and
counts what became of every record.  A record can be refused in several places, and the replay can be
fed on after a refusal; the table and the counts are right all the same.  A run applies records until
one is refused, and nothing after it.

* `Ledger.apply_ne_unknownSpace` — an operation on a known space finds it.
* `Replay.Balanced`, `Replay.Balanced.after` — every record is counted once more, as what it became.
* `Replay.Named` — names and numbers of spaces belong to each other, one to one.
* `Replay.runFrom_cases` — a run applies the records up to the first refusal.
* `Replay.books_kept` — all of this, for any records.
-/

namespace RegionLedger

/-! ## Operations on known spaces -/

/-- That a space is unknown only stands against an operation if it is. -/
lemma Operation.objection?_ne_unknownSpace {op : Operation} {known : SpaceId → Bool}
    (h : known op.space = true) (id : SpaceId) : op.objection? known ≠ some (.unknownSpace id) := by
  cases op with
  | map | unmap =>
      rw [space] at h
      simp only [objection?, h, Bool.not_true, Bool.false_eq_true, if_false]
      intro hunknown
      split_ifs at hunknown <;> cases hunknown
  | _ =>
      rw [space] at h
      rw [objection?, if_pos h]
      intro hunknown
      cases hunknown

namespace Ledger

variable {v : Ledger} {op : Operation}

/-- An operation on a known space is left to a space that is there. -/
lemma exists_space?_target (hpos : 0 < v.size) (hknows : v.knows op.space = true) :
    ∃ s, v.space? op.target = some s := by
  have hspace := Option.isSome_iff_exists.mp hknows
  have hprocess : ∃ s, v.space? .process = some s := ⟨_, Array.getElem?_eq_getElem hpos⟩
  cases op with
  | map | unmap => exact hprocess
  | _ => exact hspace

/-- **An operation on a known space** is never refused for want of the space. -/
theorem apply_ne_unknownSpace (hpos : 0 < v.size) (hknows : v.knows op.space = true) (id : SpaceId) :
    (v.apply op).1 ≠ .error (.unknownSpace id) := by
  cases hobjection : op.objection? v.knows with
  | some e =>
      rw [apply_of_objection hobjection]
      intro h
      obtain rfl := Except.error.inj h
      exact op.objection?_ne_unknownSpace hknows id hobjection
  | none =>
      obtain ⟨s, hs⟩ := exists_space?_target hpos hknows
      have hact : ∀ ref callStacks,
          (onSpace { v with callStacks } op.target (op.act ref)).1 ≠ .error (.unknownSpace id) := by
        intro ref callStacks
        have hs' : space? { v with callStacks } op.target = some s := hs
        rw [onSpace_eq hs']
        intro hunknown
        cases hact : (op.act ref s).1 <;> rw [hact] at hunknown <;> cases hunknown
      have happly := v.apply_eq op
      simp only [hobjection, carryOut] at happly
      rw [happly]
      cases op.stack? with
      | none => exact hact {} v.callStacks
      | some stack =>
          dsimp only
          rw [withStack]
          cases v.callStacks.push stack with
          | error e =>
              intro hunknown
              cases hunknown
          | ok stored => exact hact stored.1 stored.2

end Ledger

/-- The operation of a record is on the space that the record names. -/
lemma Record.space_operation {record : Record} {q : Reading} (h : record.reading? = some q)
    (id : SpaceId) (tag : Tag) : (q.operation id tag).space = id := by
  cases record with
  | space name => cases h
  | _ =>
      obtain rfl := Option.some.inj h
      rfl

namespace Replay

variable {r : Replay} {record : Record}

/-! ## Spaces by name and by number -/

/-- Names and numbers of spaces belong to each other: every name that is known stands for the space
that has it in the ledger, and of the numbers from zero on, as many as there are spaces, each has one
name. -/
structure Named (r : Replay) : Prop where
  known : ∀ name id, r.space? name = some id ↔ ∃ s, r.ledger.space? id = some s ∧ s.name = name
  lt_size : ∀ name id, r.space? name = some id → id.raw.toNat < r.ledger.size
  one_name : ∀ id, id.raw.toNat < r.ledger.size → ∃! name, r.space? name = some id

lemma Sound.named (hr : r.Sound) : r.Named := by
  have hlt : ∀ {id s}, r.ledger.space? id = some s → id.raw.toNat < r.ledger.size := fun hs =>
    (Array.getElem?_eq_some_iff.mp hs).1
  refine ⟨hr.space?_eq_some_iff, ?_, ?_⟩
  · intro name id hid
    obtain ⟨s, hs, _⟩ := (hr.space?_eq_some_iff name id).mp hid
    exact hlt hs
  · intro id hid
    have hs : r.ledger.space? id = some r.ledger.spaces[id.raw.toNat] := Array.getElem?_eq_getElem hid
    refine ⟨_, (hr.space?_eq_some_iff _ id).mpr ⟨_, hs, rfl⟩, ?_⟩
    intro name hname
    obtain ⟨s, hs', rfl⟩ := (hr.space?_eq_some_iff name id).mp hname
    rw [Option.some.inj (hs'.symm.trans hs)]

/-- **No operation on an unknown space** is given to the tracker. -/
lemma Sound.knows_operation (hr : r.Sound) {q : Reading} (hq : record.reading? = some q) {id : SpaceId}
    (hid : r.space? q.space = some id) (tag : Tag) :
    r.ledger.knows (q.operation id tag).space = true := by
  obtain ⟨s, hs, _⟩ := (hr.space?_eq_some_iff _ id).mp hid
  rw [Record.space_operation hq, Ledger.knows, hs]
  rfl

/-- An operation on a known space is not refused for want of the space. -/
lemma record_ne_unknownSpace (hpos : 0 < r.ledger.size) {op : Operation}
    (hknows : r.ledger.knows op.space = true) (op' : Operation) (id : SpaceId) :
    (r.record op).1 ≠ .error (.rejected op' (.unknownSpace id)) := by
  by_cases hlevel : r.tracker.level = .off
  · rw [record_of_off hlevel]
    exact nofun
  · have hanswer := r.ledger.apply_ne_unknownSpace hpos hknows id
    generalize happly : r.ledger.apply op = p at hanswer
    obtain ⟨e | d, v⟩ := p
    · rw [record_of_error hlevel happly]
      rintro ⟨⟩
      exact hanswer rfl
    · rw [record_of_ok hlevel happly]
      exact nofun

/-- **No record is refused for want of a space** that its name stands for. -/
lemma Sound.apply_ne_unknownSpace (hr : r.Sound) (record : Record) (op : Operation) (id : SpaceId) :
    (r.apply record).1 ≠ .error (.rejected op (.unknownSpace id)) := by
  have houtcome := r.apply_outcome record
  generalize r.apply record = p at houtcome
  cases houtcome with
  | offered q id' tag names reading old resolve =>
      exact record_ne_unknownSpace (r := { r.takeUp with names }) hr.charted.pos
        (hr.knows_operation reading old tag) op id
  | _ => exact nofun

/-- **A record of an unknown space** is counted and changes nothing else. -/
lemma apply_of_unknown {q : Reading} (hq : record.reading? = some q) (h : r.space? q.space = none) :
    r.apply record = (.error (.unknownSpace q.space), r.takeUp) := by
  rw [apply_of_reading hq]
  exact follow_of_unknown h

/-! ## Counts -/

/-- The number of refusals among some answers. -/
def refusals (answers : List (Except ReplayError Unit)) : ℕ := answers.countP fun a => !a.isOk

lemma refusals_cons (answer : Except ReplayError Unit) (rest : List (Except ReplayError Unit)) :
    refusals (answer :: rest) = refusals [answer] + refusals rest := by
  rw [← List.singleton_append, refusals, List.countP_append, refusals, refusals]

/-- Of the `fed` records every one is counted as what became of it, `failed` of them as refused, and
every space but that of the process is counted. -/
structure Balanced (r : Replay) (fed failed : ℕ) : Prop where
  fed : r.stats.records.toNat = fed
  records : r.stats.records.toNat =
    r.stats.operations.toNat + r.stats.spaces.toNat + r.stats.dropped.toNat + failed
  spaces : r.stats.spaces.toNat + 1 = r.ledger.size

lemma balanced_create (config : Config) (names : TagNames) : (create config names).Balanced 0 0 :=
  ⟨rfl, rfl, rfl⟩

/-- An operation is counted if it is accepted. -/
lemma stats_record (r : Replay) (op : Operation) :
    (r.record op).1 = .ok () ∧
        (r.record op).2.stats = { r.stats with operations := r.stats.operations + 1 } ∨
      (∃ e, (r.record op).1 = .error e) ∧ (r.record op).2.stats = r.stats := by
  by_cases hlevel : r.tracker.level = .off
  · rw [record_of_off hlevel]
    exact .inl ⟨rfl, rfl⟩
  · generalize happly : r.ledger.apply op = p
    obtain ⟨e | d, v⟩ := p
    · rw [record_of_error hlevel happly]
      exact .inr ⟨⟨_, rfl⟩, rfl⟩
    · rw [record_of_ok hlevel happly]
      exact .inl ⟨rfl, rfl⟩

/-- An operation adds no space. -/
lemma size_record (r : Replay) (op : Operation) : (r.record op).2.ledger.size = r.ledger.size := by
  obtain ⟨_, _, hledger | hledger⟩ := r.record_cases op
  · rw [hledger]
  · rw [hledger, Ledger.size_apply]

/-- A registration adds one space. -/
lemma size_of_register_eq_ok {t t' : Tracker} {name : String} {id : SpaceId}
    (h : t.register name = .ok (id, t')) : t'.ledger.size = t.ledger.size + 1 := by
  have hregister := ledger_of_register_eq_ok h
  rw [Ledger.register] at hregister
  split_ifs at hregister
  obtain ⟨_, hpush⟩ := (Prod.mk.injEq ..).mp (Except.ok.inj hregister)
  rw [← hpush]
  exact Array.size_push _

/-- A count that goes up by one within the words. -/
lemma toNat_add_one {n : UInt64} (h : n.toNat + 1 < 2 ^ 64) : (n + 1).toNat = n.toNat + 1 :=
  toNat_add_of_lt h

/-- **A record** is counted once, and once more as what became of it. -/
theorem Balanced.apply {fed failed : ℕ} (h : r.Balanced fed failed) (record : Record)
    (hroom : fed + 1 < 2 ^ 64) :
    (r.apply record).2.Balanced (fed + 1) (failed + refusals [(r.apply record).1]) := by
  obtain ⟨hfed, hrecords, hspaces⟩ := h
  have htaken : (r.stats.records + 1).toNat = fed + 1 := hfed ▸ toNat_add_one (by omega)
  have houtcome := r.apply_outcome record
  generalize r.apply record = p at houtcome
  cases houtcome with
  | known | full | unknown | exhausted =>
      refine ⟨htaken, ?_, hspaces⟩
      show (r.stats.records + 1).toNat = r.stats.operations.toNat + r.stats.spaces.toNat +
        r.stats.dropped.toNat + (failed + 1)
      omega
  | registered name id tracker space new register =>
      have hsize := size_of_register_eq_ok register
      have hcounted : (r.stats.spaces + 1).toNat = r.stats.spaces.toNat + 1 :=
        toNat_add_one (by omega)
      refine ⟨htaken, ?_, (hcounted ▸ congrArg (· + 1) hspaces).trans hsize.symm⟩
      show (r.stats.records + 1).toNat = r.stats.operations.toNat + (r.stats.spaces + 1).toNat +
        r.stats.dropped.toNat + (failed + 0)
      omega
  | offered q id tag names reading old resolve =>
      have hsize := size_record { r.takeUp with names } (q.operation id tag)
      rcases stats_record { r.takeUp with names } (q.operation id tag) with
        ⟨hanswer, hstats⟩ | ⟨⟨e, hanswer⟩, hstats⟩
      · have hcounted : (r.stats.operations + 1).toNat = r.stats.operations.toNat + 1 :=
          toNat_add_one (by omega)
        refine ⟨by rw [hstats]; exact htaken, ?_, by rw [hsize, hstats]; exact hspaces⟩
        rw [hstats, hanswer]
        show (r.stats.records + 1).toNat = (r.stats.operations + 1).toNat + r.stats.spaces.toNat +
          r.stats.dropped.toNat + (failed + 0)
        omega
      · refine ⟨by rw [hstats]; exact htaken, ?_, by rw [hsize, hstats]; exact hspaces⟩
        rw [hstats, hanswer]
        show (r.stats.records + 1).toNat = r.stats.operations.toNat + r.stats.spaces.toNat +
          r.stats.dropped.toNat + (failed + 1)
        omega

/-- **Records** are counted, refused ones included. -/
theorem Balanced.after {fed failed : ℕ} (h : r.Balanced fed failed) (records : List Record)
    (hroom : fed + records.length < 2 ^ 64) :
    (r.after records).Balanced (fed + records.length) (failed + refusals (r.answers records)) := by
  induction records generalizing r fed failed with
  | nil => exact h
  | cons record rest ih =>
      rw [List.length_cons] at hroom ⊢
      rw [after_cons, answers, refusals_cons, ← Nat.add_assoc failed, Nat.add_comm rest.length,
        ← Nat.add_assoc fed]
      exact ih (h.apply record (by omega)) (by omega)

/-! ## Runs -/

/-- How a run of records can end. -/
inductive RunEnds (r : Replay) : List Record → Except RunError Unit × Replay → Prop where
  /-- Every record is accepted. -/
  | through (records : List Record) (accepted : ∀ answer ∈ r.answers records, answer = .ok ()) :
      RunEnds r records (.ok (), r.after records)
  /-- The first record that is refused is the last one that is applied. -/
  | stopped (first : List Record) (record : Record) (rest : List Record) (cause : ReplayError)
      (accepted : ∀ answer ∈ r.answers first, answer = .ok ())
      (refused : ((r.after first).apply record).1 = .error cause) :
      RunEnds r (first ++ record :: rest)
        (.error { record := first.length + 1, cause }, r.after (first ++ [record]))

/-- A run from some record on. -/
lemma runFrom_cases (r : Replay) (n : ℕ) (records : List Record) :
    (r.runFrom n records = (.ok (), r.after records) ∧
        ∀ answer ∈ r.answers records, answer = .ok ()) ∨
      ∃ first record rest cause, records = first ++ record :: rest ∧
        (∀ answer ∈ r.answers first, answer = .ok ()) ∧
        ((r.after first).apply record).1 = .error cause ∧
        r.runFrom n records =
          (.error { record := n + first.length, cause }, r.after (first ++ [record])) := by
  induction records generalizing r n with
  | nil => exact .inl ⟨rfl, nofun⟩
  | cons record rest ih =>
      rw [runFrom]
      cases hanswer : r.apply record with
      | mk answer next =>
          have hnext : next = (r.apply record).2 := by rw [hanswer]
          have hfirst : (r.apply record).1 = answer := by rw [hanswer]
          cases answer with
          | error cause =>
              refine .inr ⟨[], record, rest, cause, rfl, nofun, hfirst, ?_⟩
              rw [hnext]
              rfl
          | ok _ =>
              rcases ih next (n + 1) with ⟨hrun, haccepted⟩ |
                ⟨first, second, others, cause, rfl, haccepted, hrefused, hrun⟩
              · refine .inl ⟨?_, ?_⟩
                · rw [after_cons, ← hnext]
                  exact hrun
                · rw [answers, ← hnext, List.forall_mem_cons]
                  exact ⟨hfirst, haccepted⟩
              · refine .inr ⟨record :: first, second, others, cause, rfl, ?_, ?_, ?_⟩
                · rw [answers, ← hnext, List.forall_mem_cons]
                  exact ⟨hfirst, haccepted⟩
                · rw [after_cons, ← hnext]
                  exact hrefused
                · rw [List.cons_append, after_cons, ← hnext, List.length_cons]
                  dsimp only
                  rw [hrun, Nat.add_right_comm, Nat.add_assoc]

/-- **A run** ends at the first refusal. -/
theorem run_ends (r : Replay) (records : List Record) : r.RunEnds records (r.run records) := by
  rcases r.runFrom_cases 1 records with ⟨hrun, haccepted⟩ |
    ⟨first, record, rest, cause, rfl, haccepted, hrefused, hrun⟩
  · rw [run, hrun]
    exact .through records haccepted
  · rw [run, hrun, Nat.add_comm]
    exact .stopped first record rest cause haccepted hrefused

/-! ## All together -/

/-- What a record of any kind leaves in order. -/
structure Heeds (r : Replay) (record : Record) : Prop where
  /-- It does one of a few things, and it is counted. -/
  outcome : r.Outcome record (r.apply record)
  /-- An operation that is given to the tracker is on a space that is there, -/
  known : ∀ q id tag, record.reading? = some q → r.space? q.space = some id →
    r.ledger.knows (q.operation id tag).space = true
  /-- so it is not refused for want of the space. -/
  found : ∀ op id, (r.apply record).1 ≠ .error (.rejected op (.unknownSpace id))
  /-- A record of an unknown space changes nothing but its count, so it numbers no tag. -/
  unknown : ∀ q, record.reading? = some q → r.space? q.space = none →
    r.apply record = (.error (.unknownSpace q.space), r.takeUp)
  /-- A name of a tag keeps its number. -/
  tags : r.names.Within (r.apply record).2.names

/-- **A replay keeps its books.**  A replay of any configuration that starts from a table of any names
is fed any records, one by one, refused ones included.  Then names and numbers of spaces belong to
each other, and the ledger has the same names under the same numbers; every record is counted, and
once more as an operation, a space, a lost update or a refusal, and there are as many spaces as are
counted, and that of the process, as long as the records are less than `2 ^ 64`.  Whatever record comes next, its operation is on a known space, it numbers no tag if
it names an unknown one, and all tags stay.  A run of more records applies them in order, up to and
including the first that is refused, and none after it; the outermost wording of the refusal gives
its number, counted from one. -/
theorem books_kept (config : Config) (asked : List String) (records : List Record) :
    ((create config (.ofNames asked)).after records).Named ∧
    (records.length < 2 ^ 64 → ((create config (.ofNames asked)).after records).Balanced
      records.length (refusals ((create config (.ofNames asked)).answers records))) ∧
    (∀ record, ((create config (.ofNames asked)).after records).Heeds record) ∧
    (∀ more, ((create config (.ofNames asked)).after records).RunEnds more
      (((create config (.ofNames asked)).after records).run more)) ∧
    ∀ e : RunError, e.chain.head? = some ("trace record " ++ toString e.record) := by
  have hr := (sound_create config (TagNames.sound_ofNames asked)).after records
  refine ⟨hr.named, ?_, ?_, run_ends _, fun _ => rfl⟩
  · intro hfew
    have hbalanced := (balanced_create config (.ofNames asked)).after records (by omega)
    rwa [Nat.zero_add, Nat.zero_add] at hbalanced
  · intro record
    exact
      { outcome := apply_outcome _ record
        known := fun _ _ tag hq hid => hr.knows_operation hq hid tag
        found := hr.apply_ne_unknownSpace record
        unknown := fun _ hq hnone => apply_of_unknown hq hnone
        tags := hr.within_apply record }

end Replay

end RegionLedger
