import RegionLedger.Proofs.Space.Provenance

/-!
# What a commit of process memory keeps

A commit in the process should leave memory in use under its tag and with its mapping, and give the
tag of the operation to released memory only.  Which of the two applies is decided once, at the first
byte of the range, and what is decided there goes to the whole range.  So the commit does what it
should exactly if it should do the same to every byte of its range; a range that starts in a gap, or
runs over memory of several tags or mappings, is attributed anew.

* `Placement.attributes`, `Side.promised` — the tag and the mapping, as they are and as they should
  become.
* `Mutation.write_adopting_commit` — what a commit writes.
* `Ledger.commit_follows_first_byte` — a commit of process memory, after any run of calls.
-/

namespace RegionLedger

/-- The tag and the mapping of memory in use. -/
def Placement.attributes (d : Placement) : Tag × Option Mapping := (d.tag, d.mapping)

/-- The tag and the mapping that memory should have after it is committed under `tag`: memory in use
keeps its own. -/
def Side.promised (tag : Tag) (s : Side Placement) : Tag × Option Mapping :=
  if s.state = .released then (tag, none) else s.data.attributes

namespace Mutation

variable {f : Bytes Placement} {start x : Address} {size : UInt64} {data : Placement}

/-- **A commit writes what it promises to the first byte.** -/
lemma write_adopting_commit (hdata : data.mapping = none) (hx : InRange start size x) :
    ((commit start size data .adopt).write f x).state = .committed ∧
      ((commit start size data .adopt).write f x).data.attributes =
        (f start).promised data.tag := by
  have hin : (commit start size data .adopt).first ≤ x ∧
      x.toNat < (commit start size data .adopt).stop := hx
  rw [write, if_pos hin]
  refine ⟨rfl, ?_⟩
  show (Overwrite.adopt.keep data (f start)).attributes = _
  rw [Overwrite.keep, Side.promised]
  split_ifs
  · rw [Placement.attributes, hdata]
  · rfl

end Mutation

namespace Ledger

/-- **A commit of process memory goes by its first byte.**  Take any run of calls and a commit in the
process after it that is carried out.  Every byte of the range is committed, under the tag and with
the mapping that the first byte should get; no other byte changes, nor does any other space.  So
memory in use keeps its tag and its mapping, and released memory gets the given tag, exactly as long
as the range should get one tag and one mapping throughout. -/
theorem commit_follows_first_byte (config : Config) (calls : List LedgerCall) (start : Address)
    (size : UInt64) (tag : Tag) (stack : CallStack) (d : Deltas) (v' : Ledger)
    (h : ((create config).run calls).apply (.commit .process start size tag stack) = (.ok d, v')) :
    ∃ s s', ((create config).run calls).space? .process = some s ∧ v'.space? .process = some s' ∧
      (∀ x, InRange start size x → (s'.reserved.sideAt x).state = .committed ∧
        (s'.reserved.sideAt x).data.attributes = (s.reserved.sideAt start).promised tag) ∧
      (∀ x, ¬ InRange start size x → s'.reserved.sideAt x = s.reserved.sideAt x) ∧
      (∀ id, id ≠ .process → v'.space? id = ((create config).run calls).space? id) ∧
      ((∀ x, InRange start size x →
          (s'.reserved.sideAt x).data.attributes = (s.reserved.sideAt x).promised tag) ↔
        ∀ x, InRange start size x →
          (s.reserved.sideAt x).promised tag = (s.reserved.sideAt start).promised tag) := by
  have hv := charted_run config calls
  obtain ⟨ref, s, s', hop, hact, hs, hs', helsewhere⟩ := acts_of_apply_ok hv.pos h
  have hcommitted : s.committed = none := (hv.kind _ s hs).mpr rfl
  have hyields := (hv.maps _ s hs).act_yields hop ref
  rw [hact] at hyields
  cases hyields with
  | done _ _ _ _ hsides _ =>
      rw [hcommitted] at hsides
      have hsides : s'.reserved.sideAt =
          (Mutation.commit start size { stack := ref, tag } .adopt).write s.reserved.sideAt := hsides
      have hin : ∀ x, InRange start size x → (s'.reserved.sideAt x).state = .committed ∧
          (s'.reserved.sideAt x).data.attributes = (s.reserved.sideAt start).promised tag := by
        intro x hx
        rw [hsides]
        exact Mutation.write_adopting_commit rfl hx
      refine ⟨s, s', hs, hs', hin, ?_, helsewhere, ?_⟩
      · intro x hx
        rw [hsides]
        exact if_neg hx
      · refine forall_congr' fun x => forall_congr' fun hx => ?_
        rw [(hin x hx).2]
        exact eq_comm

/-- A range mapped onto a device, with a reservation behind it and a gap in front of it. -/
def neighbourCalls : List LedgerCall :=
  [.register "device", .operation (.map ⟨1⟩ 0x2000 0x1000 0x8000 ⟨1⟩ ⟨[0xa1]⟩),
    .operation (.reserve .process 0x3000 0x1000 ⟨2⟩ ⟨[0xb2]⟩)]

/-- Within the mapped range a commit keeps the tag and the mapping. -/
theorem neighbour_commit_kept : ∃ d v' s',
    ((create {}).run neighbourCalls).apply
        (.commit .process 0x2800 0x800 ⟨3⟩ ⟨[0xc3]⟩) = (.ok d, v') ∧
      v'.space? .process = some s' ∧ ∀ x, InRange 0x2800 0x800 x →
        (s'.reserved.sideAt x).state = .committed ∧
          (s'.reserved.sideAt x).data.attributes = (⟨1⟩, some ⟨⟨1⟩, 0x6000⟩) := by
  have hok : (((create {}).run neighbourCalls).apply
      (.commit .process 0x2800 0x800 ⟨3⟩ ⟨[0xc3]⟩)).1.toOption.isSome = true := by decide +kernel
  obtain ⟨d, happly⟩ := exists_apply_eq_ok hok
  obtain ⟨s, s', hs, hs', hin, _⟩ := commit_follows_first_byte {} neighbourCalls _ _ _ _ d _ happly
  have hfirst : (((create {}).run neighbourCalls).space? .process).map
      (fun s => (s.reserved.sideAt 0x2800).promised ⟨3⟩) = some (⟨1⟩, some ⟨⟨1⟩, 0x6000⟩) := by
    decide +kernel
  rw [hs, Option.map_some, Option.some.injEq] at hfirst
  rw [hfirst] at hin
  exact ⟨d, _, s', happly, hs', hin⟩

/-- A commit that starts in the gap takes the tags and the mapping from the memory behind it. -/
theorem gap_commit_reattributes : ∃ d v',
    ((create {}).run neighbourCalls).apply
        (.commit .process 0x1000 0x3000 ⟨3⟩ ⟨[0xc3]⟩) = (.ok d, v') ∧
      (((create {}).run neighbourCalls).space? .process).map (fun s =>
          [0x2000, 0x3000].map fun x =>
            ((s.reserved.sideAt x).state, (s.reserved.sideAt x).data.attributes)) =
        some [(.reserved, ⟨1⟩, some ⟨⟨1⟩, 0x6000⟩), (.reserved, ⟨2⟩, none)] ∧
      (v'.space? .process).map (fun s =>
          [0x2000, 0x3000].map fun x =>
            ((s.reserved.sideAt x).state, (s.reserved.sideAt x).data.attributes)) =
        some [(.committed, ⟨3⟩, none), (.committed, ⟨3⟩, none)] := by
  have hok : (((create {}).run neighbourCalls).apply
      (.commit .process 0x1000 0x3000 ⟨3⟩ ⟨[0xc3]⟩)).1.toOption.isSome = true := by decide +kernel
  obtain ⟨d, happly⟩ := exists_apply_eq_ok hok
  exact ⟨d, _, happly, by decide +kernel, by decide +kernel⟩

end Ledger

end RegionLedger
