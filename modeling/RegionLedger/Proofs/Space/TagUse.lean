import RegionLedger.Proofs.Region.Renumbering
import RegionLedger.Proofs.Space.Writes

/-!
# Tags that are not in use

An operation books memory under the tag that it names, and keeps or moves what was booked before.  So
a tag that no operation names is found at no byte and has no counters, with the exception of that of
untagged memory, which is left behind where memory is released.

* `Bytes.Lacks`, `Space.Lacks`, `Ledger.Lacks` — a tag that is not in use.
* `Operation.tag?` — the tag that an operation names.
* `Space.Lacks.act`, `Ledger.Lacks.apply`, `Ledger.Lacks.register` — a tag that is not named stays out
  of use.
-/

namespace RegionLedger

variable {t : Tag}

/-! ## Bytes -/

section Bytes

variable {μ : Type} [Metadata μ]

/-- No byte has the tag. -/
def Bytes.Lacks (t : Tag) (f : Bytes μ) : Prop := ∀ x, (f x).tag ≠ t

/-- The metadata of the mutation has another tag. -/
def Mutation.Spares (t : Tag) : Mutation μ → Prop
  | reserve _ _ data | commit _ _ data _ | uncommit _ _ data | assign _ _ _ data _ =>
      Metadata.tag data ≠ t
  | retag _ _ tag => tag ≠ t
  | release .. => True

lemma Bytes.Lacks.held_eq_zero {f : Bytes μ} (h : f.Lacks t) (c : Column) : f.held c t = 0 := by
  rw [held, Set.ncard_eq_zero, Set.eq_empty_iff_forall_notMem]
  intro x hx
  exact h x hx.1.symm

lemma Side.tag_released [Tagged μ] : (released : Side μ).tag = .untagged := Tagged.tag_empty

lemma Overwrite.tag_keep_ne {data : μ} {found : Side μ} (hdata : Metadata.tag data ≠ t)
    (hfound : found.tag ≠ t) (mode : Overwrite) : Metadata.tag (mode.keep data found) ≠ t := by
  cases mode with
  | replace => exact hdata
  | adopt =>
      rw [keep]
      split_ifs
      · exact hdata
      · rw [Metadata.tag_adopt]
        exact hfound

/-- **A mutation under another tag** does not bring the tag into use. -/
theorem Bytes.Lacks.write [Tagged μ] {f : Bytes μ} (h : f.Lacks t) (ht : t ≠ .untagged)
    {c : Mutation μ} (hc : c.Spares t) : Bytes.Lacks t (c.write f) := by
  have hreleased : (Side.released : Side μ).tag ≠ t := by
    rw [Side.tag_released]
    exact ht.symm
  intro x
  rw [Mutation.write]
  split_ifs
  · cases c with
    | reserve start size data => exact hc
    | commit start size data mode => exact mode.tag_keep_ne hc (h _)
    | uncommit start size data =>
        rw [Mutation.rewritten]
        split_ifs
        · exact (Metadata.tag_adopt data _).trans_ne (h x)
        · exact h x
    | release start size => exact hreleased
    | retag start size tag =>
        rw [Mutation.rewritten]
        split_ifs
        · exact h x
        · exact (Metadata.tag_withTag _ tag).trans_ne hc
    | assign first stop state data mode =>
        cases state with
        | released => exact hreleased
        | reserved | committed => exact mode.tag_keep_ne hc (h _)
  · exact h x

end Bytes

/-! ## Deltas and totals -/

/-- The deltas do not move the counters of the tag. -/
structure Deltas.Spares (t : Tag) (d : Deltas) : Prop where
  distinct : d.Distinct
  get : d.get t = {}

namespace Deltas.Spares

variable {d e : Deltas}

lemma of_amount (hd : d.Distinct) (h : ∀ c, d.amount c t = 0) : d.Spares t := by
  refine ⟨hd, ?_⟩
  exact get_eq_of_amount_eq (e := ∅) fun c => (h c).trans (amount_empty c t).symm

lemma plus {sum : Deltas} (h : d.Spares t) (h' : e.Spares t) (hsum : d.plus e = .ok sum) :
    sum.Spares t := by
  refine of_amount (h.distinct.plus hsum) ?_
  intro c
  rw [amount_of_plus h'.distinct hsum, amount, amount, h.get, h'.get]
  cases c <;> rfl

lemma commitOnly (h : d.Spares t) : d.commitOnly.Spares t := by
  refine of_amount (distinct_commitOnly h.distinct) ?_
  intro c
  rw [amount_commitOnly h.distinct, amount, h.get]
  cases c <;> rfl

end Deltas.Spares

/-- A change between bytes that all lack the tag does not book it. -/
lemma Deltas.Books.spares {μ : Type} [Metadata μ] [Tagged μ] {f g : Bytes μ} {d : Deltas}
    (hd : d.Books f g) (hf : Bytes.Lacks t f) (hg : Bytes.Lacks t g) : d.Spares t := by
  refine .of_amount hd.distinct ?_
  intro c
  rw [hd.amount, hg.held_eq_zero, hf.held_eq_zero]
  rfl

/-- **A mutation under another tag** leaves the tag out of use and does not book it. -/
lemma RegionMap.Represents.apply_spares {μ : Type} [Metadata μ] [Tagged μ] [DecidableEq μ]
    {m m' : RegionMap μ} (hm : m.Represents m.sideAt) (h : Bytes.Lacks t m.sideAt)
    (ht : t ≠ .untagged) {c : Mutation μ} (hc : c.Spares t) {d : Deltas}
    (hok : c.apply m = .ok (d, m')) : Bytes.Lacks t m'.sideAt ∧ d.Spares t := by
  obtain ⟨_, _, hsides, hbooks⟩ := hm.apply_writes hok
  have hlacks : Bytes.Lacks t m'.sideAt := hsides ▸ h.write ht hc
  exact ⟨hlacks, hbooks.spares h hlacks⟩

/-! ## Spaces -/

namespace Space

/-- No byte of the space has the tag, and it has no counters. -/
structure Lacks (t : Tag) (s : Space) : Prop where
  reserved : Bytes.Lacks t s.reserved.sideAt
  committed : ∀ m, s.committed = some m → Bytes.Lacks t m.sideAt
  sorted : s.totals.Sorted
  totals : s.totals.get t = {}

namespace Lacks

variable {s : Space}

lemma create (ht : t ≠ .untagged) (id : SpaceId) (name : String) (seed : UInt64) :
    Lacks t (.create id name seed) := by
  have hempty : ∀ {μ : Type} [Metadata μ] [Tagged μ] (draws : Draws),
      Bytes.Lacks t (RegionMap.empty draws : RegionMap μ).sideAt := by
    intro μ _ _ draws x
    exact Side.tag_released.trans_ne ht.symm
  refine ⟨hempty _, ?_, List.Pairwise.nil, rfl⟩
  intro m hm
  rw [Space.create] at hm
  dsimp only at hm
  split_ifs at hm
  obtain rfl := Option.some.inj hm
  exact hempty _

lemma account (h : s.Lacks t) {d : Deltas} (hd : d.Spares t) : (s.account d).Lacks t := by
  refine ⟨h.reserved, h.committed, h.sorted.apply hd.distinct, ?_⟩
  show (s.totals.apply d).get t = {}
  rw [Totals.get_apply h.sorted hd.distinct, hd.get]
  exact h.totals

lemma set_reserved (h : s.Lacks t) {m : RegionMap Placement} (hm : Bytes.Lacks t m.sideAt) :
    Lacks t { s with reserved := m } := ⟨hm, h.committed, h.sorted, h.totals⟩

lemma set_committed (h : s.Lacks t) {m : RegionMap Attribution} (hm : Bytes.Lacks t m.sideAt) :
    Lacks t { s with committed := some m } :=
  ⟨h.reserved, fun _ hm' => Option.some.inj hm' ▸ hm, h.sorted, h.totals⟩

/-! ### The forms of an operation -/

variable (ht : t ≠ .untagged)

include ht

lemma takeReserved (h : s.Lacks t) (hs : s.Maps) {c : Mutation Placement} (hc : c.Spares t) :
    (s.takeReserved (c.apply s.reserved)).2.Lacks t := by
  cases happly : c.apply s.reserved with
  | error e => exact h
  | ok answer =>
      obtain ⟨hm, hd⟩ := hs.reserved.apply_spares h.reserved ht hc happly
      exact (h.set_reserved hm).account hd

lemma takeCommitted (h : s.Lacks t) (hs : s.Maps) {m : RegionMap Attribution}
    (hcommitted : s.committed = some m) {c : Mutation Attribution} (hc : c.Spares t) :
    (s.takeCommitted (c.apply m)).2.Lacks t := by
  cases happly : c.apply m with
  | error e => exact h
  | ok answer =>
      obtain ⟨hm, hd⟩ :=
        (hs.committed m hcommitted).apply_spares (h.committed m hcommitted) ht hc happly
      exact (h.set_committed hm).account hd.commitOnly

lemma takeBoth (h : s.Lacks t) (hs : s.Maps) {c : Mutation Placement} (hc : c.Spares t)
    {k : Mutation Attribution} (hc' : k.Spares t) :
    (s.takeBoth (c.apply s.reserved) (k.apply ·)).2.Lacks t := by
  cases happly : c.apply s.reserved with
  | error e => exact h
  | ok answer =>
      obtain ⟨hm, hd⟩ := hs.reserved.apply_spares h.reserved ht hc happly
      have hset := h.set_reserved hm
      cases hcommitted : s.committed with
      | none =>
          rw [takeBoth_of_none hcommitted]
          exact hset.account hd
      | some m₁ =>
          cases happly' : k.apply m₁ with
          | error e =>
              rw [takeBoth_of_error hcommitted happly']
              exact hset
          | ok answer' =>
              obtain ⟨hm', hd'⟩ := (hs.committed m₁ hcommitted).apply_spares
                (h.committed m₁ hcommitted) ht hc' happly'
              cases hsum : answer.1.plus answer'.1.commitOnly with
              | error o =>
                  rw [takeBoth_of_overflow hcommitted happly' hsum]
                  exact hset.set_committed hm'
              | ok sum =>
                  rw [takeBoth_of_ok hcommitted happly' hsum]
                  exact (hset.set_committed hm').account (hd.plus hd'.commitOnly hsum)

lemma unmap (h : s.Lacks t) (hs : s.Maps) (target : SpaceId) (first last : Address) :
    (s.unmap target first last).2.Lacks t := by
  obtain ⟨_, _, m, _, _, hsides, _, hanswer⟩ := hs.unmap_cases target first last
  have hlacks : Bytes.Lacks t m.sideAt := by
    intro x
    rcases released_or_same hsides x with hx | hx
    · rw [hx]
      exact Side.tag_released.trans_ne ht.symm
    · rw [hx]
      exact h.reserved x
  rcases hanswer with ⟨d, _, hbooks, hunmap⟩ | ⟨e, hunmap, _⟩
  · rw [hunmap]
    exact (h.set_reserved hlacks).account (hbooks.spares h.reserved hlacks)
  · rw [hunmap]
    exact h.set_reserved hlacks

end Lacks

end Space

/-! ## Operations -/

/-- The tag that the operation names. -/
def Operation.tag? : Operation → Option Tag
  | reserve _ _ _ tag _ | commit _ _ _ tag _ | map _ _ _ _ tag _ | retag _ _ _ tag => some tag
  | uncommit .. | release .. | unmap .. => none

/-- **An operation under another tag.** -/
theorem Space.Lacks.act {s : Space} (h : s.Lacks t) (hs : s.Maps) (ht : t ≠ .untagged)
    {op : Operation} (hop : op.tag? ≠ some t) (ref : StackRef) : (op.act ref s).2.Lacks t := by
  cases op with
  | reserve id start size tag stack =>
      exact h.takeReserved ht hs (c := .reserve start size { stack := ref, tag })
        fun htag => hop (congrArg some htag)
  | map id base size offset tag stack =>
      exact h.takeReserved ht hs
        (c := .reserve base size { stack := ref, tag, mapping := some (.ofBase id base offset) })
        fun htag => hop (congrArg some htag)
  | commit id start size tag stack =>
      show (s.commit start size ref tag).2.Lacks t
      rw [Space.commit]
      cases hcommitted : s.committed with
      | none =>
          exact h.takeReserved ht hs (c := .commit start size { stack := ref, tag } .adopt)
            fun htag => hop (congrArg some htag)
      | some m =>
          exact h.takeCommitted ht hs hcommitted
            (c := .commit start size { stack := ref, tag } .replace)
            fun htag => hop (congrArg some htag)
  | uncommit id start size stack =>
      show (s.uncommit start size ref).2.Lacks t
      rw [Space.uncommit]
      cases hcommitted : s.committed with
      | none => exact h.takeReserved ht hs (c := .uncommit start size { stack := ref }) ht.symm
      | some m => exact h.takeCommitted ht hs hcommitted (c := .release start size) trivial
  | release id start size =>
      exact h.takeBoth ht hs (c := .release start size) trivial (k := .release start size) trivial
  | retag id start size tag =>
      exact h.takeBoth ht hs (c := .retag start size tag) (fun htag => hop (congrArg some htag))
        (k := .retag start size tag) fun htag => hop (congrArg some htag)
  | unmap id base size => exact h.unmap ht hs id base (base + size)

/-! ## Ledgers -/

namespace Ledger

/-- No space uses the tag. -/
def Lacks (t : Tag) (v : Ledger) : Prop := ∀ id s, v.space? id = some s → s.Lacks t

namespace Lacks

variable {v : Ledger} (ht : t ≠ .untagged)

include ht

lemma create (config : Config) : Lacks t (create config) := by
  intro id s hs
  have hmem : s ∈ (Ledger.create config).spaces := Array.mem_of_getElem? hs
  obtain rfl : s = .create .process processName config.seed := by
    simpa [Ledger.create] using hmem
  exact .create ht _ _ _

/-- **An operation under another tag.** -/
theorem apply (h : v.Lacks t) (hv : v.Charted) {op : Operation} (hop : op.tag? ≠ some t) :
    (v.apply op).2.Lacks t := by
  rcases Ledger.apply_cases hv.pos op with ⟨e, happly⟩ | ⟨ref, callStacks, s, _, hs, _, happly⟩
  · rwa [happly]
  · rw [happly]
    intro id s' hs'
    have hset := (space?_set hs (op.act ref s).2 id).symm.trans hs'
    split_ifs at hset
    · rw [← Option.some.inj hset]
      exact (h _ s hs).act (hv.maps _ s hs) ht hop ref
    · exact h id s' hset

/-- **A registration.** -/
theorem register (h : v.Lacks t) (name : String) : (v.step (.register name)).Lacks t := by
  intro id s hs
  rcases v.register_cases name with hstep | ⟨new, _, hspace, _⟩
  · rw [hstep] at hs
    exact h id s hs
  · rw [hspace] at hs
    split_ifs at hs
    · rw [← Option.some.inj hs]
      exact .create ht _ _ _
    · exact h id s hs

end Lacks

end Ledger

end RegionLedger
