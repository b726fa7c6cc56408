import Mathlib.Logic.Equiv.Fintype
import Mathlib.Data.Fintype.EquivFin
import RegionLedger.Proofs.Accounting.Renumbering
import RegionLedger.Tag.Names

/-!
# Tables of tag names

A table gives every name one tag and every tag one name, and goes on doing so when names are added:
they get new tags and the old ones stay.  Two tables that number names in different orders can be
carried over into each other for the names that both of them have.

* `TagNames.Sound` — names and tags belong to each other.
* `TagNames.Within` — a table that has names of another, under the same tags.
* `TagNames.Sound.intern_cases` — what becomes of a name.
* `TagNames.ofNames` — the table that has been asked for some names.
* `TagNames.Sound.exists_matches` — the other tags that carry one table over into another.
-/

namespace RegionLedger

namespace TagNames

/-- Every name has a tag of its own, and every tag below the number of names has a name. -/
structure Sound (t : TagNames) : Prop where
  size_le : t.size ≤ UInt16.size
  tag?_eq_some_iff : ∀ name tag, t.tag? name = some tag ↔ t.name? tag = some name
  untagged : t.tag? untaggedName = some .untagged

/-- Every name of the one table has the same tag in the other. -/
def Within (t u : TagNames) : Prop := ∀ name tag, t.tag? name = some tag → u.tag? name = some tag

variable {t u : TagNames}

lemma Within.refl (t : TagNames) : t.Within t := fun _ _ h => h

lemma Within.trans (h : t.Within u) {v : TagNames} (h' : u.Within v) : t.Within v :=
  fun name tag htag => h' name tag (h name tag htag)

namespace Sound

lemma injective (ht : t.Sound) {name name' : String} {tag : Tag} (h : t.tag? name = some tag)
    (h' : t.tag? name' = some tag) : name = name' := by
  rw [ht.tag?_eq_some_iff] at h h'
  exact Option.some.inj (h.symm.trans h')

lemma initial : initial.Sound := by
  have htag : ∀ name, TagNames.initial.tag? name =
      if untaggedName = name then some .untagged else none := by
    intro name
    rw [tag?, TagNames.initial, Std.TreeMap.getElem?_insert]
    simp only [Std.LawfulEqCmp.compare_eq_iff_eq]
    rfl
  refine ⟨by decide, ?_, by rw [htag, if_pos rfl]⟩
  intro name tag
  have hname : TagNames.initial.name? tag = some name ↔ tag = .untagged ∧ untaggedName = name := by
    rw [name?, TagNames.initial, Array.getElem?_eq_some_iff]
    constructor
    · rintro ⟨hlt, hget⟩
      have hzero : tag.raw.toNat = 0 := Nat.lt_one_iff.mp hlt
      refine ⟨congrArg Tag.mk (UInt16.toNat_inj.mp hzero), ?_⟩
      simpa [hzero] using hget
    · rintro ⟨rfl, rfl⟩
      exact ⟨Nat.one_pos, rfl⟩
  rw [hname, htag]
  split_ifs with h
  · simp [h, eq_comm]
  · simp [h]

end Sound

/-! ## New names -/

/-- The tag that a new name gets. -/
def next (t : TagNames) : Tag := ⟨UInt16.ofNat t.names.size⟩

/-- The table with a new name. -/
def add (t : TagNames) (name : String) : TagNames where
  names := t.names.push name
  tags := t.tags.insert name t.next

variable {name : String} {tag : Tag}

lemma intern_of_tag? (h : t.tag? name = some tag) : t.intern name = (.ok tag, t) := by
  rw [tag?] at h
  rw [intern, h]

lemma intern_of_room (h : t.tag? name = none) (hroom : t.names.size < UInt16.size) :
    t.intern name = (.ok t.next, t.add name) := by
  rw [tag?] at h
  rw [intern, h]
  exact if_pos hroom

lemma intern_of_full (h : t.tag? name = none) (hfull : ¬ t.names.size < UInt16.size) :
    t.intern name = (.error (.exhausted name), t) := by
  rw [tag?] at h
  rw [intern, h]
  exact if_neg hfull

lemma tag?_add (t : TagNames) (name other : String) :
    (t.add name).tag? other = if name = other then some t.next else t.tag? other := by
  rw [tag?, add, Std.TreeMap.getElem?_insert]
  simp only [Std.LawfulEqCmp.compare_eq_iff_eq]
  rfl

lemma name?_add (hroom : t.names.size < UInt16.size) (name : String) (tag : Tag) :
    (t.add name).name? tag = if tag = t.next then some name else t.name? tag := by
  have hnext : tag.raw.toNat = t.names.size ↔ tag = t.next := by
    have hraw : t.next.raw.toNat = t.names.size := UInt16.toNat_ofNat_of_lt' hroom
    rw [← hraw, UInt16.toNat_inj, ← Tag.mk.injEq]
  rw [name?, add, Array.getElem?_push]
  exact if_congr hnext rfl rfl

lemma name?_next (hroom : t.names.size < UInt16.size) : t.name? t.next = none := by
  have hraw : t.next.raw.toNat = t.names.size := UInt16.toNat_ofNat_of_lt' hroom
  rw [name?, hraw]
  exact Array.getElem?_eq_none (le_refl _)

/-- **A new name** gets a tag that no name has. -/
theorem Sound.add (ht : t.Sound) (hnew : t.tag? name = none)
    (hroom : t.names.size < UInt16.size) : (t.add name).Sound ∧ t.Within (t.add name) := by
  have hother : ∀ {other tag}, t.tag? other = some tag → name ≠ other := by
    rintro other tag h rfl
    rw [hnew] at h
    cases h
  refine ⟨⟨?_, ?_, ?_⟩, ?_⟩
  · rw [size, TagNames.add, Array.size_push]
    exact hroom
  · intro other tag
    rw [tag?_add, name?_add hroom]
    split_ifs with hname htag htag
    · simp only [hname, htag]
    · have hnone : t.name? tag ≠ some other := by
        rw [Ne, ← ht.tag?_eq_some_iff]
        exact fun h => hother h hname
      simp only [Option.some.injEq, hnone, iff_false]
      exact fun h => htag h.symm
    · have hnone : t.tag? other ≠ some tag := by
        rw [Ne, ht.tag?_eq_some_iff, htag, name?_next hroom]
        exact (Option.some_ne_none other).symm
      simp only [Option.some.injEq, hnone, hname]
    · exact ht.tag?_eq_some_iff other tag
  · rw [tag?_add, if_neg (hother ht.untagged)]
    exact ht.untagged
  · intro other tag h
    rw [tag?_add, if_neg (hother h)]
    exact h

/-- **What becomes of a name.**  It gets a tag and keeps it, or all tags are taken and nothing
changes. -/
theorem Sound.intern_cases (ht : t.Sound) (name : String) :
    (∃ tag u, t.intern name = (.ok tag, u) ∧ u.Sound ∧ t.Within u ∧ u.tag? name = some tag) ∨
      t.intern name = (.error (.exhausted name), t) := by
  cases hname : t.tag? name with
  | some tag => exact .inl ⟨tag, t, intern_of_tag? hname, ht, .refl t, hname⟩
  | none =>
      by_cases hroom : t.names.size < UInt16.size
      · obtain ⟨hsound, hwithin⟩ := ht.add hname hroom
        refine .inl ⟨_, _, intern_of_room hname hroom, hsound, hwithin, ?_⟩
        rw [tag?_add, if_pos rfl]
      · exact .inr (intern_of_full hname hroom)

/-- The table that has been asked for some names, one after the other. -/
def ofNames (names : List String) : TagNames := names.foldl (fun t name => (t.intern name).2) .initial

lemma sound_ofNames (names : List String) : (ofNames names).Sound := by
  rw [ofNames]
  generalize hstart : TagNames.initial = start
  have hsound : start.Sound := hstart ▸ .initial
  clear hstart
  induction names generalizing start with
  | nil => exact hsound
  | cons name rest ih =>
      rw [List.foldl_cons]
      refine ih _ ?_
      rcases hsound.intern_cases name with ⟨tag, u, hintern, hu, _⟩ | hintern
      · rwa [hintern]
      · rwa [hintern]

/-! ## One table and another -/

/-- The other tags carry the one table over into the other, as far as both have a name. -/
def Matches (π : Renumbering) (t u : TagNames) : Prop :=
  ∀ name tag tag', t.tag? name = some tag → u.tag? name = some tag' → π tag = tag'

instance : Finite Tag := Finite.of_injective (fun t : Tag => t.raw.toBitVec.toFin) fun s t h => by
  have hraw : s.raw = t.raw := UInt16.toBitVec_inj.mp (BitVec.toFin_inj.mp h)
  exact congrArg Tag.mk hraw

/-- **Tables can be carried over into each other.** -/
theorem Sound.exists_matches (ht : t.Sound) (hu : u.Sound) : ∃ π, Matches π t u := by
  let Common := { name : String // (t.tag? name).isSome ∧ (u.tag? name).isSome }
  let here : Common → Tag := fun name => (t.tag? name.1).get name.2.1
  let there : Common → Tag := fun name => (u.tag? name.1).get name.2.2
  have hhere : ∀ name, t.tag? name.1 = some (here name) := fun name => (Option.some_get _).symm
  have hthere : ∀ name, u.tag? name.1 = some (there name) := fun name => (Option.some_get _).symm
  have hinj : Function.Injective here := by
    intro name name' h
    exact Subtype.ext (ht.injective (hhere name) (h ▸ hhere name'))
  have hinj' : Function.Injective there := by
    intro name name' h
    exact Subtype.ext (hu.injective (hthere name) (h ▸ hthere name'))
  have hfinite : Finite Common := Finite.of_injective here hinj
  obtain ⟨σ, hσ⟩ := Equiv.Perm.exists_extending_pair here there hinj hinj'
  have hmatch : ∀ name tag tag', t.tag? name = some tag → u.tag? name = some tag' → σ tag = tag' := by
    intro name tag tag' h h'
    have hname := hσ ⟨name, by rw [h]; rfl, by rw [h']; rfl⟩
    have htag := (hhere ⟨name, by rw [h]; rfl, by rw [h']; rfl⟩).symm.trans h
    have htag' := (hthere ⟨name, by rw [h]; rfl, by rw [h']; rfl⟩).symm.trans h'
    rwa [Option.some.inj htag, Option.some.inj htag'] at hname
  exact ⟨⟨σ, σ.injective, hmatch _ _ _ ht.untagged hu.untagged⟩, hmatch⟩

end TagNames

end RegionLedger
