import RegionLedger.Proofs.Region.Accounting

/-!
# A mutation carried out again

A mutation carried out twice in a row is carried out once: it finds the bytes as it has left them, and
what it would write is there.  The second time it finds room, since the ends of its range had room
before.  So it succeeds, moves nothing, and leaves the same boundaries.

* `Mutation.rewritten_again`, `Mutation.write_again` — the bytes.
* `RegionMap.Represents.assign_again`, `RegionMap.Represents.assignEach_nil` — the room.
* `Deltas.isZero_of_amount` — deltas without an amount.
* `RegionMap.Represents.apply_again` — the mutation.
-/

namespace RegionLedger

/-! ## Deltas without an amount -/

namespace Deltas

variable {d e : Deltas}

/-- Deltas that have no amount for any tag are zero. -/
lemma isZero_of_amount (hd : d.Distinct) (h : ∀ c t, d.amount c t = 0) : d.isZero = true := by
  rw [isZero, List.all_eq_true]
  rintro ⟨t, delta⟩ hmem
  by_contra hzero
  have hget : d.get t = delta := (mem_iff_lookup hd (Bool.not_eq_true _ ▸ hzero)).mp hmem
  have hnone : d.get t = (∅ : Deltas).get t := by
    refine get_eq_of_amount_eq ?_
    intro c
    rw [h, amount_empty]
  rw [hnone] at hget
  exact hzero (hget ▸ rfl)

/-- Zero deltas list no tag. -/
lemma toList_of_isZero (h : d.isZero = true) : d.toList = [] := by
  have hnone : d.entries.filter (fun p => !p.2.isZero) = [] := by
    rw [List.filter_eq_nil_iff]
    intro p hp
    have hp := List.all_eq_true.mp h p hp
    simpa using hp
  rw [toList, hnone]
  rfl

end Deltas

variable {μ : Type} [Metadata μ]

/-! ## Bytes -/

/-- What was kept once is kept again. -/
lemma Overwrite.keep_again (mode : Overwrite) (data : μ) (found : Side μ) {state : State}
    (hstate : state ≠ .released) :
    mode.keep data { state, data := mode.keep data found } = mode.keep data found := by
  cases mode with
  | replace => rfl
  | adopt =>
      simp only [Overwrite.keep, if_neg hstate]
      split_ifs
      · exact Metadata.adopt_self data
      · exact Metadata.adopt_adopt data found.data

namespace Mutation

/-- **A side that was rewritten is rewritten to itself**, also where it is the first of the range. -/
lemma rewritten_again (c : Mutation μ) (found here : Side μ) :
    c.rewritten (c.rewritten found found) (c.rewritten found here) = c.rewritten found here := by
  cases c with
  | reserve | release => rfl
  | commit start size data mode =>
      exact congrArg (Side.mk .committed) (mode.keep_again data found State.noConfusion)
  | uncommit start size data =>
      simp only [rewritten]
      split_ifs <;> simp_all
  | retag start size tag =>
      have htag : ∀ d : μ, Metadata.withTag (Metadata.withTag d tag) tag = Metadata.withTag d tag := by
        intro d
        have h := Metadata.withTag_tag (Metadata.withTag d tag)
        rwa [Metadata.tag_withTag] at h
      simp only [rewritten]
      split_ifs <;> simp_all
  | assign a b state data mode =>
      cases state with
      | released => rfl
      | reserved => exact congrArg (Side.mk .reserved) (mode.keep_again data found State.noConfusion)
      | committed => exact congrArg (Side.mk .committed) (mode.keep_again data found State.noConfusion)

/-- **Bytes that were written are written to themselves.** -/
lemma write_again {c : Mutation μ} (hc : c.Valid) (f : Bytes μ) : c.write (c.write f) = c.write f := by
  have hfirst : c.write f c.first = c.rewritten (f c.first) (f c.first) :=
    if_pos ⟨UInt64.le_refl _, hc.1⟩
  funext x
  conv_lhs => rw [write]
  split_ifs with hx
  · have hbyte : c.write f x = c.rewritten (f c.first) (f x) := if_pos hx
    rw [hfirst, hbyte, rewritten_again]
  · rfl

end Mutation

/-! ## Room -/

namespace RegionMap

variable {m m' : RegionMap μ} {f : Bytes μ} {a b : Address} {d : Deltas}

/-- The boundaries stored never outnumber the slots. -/
lemma Represents.size_le (h : m.Represents f) : m.size ≤ Slots.limit := h.wellFormed.size_le

/-- The runs of a range of which none has a selected byte. -/
lemma Represents.filter_segments_eq_nil (h : m.Represents f) (hab : a < b) {selects : Side μ → Bool}
    (hnone : ∀ x, a ≤ x → x < b → selects (f x) = false) :
    (m.segments a b).filter (fun r => selects r.side) = [] := by
  have htiles := h.tiles_segments hab
  rw [List.filter_eq_nil_iff]
  intro r hr hselect
  obtain ⟨⟨hstart, hlt, hstop⟩, hsame, -⟩ := htiles.mem hr
  have hbyte := hnone r.start hstart (by grind)
  rw [hsame r.start (UInt64.le_refl _) hlt, hselect] at hbyte
  cases hbyte

/-- What has been selected is not selected again. -/
lemma selects_again {c : Mutation μ} {selects : Side μ → Bool}
    {choose : Side μ → State × μ × Overwrite} (hc : c.effect = .parts selects choose)
    (found here : Side μ) : selects (c.rewritten found here) = false := by
  cases c with
  | uncommit start size data =>
      obtain ⟨rfl, rfl⟩ := Effect.parts.inj hc
      obtain ⟨state, old⟩ := here
      cases state <;> rfl
  | retag start size tag =>
      obtain ⟨rfl, rfl⟩ := Effect.parts.inj hc
      obtain ⟨state, old⟩ := here
      cases state <;> simp [Mutation.rewritten, State.isReserved, Side.tag, Metadata.tag_withTag]
  | reserve | commit | release | assign => cases hc

variable [DecidableEq μ]

/-- **Where an assignment found room, its ends still have room.** -/
lemma Represents.assign_again (h : m.Represents f) {state : State} {data : μ} {mode : Overwrite}
    (hok : m.assign a b state data mode = .ok (d, m')) :
    ∃ d' m'', m'.assign a b state data mode = .ok (d', m'') := by
  obtain ⟨hab, hlen, -, h'⟩ := h.of_assign_eq_ok state data mode hok
  have hnodup : [a, b].Nodup := by simp; grind
  have hroom : m.size + m.missing [a, b] ≤ Slots.limit := by
    by_contra hfull
    rw [h.assign_full state data mode hab hlen (by omega)] at hok
    cases hok
  have hkeys : m'.keys ∪ [a, b].toFinset ⊆ m.keys ∪ [a, b].toFinset := by
    refine Finset.union_subset ?_ Finset.subset_union_right
    simpa using h.keys_subset h' hab
  rw [size_add_missing h.wellFormed hnodup] at hroom
  obtain ⟨m'', hassign, -⟩ := h'.assign_ok state data mode hab hlen <| by
    rw [size_add_missing h'.wellFormed hnodup]
    exact (Finset.card_le_card hkeys).trans hroom
  exact ⟨_, m'', hassign⟩

/-- Without runs there is always room, and nothing to assign. -/
lemma Represents.assignEach_nil (h : m.Represents f) (choose : Side μ → State × μ × Overwrite) :
    m.assignEach [] choose = .ok (∅, m) := by
  have hnone : m.missing (ends ([] : List (Run μ))) = 0 := rfl
  rw [assignEach_eq, hnone, room_eq h.wellFormed, Nat.add_zero, if_pos h.size_le]
  rfl

/-! ## The mutation -/

/-- **A mutation carried out again** succeeds, writes what is there and moves nothing. -/
theorem Represents.apply_again (h : m.Represents f) {c : Mutation μ}
    (hok : c.apply m = .ok (d, m')) :
    ∃ d' m'', c.apply m' = .ok (d', m'') ∧ m''.Represents m'.sideAt ∧ d'.Distinct ∧
      ∀ col t, d'.amount col t = 0 := by
  obtain ⟨hvalid, h', hsides, -⟩ := h.apply_writes hok
  obtain ⟨b, hb, hab, hlen⟩ := hvalid.exists_stop
  obtain ⟨d', m'', hok'⟩ : ∃ d' m'', c.apply m' = .ok (d', m'') := by
    rw [Mutation.apply_valid hvalid m hb] at hok
    rw [Mutation.apply_valid hvalid m' hb]
    cases heffect : c.effect with
    | whole state data mode =>
        rw [heffect] at hok
        exact h.assign_again hok
    | parts selects choose =>
        refine ⟨∅, m', ?_⟩
        rw [Effect.on, h'.filter_segments_eq_nil hab, h'.assignEach_nil]
        intro x hx hxb
        rw [hsides, Mutation.write, if_pos ⟨hx, by rw [← hb]; exact UInt64.lt_iff_toNat_lt.mp hxb⟩]
        exact selects_again heffect _ _
  obtain ⟨-, h'', hsides', hbooks⟩ := h'.apply_writes hok'
  have hsame : m''.sideAt = m'.sideAt := by
    rw [hsides', hsides, Mutation.write_again hvalid]
  rw [hsame] at h'' hbooks
  refine ⟨d', m'', hok', h'', hbooks.distinct, ?_⟩
  intro col t
  rw [hbooks.amount, Int.sub_self]

end RegionMap

end RegionLedger
