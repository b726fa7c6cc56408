import RegionLedger.Proofs.Space.Moves

/-!
# Two operations on one space change places

Operations on ranges of a space without a common byte can be carried out in either order.  Each gets
the same answer before the other and after it, since it finds the same in its range, and the bytes
are the same in the end.  What the ranges have in common is only how they are stored: neighbouring
runs that grow together or come apart, and those boundaries are determined by the bytes.

* `Operation.reservedAfter`, `Operation.committedAfter` — the bytes after an operation, refused or
  not.
* `Space.AgreeOn`, `Space.Moves.answer_eq` — an answer depends on the bytes of the range.
* `Space.SameBytes`, `Space.Maps.exchange` — both orders.
-/

namespace RegionLedger

namespace Operation

instance (op : Operation) : Decidable op.RangeValid := inferInstanceAs (Decidable (_ ∧ _ ∧ _))

/-- The reservations after the operation, which is refused if its range is not valid. -/
def reservedAfter (op : Operation) (ref : StackRef) (apart : Bool) (f : Bytes Placement) :
    Bytes Placement := if op.RangeValid then op.reservedWrite ref apart f else f

/-- The commits after the operation, in a space that keeps them apart. -/
def committedAfter (op : Operation) (ref : StackRef) (f : Bytes Attribution) : Bytes Attribution :=
  if op.RangeValid then op.committedWrite ref f else f

variable {op : Operation}

lemma confined_reservedAfter (hop : op.Checked) (ref : StackRef) (apart : Bool) :
    Bytes.Confined (op.reservedAfter ref apart) op.Covers := by
  by_cases hvalid : op.RangeValid
  · rw [show op.reservedAfter ref apart = op.reservedWrite ref apart from
      funext fun f => if_pos hvalid]
    exact confined_reservedWrite hop ref apart
  · rw [show op.reservedAfter ref apart = fun f => f from funext fun f => if_neg hvalid]
    exact .id _

lemma confined_committedAfter (op : Operation) (ref : StackRef) :
    Bytes.Confined (op.committedAfter ref) op.Covers := by
  by_cases hvalid : op.RangeValid
  · rw [show op.committedAfter ref = op.committedWrite ref from funext fun f => if_pos hvalid]
    exact confined_committedWrite op ref
  · rw [show op.committedAfter ref = fun f => f from funext fun f => if_neg hvalid]
    exact .id _

end Operation

namespace Space

variable {s t : Space} {op : Operation} {ref : StackRef} {R : Address → Prop}
  {p q : Except RegionError Deltas × Space}

/-! ## The space after an operation -/

namespace Moves

lemma maps (h : s.Moves op ref p) (hs : s.Maps) : p.2.Maps := by
  cases h with
  | refused invalid => exact hs
  | done d s' valid maps => exact maps

lemma name_eq (h : s.Moves op ref p) : p.2.name = s.name := by
  cases h with
  | refused invalid => rfl
  | done d s' valid maps name => exact name

lemma isSome_eq (h : s.Moves op ref p) : p.2.committed.isSome = s.committed.isSome := by
  cases h with
  | refused invalid => rfl
  | done d s' valid maps name kind => exact kind

lemma committed_eq_none_iff (h : s.Moves op ref p) :
    p.2.committed = none ↔ s.committed = none := by
  rw [← Option.not_isSome_iff_eq_none, h.isSome_eq, Option.not_isSome_iff_eq_none]

lemma reserved_eq (h : s.Moves op ref p) : p.2.reserved.sideAt =
    op.reservedAfter ref s.committed.isSome s.reserved.sideAt := by
  cases h with
  | refused invalid => exact (if_neg invalid).symm
  | done d s' valid maps name kind reserved => exact reserved.trans (if_pos valid).symm

lemma committed_cases (h : s.Moves op ref p) :
    (s.committed = none ∧ p.2.committed = none) ∨ ∃ m m', s.committed = some m ∧
      p.2.committed = some m' ∧ m'.sideAt = op.committedAfter ref m.sideAt := by
  cases hnone : s.committed with
  | none => exact .inl ⟨rfl, h.committed_eq_none_iff.mpr hnone⟩
  | some m =>
      refine .inr ?_
      cases h with
      | refused invalid => exact ⟨m, m, rfl, hnone, (if_neg invalid).symm⟩
      | done d s' valid maps name kind reserved committed =>
          rw [hnone, Option.isSome_some] at kind
          obtain ⟨m', hm'⟩ := Option.isSome_iff_exists.mp kind
          obtain ⟨m₁, hm₁, hsides⟩ := committed m' hm'
          obtain rfl := Option.some.inj (hnone.symm.trans hm₁)
          exact ⟨m, m', rfl, hm', hsides.trans (if_pos valid).symm⟩

end Moves

/-! ## What an answer depends on -/

/-- Two spaces of one kind have the same sides at some addresses. -/
structure AgreeOn (R : Address → Prop) (s t : Space) : Prop where
  reserved : ∀ x, R x → s.reserved.sideAt x = t.reserved.sideAt x
  committed : (s.committed = none ∧ t.committed = none) ∨ ∃ m n, s.committed = some m ∧
    t.committed = some n ∧ ∀ x, R x → m.sideAt x = n.sideAt x

/-- An operation leaves the bytes out of its range. -/
lemma Moves.agreeOn (h : s.Moves op ref p) (hop : op.Checked) (hR : ∀ x, R x → ¬ op.Covers x) :
    AgreeOn R s p.2 := by
  refine ⟨?_, ?_⟩
  · intro x hx
    rw [h.reserved_eq]
    exact ((Operation.confined_reservedAfter hop ref _).outside _ x (hR x hx)).symm
  · refine h.committed_cases.imp_right ?_
    rintro ⟨m, m', hm, hm', hsides⟩
    refine ⟨m, m', hm, hm', ?_⟩
    intro x hx
    rw [hsides]
    exact ((Operation.confined_committedAfter op ref).outside _ x (hR x hx)).symm

/-- **An operation moves the same bytes** in spaces that agree on its range. -/
lemma Moves.bytes_sub (h : s.Moves op ref p) (h' : t.Moves op ref q) (hop : op.Checked)
    (hst : AgreeOn op.Covers s t) (c : Column) (tag : Tag) :
    (p.2.bytes c tag : ℤ) - s.bytes c tag = (q.2.bytes c tag : ℤ) - t.bytes c tag := by
  have hkind : s.committed.isSome = t.committed.isSome := by
    rcases hst.committed with ⟨hs, ht⟩ | ⟨m, n, hs, ht, _⟩
    · rw [hs, ht]
    · rw [hs, ht]
      rfl
  have hreserved : ∀ col, ((Bytes.held p.2.reserved.sideAt col tag : ℕ) : ℤ) -
      Bytes.held s.reserved.sideAt col tag =
        ((Bytes.held q.2.reserved.sideAt col tag : ℕ) : ℤ) -
          Bytes.held t.reserved.sideAt col tag := by
    intro col
    rw [h.reserved_eq, h'.reserved_eq, ← hkind]
    exact (Operation.confined_reservedAfter hop ref _).held_sub hst.reserved col tag
  rcases h.committed_cases with ⟨hs, hp⟩ | ⟨m, m', hs, hp, hsides⟩
  · have ht : t.committed = none := by
      rw [hs, Option.isSome_none] at hkind
      exact Option.not_isSome_iff_eq_none.mp (by rw [← hkind]; exact Bool.false_ne_true)
    simp only [bytes, hs, hp, ht, h'.committed_eq_none_iff.mpr ht]
    exact hreserved c
  · rcases hst.committed with ⟨hs', _⟩ | ⟨m₁, n, hs', ht, hagree⟩
    · rw [hs] at hs'
      cases hs'
    · obtain rfl := Option.some.inj (hs.symm.trans hs')
      rcases h'.committed_cases with ⟨ht', _⟩ | ⟨n₁, n', ht', hq, hsides'⟩
      · rw [ht] at ht'
        cases ht'
      · obtain rfl := Option.some.inj (ht.symm.trans ht')
        cases c with
        | reserved => exact hreserved .reserved
        | committed =>
            simp only [bytes, hs, hp, ht, hq, hsides, hsides']
            exact (Operation.confined_committedAfter op ref).held_sub hagree .committed tag

/-- **An answer depends on the bytes of the range** and on nothing else. -/
theorem Moves.answer_eq (h : s.Moves op ref p) (h' : t.Moves op ref q) (hop : op.Checked)
    (hst : AgreeOn op.Covers s t) : p.1.map Deltas.toList = q.1.map Deltas.toList := by
  have hmoved := h.bytes_sub h' hop hst
  cases h with
  | refused invalid =>
      cases h' with
      | refused => rfl
      | done d t' valid => exact absurd valid invalid
  | done d s' valid maps name kind reserved committed change totals =>
      cases h' with
      | refused invalid => exact absurd valid invalid
      | done e t' _ maps' name' kind' reserved' committed' change' totals' =>
          have hagree : Deltas.Agree d e := by
            refine ⟨change.distinct, change'.distinct, ?_⟩
            intro tag
            refine Deltas.get_eq_of_amount_eq ?_
            intro c
            rw [change.amount, change'.amount]
            exact hmoved c tag
          exact congrArg Except.ok hagree.toList_eq

/-! ## Both orders -/

/-- Spaces of one name whose maps stand for the same bytes, whatever their totals. -/
structure SameBytes (s t : Space) : Prop where
  name : s.name = t.name
  reserved : s.reserved.Represents t.reserved.sideAt
  committed : (s.committed = none ∧ t.committed = none) ∨ ∃ m n, s.committed = some m ∧
    t.committed = some n ∧ m.Represents n.sideAt

variable {A B : Operation} {r r' : StackRef} {a b a' b' : Except RegionError Deltas × Space}

/-- **Operations on different bytes leave the same bytes** in either order. -/
lemma Moves.sameBytes (hs : s.Maps) (hA : A.Checked) (hB : B.Checked)
    (hapart : ∀ x, ¬ (A.Covers x ∧ B.Covers x)) (ha : s.Moves A r a) (hb : a.2.Moves B r' b)
    (hb' : s.Moves B r' b') (ha' : b'.2.Moves A r a') : SameBytes b.2 a'.2 := by
  have hmaps := hb.maps (ha.maps hs)
  refine ⟨?_, ?_, ?_⟩
  · rw [hb.name_eq, ha.name_eq, ha'.name_eq, hb'.name_eq]
  · have hsides : a'.2.reserved.sideAt = b.2.reserved.sideAt := by
      rw [hb.reserved_eq, ha.reserved_eq, ha'.reserved_eq, hb'.reserved_eq, ha.isSome_eq,
        hb'.isSome_eq]
      exact (Operation.confined_reservedAfter hA r _).comm
        (Operation.confined_reservedAfter hB r' _) hapart _
    rw [hsides]
    exact hmaps.reserved
  · rcases ha.committed_cases with ⟨hnone, hnone'⟩ | ⟨m, m₁, hm, hm₁, hsides₁⟩
    · refine .inl ⟨hb.committed_eq_none_iff.mpr hnone', ?_⟩
      exact ha'.committed_eq_none_iff.mpr (hb'.committed_eq_none_iff.mpr hnone)
    · rcases hb.committed_cases with ⟨hnone, _⟩ | ⟨m₁', m₁₂, hm₁', hm₁₂, hsides₁₂⟩
      · rw [hm₁] at hnone
        cases hnone
      · obtain rfl := Option.some.inj (hm₁.symm.trans hm₁')
        rcases hb'.committed_cases with ⟨hnone, _⟩ | ⟨m', m₂, hm', hm₂, hsides₂⟩
        · rw [hm] at hnone
          cases hnone
        · obtain rfl := Option.some.inj (hm.symm.trans hm')
          rcases ha'.committed_cases with ⟨hnone, _⟩ | ⟨m₂', m₂₁, hm₂', hm₂₁, hsides₂₁⟩
          · rw [hm₂] at hnone
            cases hnone
          · obtain rfl := Option.some.inj (hm₂.symm.trans hm₂')
            have hsides : m₂₁.sideAt = m₁₂.sideAt := by
              rw [hsides₁₂, hsides₁, hsides₂₁, hsides₂]
              exact (Operation.confined_committedAfter A r).comm
                (Operation.confined_committedAfter B r') hapart _
            refine .inr ⟨m₁₂, m₂₁, hm₁₂, hm₂₁, ?_⟩
            rw [hsides]
            exact hmaps.committed m₁₂ hm₁₂

/-- **Two operations on different bytes of a space change places**, unless the slots run out in one
of the four calls. -/
theorem Maps.exchange (hs : s.Maps) (hkindA : s.committed = none ↔ A.target.isProcess)
    (hkindB : s.committed = none ↔ B.target.isProcess) (hA : A.Checked) (hB : B.Checked)
    (hlenA : A.size ≤ maxSpan) (hlenB : B.size ≤ maxSpan)
    (hapart : ∀ x, ¬ (A.Covers x ∧ B.Covers x)) (r r' : StackRef) :
    (s.Starves (A.act r s) ∨ (A.act r s).2.Starves (B.act r' (A.act r s).2) ∨
      s.Starves (B.act r' s) ∨ (B.act r' s).2.Starves (A.act r (B.act r' s).2)) ∨
    ((A.act r s).1.map Deltas.toList = (A.act r (B.act r' s).2).1.map Deltas.toList ∧
      (B.act r' (A.act r s).2).1.map Deltas.toList = (B.act r' s).1.map Deltas.toList ∧
      SameBytes (B.act r' (A.act r s).2).2 (A.act r (B.act r' s).2).2) := by
  rcases hs.act_moves hkindA hA hlenA r with hfull | ha
  · exact .inl (.inl hfull)
  rcases hs.act_moves hkindB hB hlenB r' with hfull | hb'
  · exact .inl (.inr (.inr (.inl hfull)))
  rcases (ha.maps hs).act_moves (ha.committed_eq_none_iff.trans hkindB) hB hlenB r' with hfull | hb
  · exact .inl (.inr (.inl hfull))
  rcases (hb'.maps hs).act_moves (hb'.committed_eq_none_iff.trans hkindA) hA hlenA r with hfull | ha'
  · exact .inl (.inr (.inr (.inr hfull)))
  refine .inr ⟨?_, ?_, Moves.sameBytes hs hA hB hapart ha hb hb' ha'⟩
  · refine ha.answer_eq ha' hA (hb'.agreeOn hB ?_)
    intro x hx hx'
    exact hapart x ⟨hx, hx'⟩
  · refine (hb'.answer_eq hb hB (ha.agreeOn hA ?_)).symm
    intro x hx hx'
    exact hapart x ⟨hx', hx⟩

end Space

end RegionLedger
