import RegionLedger.Proofs.Accounting.Running

/-!
# Deltas under other tags

Tags are compared with each other and with that of untagged memory, and else their numbers do not
matter: deltas are booked in the order in which tags come.  So the numbers can be exchanged, as long
as different tags stay different and untagged memory stays untagged.  Totals are kept in the order of
the numbers, so there it is only the counters of each tag that stay.

* `Renumbering` — another number for every tag.
* `Deltas.renumber` — deltas under other tags; `Deltas.charge_renumber`, `Deltas.plus_renumber` and
  `Deltas.commitOnly_renumber` are what is done to them.
* `Deltas.Renumbers`, `Totals.Renumbers` — deltas and totals that differ in their tags only.
-/

namespace RegionLedger

/-- Another number for every tag. -/
structure Renumbering where
  /-- The tag that stands in for a tag. -/
  toFun : Tag → Tag
  /-- Different tags stay different. -/
  injective : Function.Injective toFun
  /-- Untagged memory stays untagged. -/
  untagged : toFun .untagged = .untagged

instance : CoeFun Renumbering fun _ => Tag → Tag := ⟨Renumbering.toFun⟩

variable (π : Renumbering)

namespace Deltas

/-- The deltas under other tags. -/
def renumber (d : Deltas) : Deltas := ⟨d.entries.map (Prod.map π id)⟩

variable {d e : Deltas}

lemma lookup_renumber (t : Tag) (l : List (Tag × Delta)) :
    lookup (π t) (l.map (Prod.map π id)) = lookup t l := by
  induction l with
  | nil => rfl
  | cons p rest ih =>
      rw [List.map_cons, lookup, lookup, ih]
      exact if_congr π.injective.eq_iff rfl rfl

lemma update_renumber (t : Tag) (f : Delta → Delta) (l : List (Tag × Delta)) :
    update (π t) f (l.map (Prod.map π id)) = (update t f l).map (Prod.map π id) := by
  induction l with
  | nil => rfl
  | cons p rest ih =>
      rw [List.map_cons, update, update, ih, apply_ite (List.map (Prod.map π id))]
      exact if_congr π.injective.eq_iff rfl rfl

lemma get_renumber (d : Deltas) (t : Tag) : (d.renumber π).get (π t) = d.get t :=
  lookup_renumber π t d.entries

lemma Distinct.renumber (hd : d.Distinct) : (d.renumber π).Distinct := by
  have hmap : (d.renumber π).entries.map Prod.fst = (d.entries.map Prod.fst).map π := by
    rw [Deltas.renumber, List.map_map, List.map_map]
    rfl
  rw [Distinct, hmap]
  exact List.Nodup.map π.injective hd

/-- **Memory is booked** under the other tag. -/
theorem charge_renumber (d : Deltas) (t : Tag) (state : State) (bytes : Int64) :
    (d.renumber π).charge (π t) state bytes = (d.charge t state bytes).renumber π := by
  by_cases hzero : bytes = 0
  · simp only [charge, if_pos hzero]
  · simp only [charge, if_neg hzero]
    cases state with
    | released => rfl
    | reserved | committed => exact congrArg Deltas.mk (update_renumber π t _ d.entries)

lemma add_renumber (d : Deltas) (t : Tag) (delta : Delta) :
    (d.renumber π).add (π t) delta = (d.add t delta).map (renumber π) := by
  rw [add, add, get_renumber]
  split_ifs
  · rfl
  · cases (d.get t).plus delta with
    | error o => rfl
    | ok sum => exact congrArg (Except.ok ∘ Deltas.mk) (update_renumber π t _ d.entries)

/-- Changes added one after the other. -/
lemma addEach_renumber (d : Deltas) (l : List (Tag × Delta)) :
    (d.renumber π).addEach (l.map (Prod.map π id)) = (d.addEach l).map (renumber π) := by
  induction l generalizing d with
  | nil => rfl
  | cons p rest ih =>
      have hadd : (d.renumber π).add (Prod.map π id p).1 (Prod.map π id p).2 =
          (d.add p.1 p.2).map (renumber π) := add_renumber π d p.1 p.2
      rw [List.map_cons, addEach_cons, addEach_cons, hadd]
      cases d.add p.1 p.2 with
      | error o => rfl
      | ok d' => exact ih d'

/-- **Sums** are sums under other tags. -/
theorem plus_renumber (d e : Deltas) :
    (d.renumber π).plus (e.renumber π) = (d.plus e).map (renumber π) :=
  addEach_renumber π d e.entries

/-- **The reserved bytes are left out** under other tags alike. -/
theorem commitOnly_renumber (d : Deltas) : (d.renumber π).commitOnly = d.commitOnly.renumber π := by
  have hentries : commitEntries (d.renumber π).entries =
      (commitEntries d.entries).map (Prod.map π id) := by
    rw [commitEntries, commitEntries, renumber, List.map_map, List.map_map]
    rfl
  rw [commitOnly_eq, commitOnly_eq, hentries, List.filter_map]
  rfl

/-- The second deltas are the first under other tags. -/
structure Renumbers (d e : Deltas) : Prop where
  distinct : d.Distinct
  eq : e = d.renumber π

variable {π} in
lemma Renumbers.plus (h : Renumbers π d e) {d' e' s : Deltas} (h' : Renumbers π d' e')
    (hs : d.plus d' = .ok s) : ∃ s', e.plus e' = .ok s' ∧ Renumbers π s s' := by
  obtain ⟨hd, rfl⟩ := h
  obtain ⟨_, rfl⟩ := h'
  refine ⟨s.renumber π, ?_, hd.plus hs, rfl⟩
  rw [plus_renumber, hs]
  rfl

variable {π} in
lemma Renumbers.plus_error (h : Renumbers π d e) {d' e' : Deltas} (h' : Renumbers π d' e')
    {o : Overflow} (hs : d.plus d' = .error o) : e.plus e' = .error o := by
  obtain ⟨_, rfl⟩ := h
  obtain ⟨_, rfl⟩ := h'
  rw [plus_renumber, hs]
  rfl

variable {π} in
lemma Renumbers.commitOnly (h : Renumbers π d e) : Renumbers π d.commitOnly e.commitOnly := by
  obtain ⟨hd, rfl⟩ := h
  exact ⟨distinct_commitOnly hd, commitOnly_renumber π d⟩

end Deltas

/-- Totals with the same counters under other tags. -/
structure Totals.Renumbers (m n : Totals) : Prop where
  left : m.Sorted
  right : n.Sorted
  get_eq : ∀ t, n.get (π t) = m.get t

variable {π} in
/-- **Totals are moved** under other tags alike. -/
theorem Totals.Renumbers.apply {m n : Totals} (h : Renumbers π m n) {d e : Deltas}
    (hde : Deltas.Renumbers π d e) : Renumbers π (m.apply d) (n.apply e) := by
  obtain ⟨hd, rfl⟩ := hde
  have he := hd.renumber π
  refine ⟨h.left.apply hd, h.right.apply he, ?_⟩
  intro t
  rw [get_apply h.right he, get_apply h.left hd, h.get_eq, Deltas.get_renumber]

end RegionLedger
