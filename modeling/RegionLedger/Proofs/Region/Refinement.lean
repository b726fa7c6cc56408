import RegionLedger.Proofs.Region.Mutation

/-!
# Region maps follow the byte model

Each mutation is described once more, byte by byte: which bytes it touches, and the side each of
them gets from the side it had and the side found at the start of the range.  Along every run of
mutations a region map shows the same side for every byte as this model does.

* `Mutation.rewritten`, `Mutation.write` — a mutation in the byte model.
* `Bytes.run` — the byte model along several mutations; invalid ones change nothing.
* `RegionMap.run_refines_bytes` — the refinement.
-/

namespace RegionLedger

variable {μ : Type} [Metadata μ]

/-! ## The byte model -/

/-- The metadata that stays: that given, or what it adopts from memory in use. -/
def Overwrite.keep (mode : Overwrite) (data : μ) (found : Side μ) : μ :=
  match mode with
  | .replace => data
  | .adopt => if found.state = .released then data else Metadata.adopt data found.data

namespace Mutation

/-- The side that a byte of the range gets if it had the side `here` and the first byte of the range
had the side `found`. -/
def rewritten (found here : Side μ) : Mutation μ → Side μ
  | reserve _ _ data => { state := .reserved, data }
  | commit _ _ data mode => { state := .committed, data := mode.keep data found }
  | uncommit _ _ data =>
      if here.state = .committed then
        { state := .reserved, data := Metadata.adopt data here.data }
      else here
  | release .. => .released
  | retag _ _ tag =>
      if here.state = .released then here else { here with data := Metadata.withTag here.data tag }
  | assign _ _ .released _ _ => .released
  | assign _ _ .reserved data mode => { state := .reserved, data := mode.keep data found }
  | assign _ _ .committed data mode => { state := .committed, data := mode.keep data found }

/-- The bytes after a mutation of a valid range. -/
def write (c : Mutation μ) (f : Bytes μ) : Bytes μ := fun x =>
  if c.first ≤ x ∧ x.toNat < c.stop then c.rewritten (f c.first) (f x) else f x

/-- Whether the mutation can leave committed memory where there was none. -/
def commits : Mutation μ → Bool
  | commit .. => true
  | assign _ _ .committed _ _ => true
  | _ => false

/-- No other mutation commits memory. -/
lemma write_state_ne_committed {c : Mutation μ} (hc : c.commits = false) {f : Bytes μ}
    (hf : ∀ x, (f x).state ≠ .committed) (x : Address) : (c.write f x).state ≠ .committed := by
  rw [write]
  split_ifs
  · cases c with
    | commit start size data mode => cases hc
    | assign a b state data mode =>
        cases state with
        | committed => cases hc
        | _ => exact State.noConfusion
    | uncommit start size data =>
        rw [rewritten, if_neg (hf x)]
        exact hf x
    | retag start size tag =>
        rw [rewritten]
        split_ifs <;> exact hf x
    | _ => exact State.noConfusion
  · exact hf x

end Mutation

namespace Bytes

/-- The bytes after a mutation. -/
def step (f : Bytes μ) (c : Mutation μ) : Bytes μ := if c.Valid then c.write f else f

/-- The bytes after several mutations. -/
def run (f : Bytes μ) (cs : List (Mutation μ)) : Bytes μ := cs.foldl step f

end Bytes

/-! ## The refinement -/

variable [DecidableEq μ]

omit [DecidableEq μ] in
lemma newSide_eq (found : Side μ) (state : State) (data : μ) (mode : Overwrite)
    (h : state.isReserved) :
    RegionMap.newSide found state data mode = { state, data := mode.keep data found } := by
  cases state with
  | released => exact absurd h (by decide)
  | _ =>
      cases mode with
      | replace => rfl
      | adopt =>
          simp only [RegionMap.newSide, Overwrite.keep]
          split_ifs <;> rfl

omit [DecidableEq μ] in
/-- The two descriptions of a mutation agree. -/
lemma Mutation.rewritten_eq (found here : Side μ) (c : Mutation μ) :
    c.effect.rewritten found here = c.rewritten found here := by
  cases c with
  | reserve start size data => exact newSide_eq found .reserved data .replace rfl
  | commit start size data mode => exact newSide_eq found .committed data mode rfl
  | release start size => rfl
  | assign a b state data mode =>
      cases state with
      | released => rfl
      | reserved => exact newSide_eq found .reserved data mode rfl
      | committed => exact newSide_eq found .committed data mode rfl
  | uncommit start size data =>
      obtain ⟨state, old⟩ := here
      cases state with
      | committed => exact newSide_eq ⟨.committed, old⟩ .reserved data .adopt rfl
      | _ => rfl
  | retag start size tag =>
      obtain ⟨state, old⟩ := here
      have hchange : state.isReserved →
          (retag start size tag).effect.rewritten found ⟨state, old⟩ =
            { state, data := Metadata.withTag old tag } := by
        intro hstate
        by_cases htag : Metadata.tag old = tag
        · -- the runs that carry the tag already are left out, to the same effect
          have hskip : (state.isReserved && Metadata.tag old != tag) = false := by simp [htag]
          simp only [effect, Effect.rewritten, Side.tag, hskip]
          rw [← htag, Metadata.withTag_tag]
          rfl
        · have htake : (state.isReserved && Metadata.tag old != tag) = true := by
            simp [hstate, htag]
          simp only [effect, Effect.rewritten, Side.tag, htake, if_true]
          exact newSide_eq _ state _ .replace hstate
      cases state with
      | released => rfl
      | reserved => exact hchange rfl
      | committed => exact hchange rfl

omit [DecidableEq μ] in
lemma Mutation.write_eq {c : Mutation μ} {b : Address} (hb : b.toNat = c.stop) (f : Bytes μ) :
    c.effect.write f c.first b = c.write f := by
  funext x
  simp only [Effect.write, write, UInt64.lt_iff_toNat_lt, hb, rewritten_eq]

namespace RegionMap

variable {m : RegionMap μ} {f : Bytes μ}

/-- A mutation that is not refused for want of memory follows the byte model. -/
lemma Represents.step (h : m.Represents f) {c : Mutation μ} (hc : m.starves c = false) :
    (m.step c).Represents (f.step c) := by
  rcases h.apply_cases c with ⟨hvalid, happly⟩ | ⟨b, d, m', hvalid, hb, _, _, happly, h'⟩ |
    ⟨_, happly, _⟩
  · rw [RegionMap.step, happly, Bytes.step, if_neg hvalid]
    exact h
  · rw [RegionMap.step, happly, Bytes.step, if_pos hvalid, ← Mutation.write_eq hb]
    exact h'
  · rw [starves, happly] at hc
    cases hc

lemma step_of_starves {c : Mutation μ} (hc : m.starves c) : m.step c = m := by
  rw [starves] at hc
  rw [RegionMap.step]
  split at hc
  · next happly => rw [happly]
  · cases hc

/-- **Along a run a map follows the byte model.** -/
theorem Represents.run (h : m.Represents f) (cs : List (Mutation μ)) :
    (m.run cs).Represents (f.run (m.served cs)) := by
  induction cs generalizing m f with
  | nil => exact h
  | cons c cs ih =>
      rw [served]
      split_ifs with hc
      · rw [RegionMap.run, List.foldl_cons, step_of_starves hc]
        exact ih h
      · exact ih (h.step (Bool.not_eq_true _ ▸ hc))

/-- **A region map refines the byte model.**  After any run of mutations of an empty map, whatever
its priorities, each byte has the side that the model gives it; and a further mutation is refused if
its range is invalid, and otherwise writes the bytes that the model writes, unless there are no slots
for two more boundaries.  The metadata is any, so this holds of attributions and of placements. -/
theorem run_refines_bytes (draws : Draws) (cs : List (Mutation μ)) :
    (∀ x, ((empty draws).run cs).sideAt x =
      (Bytes.untouched : Bytes μ).run ((empty draws).served cs) x) ∧
    ∀ c : Mutation μ,
      (¬ c.Valid →
        c.apply ((empty draws).run cs) = .error (.invalidRange c.first c.size)) ∧
      (c.Valid →
        (∃ d m', c.apply ((empty draws).run cs) = .ok (d, m') ∧
          ∀ x, m'.sideAt x = c.write ((empty draws).run cs).sideAt x) ∨
        (c.apply ((empty draws).run cs) = .error (.outOfMemory .outOfSlots) ∧
          Slots.limit < ((empty draws).run cs).size + 2)) := by
  have h := (represents_empty draws).run cs
  refine ⟨h.sideAt_eq, fun c => ⟨fun hc => Mutation.apply_invalid hc _, ?_⟩⟩
  intro hc
  rcases h.apply_cases c with ⟨hc', _⟩ | ⟨b, d, m', _, hb, _, _, happly, h'⟩ | ⟨_, hfull⟩
  · exact absurd hc hc'
  · refine .inl ⟨d, m', happly, ?_⟩
    intro x
    rw [h'.sideAt_eq, Mutation.write_eq hb, funext h.sideAt_eq]
  · exact .inr hfull

end RegionMap

end RegionLedger
