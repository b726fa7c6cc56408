import RegionLedger.Proofs.Region.CallSites
import RegionLedger.Proofs.Region.Count

/-!
# Other references for the same call sites

What a map does with its memory does not depend on the references of call sites, only on which of
them are equal.  So the references can be replaced, all at once: every mutation with the new
reference leaves the bytes with their references replaced.  Where different references stay
different, the side changes at the same addresses; where they become equal, some of these addresses
are lost.

* `Signs`, `Metadata.relabel`, `Side.relabel`, `Bytes.relabel`, `Mutation.relabel` — references
  replaced.
* `Mutation.write_relabel` — the bytes written are the bytes written before, relabelled.
* `Bytes.Uses`, `Bytes.jumps_relabel_iff` — the references in use; the side changes where it did if
  these stay different.
* `Bytes.held_relabel` — the bytes of a tag.
* `RegionMap.Relabels` — maps that stand for the same bytes up to their references.
* `SameAnswer` — two calls answer alike, and what they leave is related.
-/

namespace RegionLedger

/-- Metadata whose call site can be replaced by another. -/
class Signs (μ : Type) [Metadata μ] [Sited μ] where
  /-- The metadata with another call site. -/
  sign : StackRef → μ → μ
  /-- The new call site is the call site. -/
  site_sign (ref : StackRef) (d : μ) : Sited.site (sign ref d) = ref
  /-- The tag is kept. -/
  tag_sign (ref : StackRef) (d : μ) : Metadata.tag (sign ref d) = Metadata.tag d
  /-- The tag can be changed before or after. -/
  withTag_sign (ref : StackRef) (d : μ) (t : Tag) :
    Metadata.withTag (sign ref d) t = sign ref (Metadata.withTag d t)
  /-- An adoption takes the call site of the new metadata and nothing of that of the old. -/
  adopt_sign (ref old : StackRef) (d e : μ) :
    Metadata.adopt (sign ref d) (sign old e) = sign ref (Metadata.adopt d e)
  /-- Only the last call site counts. -/
  sign_sign (ref old : StackRef) (d : μ) : sign ref (sign old d) = sign ref d
  /-- Metadata carries its own call site. -/
  sign_site (d : μ) : sign (Sited.site d) d = d

instance : Signs Attribution where
  sign ref d := { d with stack := ref }
  site_sign _ _ := rfl
  tag_sign _ _ := rfl
  withTag_sign _ _ _ := rfl
  adopt_sign _ _ _ _ := rfl
  sign_sign _ _ _ := rfl
  sign_site _ := rfl

instance : Signs Placement where
  sign ref d := { d with stack := ref }
  site_sign _ _ := rfl
  tag_sign _ _ := rfl
  withTag_sign _ _ _ := rfl
  adopt_sign _ _ _ _ := rfl
  sign_sign _ _ _ := rfl
  sign_site _ := rfl

variable {μ : Type} [Metadata μ] [Sited μ] [Signs μ] (σ τ : StackRef → StackRef)

/-! ## Metadata -/

/-- The metadata with its reference replaced. -/
def Metadata.relabel (d : μ) : μ := Signs.sign (σ (Sited.site d)) d

namespace Metadata

lemma site_relabel (d : μ) : Sited.site (relabel σ d) = σ (Sited.site d) := Signs.site_sign _ _

lemma tag_relabel (d : μ) : tag (relabel σ d) = tag d := Signs.tag_sign _ _

lemma withTag_relabel (d : μ) (t : Tag) : withTag (relabel σ d) t = relabel σ (withTag d t) := by
  rw [relabel, relabel, Signs.withTag_sign, Sited.site_withTag]

lemma adopt_relabel (d e : μ) : adopt (relabel σ d) (relabel σ e) = relabel σ (adopt d e) := by
  rw [relabel, relabel, relabel, Signs.adopt_sign, Sited.site_adopt]

/-- Metadata that differs differs after relabelling, if different references stay different. -/
lemma eq_of_relabel_eq {d e : μ} (h : relabel σ d = relabel σ e)
    (hsite : σ (Sited.site d) = σ (Sited.site e) → Sited.site d = Sited.site e) : d = e := by
  have hsame : Sited.site d = Sited.site e := by
    refine hsite ?_
    rw [← site_relabel σ d, h, site_relabel]
  rw [← Signs.sign_site d, ← Signs.sign_sign _ (σ (Sited.site d)) d]
  show Signs.sign (Sited.site d) (relabel σ d) = e
  rw [h, relabel, Signs.sign_sign, hsame, Signs.sign_site]

variable {σ τ} in
lemma relabel_congr {d : μ} (h : σ (Sited.site d) = τ (Sited.site d)) : relabel σ d = relabel τ d :=
  congrArg (Signs.sign · d) h

end Metadata

/-! ## Sides -/

/-- The side with its reference replaced; released memory carries none. -/
def Side.relabel (s : Side μ) : Side μ :=
  if s.state = .released then s else { s with data := Metadata.relabel σ s.data }

namespace Side

@[simp] lemma relabel_released : (released : Side μ).relabel σ = released := if_pos rfl

lemma relabel_of_ne_released {s : Side μ} (h : s.state ≠ .released) :
    s.relabel σ = { s with data := Metadata.relabel σ s.data } := if_neg h

lemma relabel_mk {state : State} (h : state ≠ .released) (data : μ) :
    relabel σ { state, data } = { state, data := Metadata.relabel σ data } := if_neg h

lemma relabel_reserved (data : μ) : relabel σ { state := .reserved, data } =
    { state := .reserved, data := Metadata.relabel σ data } := relabel_mk σ (by decide) data

lemma relabel_committed (data : μ) : relabel σ { state := .committed, data } =
    { state := .committed, data := Metadata.relabel σ data } := relabel_mk σ (by decide) data

@[simp] lemma state_relabel (s : Side μ) : (s.relabel σ).state = s.state := by
  rw [relabel]
  split_ifs <;> rfl

@[simp] lemma tag_relabel (s : Side μ) : (s.relabel σ).tag = s.tag := by
  rw [relabel]
  split_ifs
  · rfl
  · exact Metadata.tag_relabel σ s.data

lemma site?_relabel (s : Side μ) : (s.relabel σ).site? = s.site?.map σ := by
  by_cases h : s.state = .released
  · rw [relabel, if_pos h, site?, if_pos h]
    rfl
  · rw [relabel_of_ne_released σ h, site?, site?, if_neg h, if_neg h, Metadata.site_relabel]
    rfl

lemma mapping_relabel (s : Side Placement) : (s.relabel σ).data.mapping = s.data.mapping := by
  rw [relabel]
  split_ifs <;> rfl

lemma countsIn_relabel (s : Side μ) (c : Column) (t : Tag) :
    (s.relabel σ).CountsIn c t ↔ s.CountsIn c t := by
  rw [CountsIn, CountsIn, tag_relabel, state_relabel]

/-- Sides that differ differ after relabelling, if different references stay different. -/
lemma eq_of_relabel_eq {s t : Side μ} (h : s.relabel σ = t.relabel σ)
    (hsites : ∀ p ∈ s.site?, ∀ q ∈ t.site?, σ p = σ q → p = q) : s = t := by
  have hstate : s.state = t.state := by
    rw [← state_relabel σ s, h, state_relabel]
  by_cases hs : s.state = .released
  · rwa [relabel, if_pos hs, relabel, if_pos (hstate ▸ hs)] at h
  · have ht : t.state ≠ .released := hstate ▸ hs
    rw [relabel_of_ne_released σ hs, relabel_of_ne_released σ ht, Side.mk.injEq] at h
    have hdata := Metadata.eq_of_relabel_eq σ h.2
      (hsites _ (site?_of_ne_released hs) _ (site?_of_ne_released ht))
    cases s
    cases t
    exact congrArg₂ Side.mk hstate hdata

variable {σ τ} in
lemma relabel_congr {s : Side μ} (h : ∀ p ∈ s.site?, σ p = τ p) : s.relabel σ = s.relabel τ := by
  by_cases hs : s.state = .released
  · rw [relabel, relabel, if_pos hs, if_pos hs]
  · rw [relabel_of_ne_released σ hs, relabel_of_ne_released τ hs,
      Metadata.relabel_congr (h _ (site?_of_ne_released hs))]

end Side

/-! ## Mutations -/

/-- The metadata that stays, relabelled. -/
lemma Overwrite.keep_relabel (mode : Overwrite) (data : μ) (found : Side μ) :
    mode.keep (Metadata.relabel σ data) (found.relabel σ) =
      Metadata.relabel σ (mode.keep data found) := by
  cases mode with
  | replace => rfl
  | adopt =>
      rw [keep, keep, Side.state_relabel]
      split_ifs with h
      · rfl
      · rw [Side.relabel_of_ne_released σ h]
        exact Metadata.adopt_relabel σ data found.data

/-- The side that a range gets, relabelled. -/
lemma RegionMap.newSide_relabel (found : Side μ) (state : State) (data : μ) (mode : Overwrite) :
    newSide (found.relabel σ) state (Metadata.relabel σ data) mode =
      (newSide found state data mode).relabel σ := by
  by_cases h : state.isReserved
  · have hne : state ≠ .released := by
      rintro rfl
      cases h
    rw [newSide_eq _ _ _ _ h, newSide_eq _ _ _ _ h, mode.keep_relabel,
      Side.relabel_of_ne_released σ hne]
  · cases state with
    | released =>
        rw [newSide, newSide]
        exact (Side.relabel_released σ).symm
    | _ => exact absurd rfl h

namespace Mutation

/-- The mutation with its reference replaced. -/
def relabel : Mutation μ → Mutation μ
  | reserve start size data => reserve start size (Metadata.relabel σ data)
  | commit start size data mode => commit start size (Metadata.relabel σ data) mode
  | uncommit start size data => uncommit start size (Metadata.relabel σ data)
  | release start size => release start size
  | retag start size tag => retag start size tag
  | assign first stop state data mode => assign first stop state (Metadata.relabel σ data) mode

@[simp] lemma first_relabel (c : Mutation μ) : (c.relabel σ).first = c.first := by cases c <;> rfl

@[simp] lemma size_relabel (c : Mutation μ) : (c.relabel σ).size = c.size := by cases c <;> rfl

@[simp] lemma stop_relabel (c : Mutation μ) : (c.relabel σ).stop = c.stop := by cases c <;> rfl

lemma valid_relabel (c : Mutation μ) : (c.relabel σ).Valid ↔ c.Valid := by
  rw [Valid, Valid, first_relabel, stop_relabel]

/-- The side that a byte gets, relabelled. -/
lemma rewritten_relabel (found here : Side μ) (c : Mutation μ) :
    (c.relabel σ).rewritten (found.relabel σ) (here.relabel σ) =
      (c.rewritten found here).relabel σ := by
  cases c with
  | reserve start size data => exact (Side.relabel_reserved σ data).symm
  | commit start size data mode =>
      simp only [relabel, rewritten, mode.keep_relabel, Side.relabel_committed]
  | release start size => exact (Side.relabel_released σ).symm
  | uncommit start size data =>
      simp only [relabel, rewritten, Side.state_relabel]
      split_ifs with h
      · have hne : here.state ≠ .released := by
          rw [h]
          decide
        rw [Side.relabel_of_ne_released σ hne, Metadata.adopt_relabel, Side.relabel_reserved]
      · rfl
  | retag start size tag =>
      simp only [relabel, rewritten, Side.state_relabel]
      split_ifs with h
      · rfl
      · rw [Side.relabel_of_ne_released σ h, Metadata.withTag_relabel, Side.relabel_mk σ h]
  | assign a b state data mode =>
      cases state with
      | released => exact (Side.relabel_released σ).symm
      | reserved => simp only [relabel, rewritten, mode.keep_relabel, Side.relabel_reserved]
      | committed => simp only [relabel, rewritten, mode.keep_relabel, Side.relabel_committed]

end Mutation

/-! ## Bytes -/

namespace Bytes

variable {f : Bytes μ}

/-- The bytes with all references replaced. -/
def relabel (f : Bytes μ) : Bytes μ := fun x => (f x).relabel σ

lemma before_relabel (f : Bytes μ) (x : Address) :
    (f.relabel σ).before x = (f.before x).relabel σ := by
  rw [before, before]
  split_ifs
  · exact (Side.relabel_released σ).symm
  · rfl

/-- The side changes at no other address than before. -/
lemma jumps_of_jumps_relabel {x : Address} (h : (f.relabel σ).Jumps x) : f.Jumps x := by
  intro heq
  refine h ?_
  rw [before_relabel, heq]
  rfl

lemma relabel_overwrite (f : Bytes μ) (a b : Address) (s : Side μ) :
    (f.overwrite a b s).relabel σ = (f.relabel σ).overwrite a b (s.relabel σ) := by
  funext x
  rw [relabel, overwrite, overwrite]
  split_ifs <;> rfl

/-- The same bytes count. -/
lemma held_relabel (f : Bytes μ) (c : Column) (t : Tag) : (f.relabel σ).held c t = f.held c t := by
  rw [held, held]
  exact congrArg Set.ncard (Set.ext fun x => Side.countsIn_relabel σ (f x) c t)

/-- All references of memory in use are in the set. -/
def Uses (f : Bytes μ) (refs : Set StackRef) : Prop := ∀ x, ∀ ref ∈ (f x).site?, ref ∈ refs

variable {refs : Set StackRef}

omit [Signs μ] in
lemma Uses.before (h : f.Uses refs) (x : Address) : ∀ ref ∈ (f.before x).site?, ref ∈ refs := by
  rw [Bytes.before]
  split_ifs
  · intro ref href
    cases href
  · exact h (x - 1)

variable {σ} in
/-- **Where different references stay different, the side changes where it did.** -/
theorem jumps_relabel_iff (hσ : Set.InjOn σ refs) (h : f.Uses refs) (x : Address) :
    (f.relabel σ).Jumps x ↔ f.Jumps x := by
  refine ⟨jumps_of_jumps_relabel σ, ?_⟩
  intro hjump heq
  refine hjump ?_
  rw [before_relabel] at heq
  exact Side.eq_of_relabel_eq σ heq fun p hp q hq => hσ (h.before x p hp) (h x q hq)

variable {σ τ} in
lemma relabel_congr (h : f.Uses refs) (hστ : Set.EqOn σ τ refs) : f.relabel σ = f.relabel τ := by
  funext x
  exact Side.relabel_congr fun p hp => hστ (h x p hp)

omit [Signs μ] in
lemma uses_untouched : (untouched : Bytes μ).Uses refs := by
  intro x ref href
  cases href

lemma relabel_untouched : (untouched : Bytes μ).relabel σ = untouched :=
  funext fun _ => Side.relabel_released σ

omit [Signs μ] in
lemma Uses.overwrite (h : f.Uses refs) {s : Side μ} (hs : ∀ ref ∈ s.site?, ref ∈ refs)
    (a b : Address) : (f.overwrite a b s).Uses refs := by
  intro x
  rw [Bytes.overwrite]
  split_ifs
  · exact hs
  · exact h x

end Bytes

/-- **A relabelled mutation writes the relabelled bytes.** -/
theorem Mutation.write_relabel (c : Mutation μ) (f : Bytes μ) :
    (c.relabel σ).write (f.relabel σ) = (c.write f).relabel σ := by
  funext x
  show (c.relabel σ).write (f.relabel σ) x = (c.write f x).relabel σ
  rw [write, write, first_relabel, stop_relabel]
  split_ifs
  · exact c.rewritten_relabel σ (f c.first) (f x)
  · rfl

/-! ## Maps -/

/-- Two calls get the same answer up to related deltas; if they are carried out, what they leave is
related. -/
inductive SameAnswer {ε δ α β : Type} (D : δ → δ → Prop) (R : α → β → Prop) :
    Except ε (δ × α) → Except ε (δ × β) → Prop where
  | error (e : ε) : SameAnswer D R (.error e) (.error e)
  | ok {d d' : δ} (deltas : D d d') {a : α} {b : β} (related : R a b) :
      SameAnswer D R (.ok (d, a)) (.ok (d', b))

/-- The second map stands for the bytes of the first with their references replaced. -/
structure RegionMap.Relabels (m n : RegionMap μ) : Prop where
  left : m.Represents m.sideAt
  right : n.Represents (Bytes.relabel σ m.sideAt)

namespace RegionMap.Relabels

variable {σ} {m n : RegionMap μ} {f : Bytes μ}

lemma of_represents (h : m.Represents f) (h' : n.Represents (f.relabel σ)) : Relabels σ m n := by
  obtain rfl : m.sideAt = f := funext h.sideAt_eq
  exact ⟨h, h'⟩

lemma sideAt_eq (h : Relabels σ m n) (x : Address) : n.sideAt x = (m.sideAt x).relabel σ :=
  h.right.sideAt_eq x

variable (σ) in
/-- New maps have no references. -/
lemma empty (draws draws' : Draws) : Relabels σ (.empty draws : RegionMap μ) (.empty draws') := by
  refine of_represents (represents_empty draws) ?_
  rw [Bytes.relabel_untouched]
  exact represents_empty draws'

end RegionMap.Relabels

end RegionLedger
