import RegionLedger.Proofs.Trace.Records

/-!
# Replays under other tags

Two replays that start from different tables of tag names number the same names differently.  The
numbers of the names that end up in both tables can be carried over into each other, and such names
are all that the records ever use; so the replays do the same under other tags.  A name that only one
of the tables has keeps a tag that is not in use.

* `Replay.Alike` — two replays that do the same under other tags.
* `Replay.Alike.apply`, `Replay.Alike.after` — one record, and records one by one.
* `Replay.reservedAt?`, `Replay.committedAt?` — what is seen of a byte, with its tag by name.
* `Replay.numbering_is_invisible` — it does not depend on how tags are numbered.
-/

namespace RegionLedger

/-- The tag of a name that both tables have. -/
def TagNames.Shared (t u : TagNames) (tag : Tag) : Prop :=
  ∃ name tag', t.tag? name = some tag ∧ u.tag? name = some tag'

namespace Replay

variable {π : Renumbering} {r r' : Replay} {N N' : TagNames}

/-- The second replay does what the first does, under other tags. -/
structure Renumbers (π : Renumbering) (r r' : Replay) : Prop where
  ledger : Ledger.Renumbers π r.ledger r'.ledger
  level : r.tracker.level = r'.tracker.level
  spaces : r.spaces = r'.spaces
  stats : r.stats = r'.stats

/-- The other tags carry the one table over into the other, and the first replay uses no tags but
those of names that both have. -/
structure Alike (π : Renumbering) (N N' : TagNames) (r r' : Replay) : Prop extends
    Renumbers π r r' where
  unused : ∀ t, t ≠ .untagged → ¬ N.Shared N' t → r.ledger.Lacks t

/-- Two records are both accepted or both refused, and what they leave is alike. -/
structure SameVerdict (R : Replay → Replay → Prop)
    (p q : Except ReplayError Unit × Replay) : Prop where
  accepted : p.1.isOk = q.1.isOk
  left : R p.2 q.2

/-! ## One record -/

namespace Renumbers

lemma space?_eq (h : Renumbers π r r') (name : String) : r.space? name = r'.space? name := by
  rw [space?, space?, h.spaces]

lemma takeUp (h : Renumbers π r r') : Renumbers π r.takeUp r'.takeUp := by
  refine ⟨h.ledger, h.level, h.spaces, ?_⟩
  rw [Replay.takeUp, Replay.takeUp, h.stats]

/-- Other tables make no difference here. -/
lemma set_names (h : Renumbers π r r') (names names' : TagNames) :
    Renumbers π { r with names } { r' with names := names' } :=
  ⟨h.ledger, h.level, h.spaces, h.stats⟩

/-- **A registration.** -/
lemma register (h : Renumbers π r r') (name : String) :
    SameVerdict (Renumbers π) (r.register name) (r'.register name) := by
  rw [Replay.register, Replay.register, ← h.space?_eq]
  cases r.space? name with
  | some id => exact ⟨rfl, h⟩
  | none =>
      dsimp only
      rw [Tracker.register, Tracker.register]
      rcases h.ledger.register name with ⟨e, hleft, hright⟩ | ⟨id, v, v', hleft, hright, hv⟩
      · rw [hleft, hright]
        exact ⟨rfl, h⟩
      · rw [hleft, hright]
        refine ⟨rfl, hv, h.level, ?_, ?_⟩
        · exact congrArg (· ++ [(name, id)]) h.spaces
        · simp only [h.stats]

/-- **An operation.** -/
lemma record (h : Renumbers π r r') (hr : r.ledger.Charted) (op : Operation) :
    SameVerdict (Renumbers π) (r.record op) (r'.record (op.renumber π)) := by
  by_cases hlevel : r.tracker.level = .off
  · rw [record_of_off hlevel, record_of_off (h.level ▸ hlevel)]
    refine ⟨rfl, h.ledger, h.level, h.spaces, ?_⟩
    simp only [h.stats]
  · have hlevel' : r'.tracker.level ≠ .off := h.level ▸ hlevel
    have happly := h.ledger.apply hr op
    generalize hp : r.ledger.apply op = p at happly
    generalize hq : r'.ledger.apply (op.renumber π) = q at happly
    cases happly with
    | error e related =>
        rw [record_of_error hlevel hp, record_of_error hlevel' hq]
        exact ⟨rfl, related, h.level, h.spaces, h.stats⟩
    | ok deltas related =>
        rw [record_of_ok hlevel hp, record_of_ok hlevel' hq]
        refine ⟨rfl, related, h.level, h.spaces, ?_⟩
        simp only [h.stats]

end Renumbers

/-- No tag was refused for want of numbers. -/
def exhausts : Except ReplayError Unit → Bool
  | .error (.tag _) => true
  | _ => false

/-- Tags of a name in tables that grow into two others. -/
lemma resolve_matches (hr : r.Sound) (hr' : r'.Sound) (hπ : N.Matches π N') {name? : Option String}
    {tag tag' : Tag} {u u' : TagNames} (h : r.names.resolve name? = (.ok tag, u))
    (h' : r'.names.resolve name? = (.ok tag', u')) (hN : u.Within N) (hN' : u'.Within N') :
    π tag = tag' ∧ (name? ≠ none → N.Shared N' tag) := by
  cases name? with
  | none =>
      cases h
      cases h'
      exact ⟨π.untagged, fun hne => absurd rfl hne⟩
  | some name =>
      have hone : ∀ {r : Replay} {tag : Tag} {u M : TagNames}, r.Sound →
          r.names.resolve (some name) = (.ok tag, u) → u.Within M → M.tag? name = some tag := by
        intro r tag u M hr h hM
        rcases hr.names.resolve_cases (some name) with ⟨_, _, hanswer, _, _, htag⟩ | ⟨_, hanswer⟩
        · obtain ⟨hok, rfl⟩ := (Prod.mk.injEq ..).mp (hanswer.symm.trans h)
          obtain rfl := Except.ok.inj hok
          exact hM name _ (htag name rfl)
        · rw [hanswer] at h
          cases h
      have htag := hone hr h hN
      have htag' := hone hr' h' hN'
      exact ⟨hπ name tag tag' htag htag', fun _ => ⟨name, tag', htag, htag'⟩⟩

namespace Alike

lemma takeUp (h : Alike π N N' r r') : Alike π N N' r.takeUp r'.takeUp :=
  ⟨h.toRenumbers.takeUp, h.unused⟩

lemma set_names (h : Alike π N N' r r') (names names' : TagNames) :
    Alike π N N' { r with names } { r' with names := names' } :=
  ⟨h.toRenumbers.set_names names names', h.unused⟩

lemma register (h : Alike π N N' r r') (name : String) :
    SameVerdict (Alike π N N') (r.register name) (r'.register name) := by
  obtain ⟨haccepted, hleft⟩ := h.toRenumbers.register name
  refine ⟨haccepted, hleft, ?_⟩
  intro t ht hshared
  have hlacks := h.unused t ht hshared
  rcases r.ledger_register name with hledger | hledger
  · exact hledger ▸ hlacks
  · exact hledger ▸ hlacks.register ht name

/-- An operation under a tag whose name both tables have. -/
lemma record (h : Alike π N N' r r') (hr : r.ledger.Charted) {op : Operation}
    (hop : ∀ t, op.tag? = some t → N.Shared N' t) :
    SameVerdict (Alike π N N') (r.record op) (r'.record (op.renumber π)) := by
  obtain ⟨haccepted, hleft⟩ := h.toRenumbers.record hr op
  refine ⟨haccepted, hleft, ?_⟩
  intro t ht hshared
  have hlacks := h.unused t ht hshared
  obtain ⟨_, _, hledger | hledger⟩ := r.record_cases op
  · exact hledger ▸ hlacks
  · exact hledger ▸ hlacks.apply ht hr fun htag => hshared (hop t htag)

/-- **A record**, if both replays find tags for its names, in tables that grow into `N` and `N'`. -/
theorem apply (h : Alike π N N' r r') (hr : r.Sound) (hr' : r'.Sound) (hπ : N.Matches π N')
    {record : Record} (hN : (r.apply record).2.names.Within N)
    (hN' : (r'.apply record).2.names.Within N') (htags : exhausts (r.apply record).1 = false)
    (htags' : exhausts (r'.apply record).1 = false) :
    SameVerdict (Alike π N N') (r.apply record) (r'.apply record) := by
  have htaken := h.takeUp
  rcases space_or_reading record with ⟨name, rfl⟩ | ⟨q, hq⟩
  · exact htaken.register name
  · rw [apply_of_reading hq] at hN htags ⊢
    rw [apply_of_reading hq] at hN' htags' ⊢
    cases hspace : r.takeUp.space? q.space with
    | none =>
        have hspace' : r'.takeUp.space? q.space = none := (htaken.space?_eq _).symm.trans hspace
        rw [follow_of_unknown hspace, follow_of_unknown hspace']
        exact ⟨rfl, htaken⟩
    | some id =>
        have hspace' : r'.takeUp.space? q.space = some id := (htaken.space?_eq _).symm.trans hspace
        rcases hr.names.resolve_cases q.tag? with ⟨tag, u, hresolve, _⟩ | ⟨e, hresolve⟩
        · rcases hr'.names.resolve_cases q.tag? with ⟨tag', u', hresolve', _⟩ | ⟨e, hresolve'⟩
          · rw [follow_of_resolved hspace hresolve] at hN ⊢
            rw [follow_of_resolved hspace' hresolve'] at hN' ⊢
            rw [(record_cases _ _).1] at hN hN'
            obtain ⟨rfl, hshared⟩ := resolve_matches hr hr' hπ hresolve hresolve' hN hN'
            rw [← q.renumber_operation]
            refine (htaken.set_names u u').record hr.charted ?_
            intro t htag
            rw [q.tag?_operation] at htag
            cases hname : q.tag? with
            | none =>
                rw [hname] at htag
                cases htag
            | some name =>
                rw [hname] at htag hshared
                obtain rfl := Option.some.inj htag
                exact hshared (Option.some_ne_none name)
          · rw [follow_of_exhausted hspace' hresolve'] at htags'
            cases htags'
        · rw [follow_of_exhausted hspace hresolve] at htags
          cases htags

/-- **Records one by one**, if the tags suffice in both replays. -/
theorem after (h : Alike π N N' r r') (hr : r.Sound) (hr' : r'.Sound) (hπ : N.Matches π N')
    {records : List Record} (hN : (r.after records).names.Within N)
    (hN' : (r'.after records).names.Within N')
    (htags : ∀ answer ∈ r.answers records, exhausts answer = false)
    (htags' : ∀ answer ∈ r'.answers records, exhausts answer = false) :
    (r.answers records).map Except.isOk = (r'.answers records).map Except.isOk ∧
      Alike π N N' (r.after records) (r'.after records) := by
  induction records generalizing r r' with
  | nil => exact ⟨rfl, h⟩
  | cons record rest ih =>
      rw [answers, List.forall_mem_cons] at htags htags'
      have hnext := hr.apply record
      have hnext' := hr'.apply record
      obtain ⟨haccepted, hleft⟩ := h.apply hr hr' hπ ((hnext.within_after rest).trans hN)
        ((hnext'.within_after rest).trans hN') htags.1 htags'.1
      obtain ⟨hrest, hafter⟩ := ih hleft hnext hnext' hN hN' htags.2 htags'.2
      rw [answers, answers, List.map_cons, List.map_cons, haccepted, hrest]
      exact ⟨rfl, hafter⟩

end Alike

/-! ## What is seen -/

/-- What is seen of a byte: its state, the name of its tag, its mapping and its frames. -/
structure Sight where
  state : State
  tag : Option String
  mapping : Option Mapping
  stack : CallStack
deriving DecidableEq

/-- What a replay sees of a reserved byte of a space that is known. -/
def reservedAt? (r : Replay) (id : SpaceId) (x : Address) : Option Sight :=
  (r.ledger.space? id).map fun s =>
    let side := s.reserved.sideAt x
    { state := side.state
      tag := r.names.name? side.tag
      mapping := side.data.mapping
      stack := r.ledger.callStacks.get side.data.stack }

/-- What a replay sees of a committed byte of a space that keeps its commits apart. -/
def committedAt? (r : Replay) (id : SpaceId) (x : Address) : Option Sight :=
  ((r.ledger.space? id).bind (·.committed)).map fun m =>
    let side := m.sideAt x
    { state := side.state
      tag := r.names.name? side.tag
      mapping := none
      stack := r.ledger.callStacks.get side.data.stack }

namespace Alike

/-- A tag that a byte has is that of untagged memory, or its name is in both tables. -/
lemma shared_of_tag {μ : Type} [Metadata μ] (h : Alike π N N' r r') {f : Bytes μ}
    (hlacks : ∀ t, r.ledger.Lacks t → f.Lacks t) (x : Address) :
    (f x).tag = .untagged ∨ N.Shared N' (f x).tag := by
  by_contra hnot
  rw [not_or] at hnot
  exact hlacks _ (h.unused _ hnot.1 hnot.2) x rfl

/-- Such a tag has the same name in both tables. -/
lemma name?_renumber (hN : N.Sound) (hN' : N'.Sound) (hπ : N.Matches π N') {t : Tag}
    (ht : t = .untagged ∨ N.Shared N' t) : N'.name? (π t) = N.name? t := by
  have hname : ∀ {name tag tag'}, N.tag? name = some tag → N'.tag? name = some tag' →
      N'.name? (π tag) = N.name? tag := by
    intro name tag tag' h h'
    rw [hπ name tag tag' h h', (hN.tag?_eq_some_iff name tag).mp h,
      (hN'.tag?_eq_some_iff name tag').mp h']
  rcases ht with rfl | ⟨name, tag', h, h'⟩
  · exact hname hN.untagged hN'.untagged
  · exact hname h h'

/-- A tag with a name that only the first table has is not shared. -/
lemma not_shared (hN : N.Sound) (hN' : N'.Sound) {name : String} {t : Tag}
    (h : N.tag? name = some t) (h' : N'.tag? name = none) : t ≠ .untagged ∧ ¬ N.Shared N' t := by
  have hother : ∀ other tag', N.tag? other = some t → N'.tag? other ≠ some tag' := by
    intro other tag' htag htag'
    rw [hN.injective h htag, htag'] at h'
    cases h'
  refine ⟨?_, ?_⟩
  · rintro rfl
    exact hother _ _ hN.untagged hN'.untagged
  · rintro ⟨other, tag', htag, htag'⟩
    exact hother other tag' htag htag'

/-- A tag that stands for one with a name that only the second table has is not shared either. -/
lemma not_shared' (hN : N.Sound) (hN' : N'.Sound) (hπ : N.Matches π N') {name : String} {t : Tag}
    (h : N.tag? name = none) (h' : N'.tag? name = some (π t)) :
    t ≠ .untagged ∧ ¬ N.Shared N' t := by
  have hother : ∀ other tag', N.tag? other = some t → N'.tag? other ≠ some tag' := by
    intro other tag' htag htag'
    rw [hπ other t tag' htag htag'] at h'
    rw [hN'.injective h' htag', htag] at h
    cases h
  refine ⟨?_, ?_⟩
  · rintro rfl
    exact hother _ _ hN.untagged hN'.untagged
  · rintro ⟨other, tag', htag, htag'⟩
    exact hother other tag' htag htag'

variable (h : Alike π r.names r'.names r r') (hN : r.names.Sound) (hN' : r'.names.Sound)
  (hπ : r.names.Matches π r'.names)

include h hN hN' hπ

/-- **The counters filed under a name.** -/
theorem filed_eq (id : SpaceId) (name : String) : r.filed id name = r'.filed id name := by
  rw [filed, filed]
  rcases h.ledger.spaces.cases_space? id with ⟨hs, hs'⟩ | ⟨s, s', hs, hs', hst⟩
  · rw [hs, hs']
  · rw [hs, hs']
    cases htag : r.names.tag? name with
    | some t =>
        cases htag' : r'.names.tag? name with
        | some t' =>
            show s.totals.get t = s'.totals.get t'
            rw [← hπ name t t' htag htag', hst.totals.get_eq]
        | none =>
            obtain ⟨ht, hshared⟩ := not_shared hN hN' htag htag'
            exact (h.unused t ht hshared id s hs).totals
    | none =>
        cases htag' : r'.names.tag? name with
        | some t' =>
            obtain ⟨t, rfl⟩ := Finite.surjective_of_injective π.injective t'
            obtain ⟨ht, hshared⟩ := not_shared' hN hN' hπ htag htag'
            show {} = s'.totals.get (π t)
            rw [hst.totals.get_eq]
            exact (h.unused t ht hshared id s hs).totals.symm
        | none => rfl

/-- **What is seen of a reserved byte.** -/
theorem reservedAt?_eq (id : SpaceId) (x : Address) : r.reservedAt? id x = r'.reservedAt? id x := by
  rw [reservedAt?, reservedAt?]
  rcases h.ledger.spaces.cases_space? id with ⟨hs, hs'⟩ | ⟨s, s', hs, hs', hst⟩
  · rw [hs, hs']
    rfl
  · have htag := h.shared_of_tag (fun t ht => (ht id s hs).reserved) x
    rw [hs, hs', Option.map_some, Option.map_some, hst.reserved, RegionMap.sideAt_renumber]
    dsimp only
    rw [Side.tag_renumber, name?_renumber hN hN' hπ htag, ← h.ledger.callStacks]
    rfl

/-- **What is seen of a committed byte.** -/
theorem committedAt?_eq (id : SpaceId) (x : Address) :
    r.committedAt? id x = r'.committedAt? id x := by
  rw [committedAt?, committedAt?]
  rcases h.ledger.spaces.cases_space? id with ⟨hs, hs'⟩ | ⟨s, s', hs, hs', hst⟩
  · rw [hs, hs']
    rfl
  · rw [hs, hs', Option.bind_some, Option.bind_some]
    rcases hst.committed_cases with ⟨hm, hm'⟩ | ⟨m, hm, hm'⟩
    · rw [hm, hm']
      rfl
    · have htag := h.shared_of_tag (fun t ht => (ht id s hs).committed m hm) x
      rw [hm, hm', Option.map_some, Option.map_some, RegionMap.sideAt_renumber]
      dsimp only
      rw [Side.tag_renumber, name?_renumber hN hN' hπ htag, ← h.ledger.callStacks]
      rfl

end Alike

/-- No record is refused for want of a tag. -/
def TagsSuffice (r : Replay) (records : List Record) : Prop :=
  ∀ answer ∈ r.answers records, exhausts answer = false

instance (r : Replay) (records : List Record) : Decidable (r.TagsSuffice records) :=
  inferInstanceAs (Decidable (∀ answer ∈ r.answers records, exhausts answer = false))

/-- **How tags are numbered cannot be seen.**  Two replays of the same records that start from tables
of any names, and that find tags enough, accept the same records, end with the same counts and know
the same spaces; and for every space they have filed the same counters under every name of a tag, and
see the same state, name of a tag, mapping and frames at every address of both maps. -/
theorem numbering_is_invisible (config : Config) (names names' : List String) (records : List Record)
    (htags : (create config (.ofNames names)).TagsSuffice records)
    (htags' : (create config (.ofNames names')).TagsSuffice records) :
    ((create config (.ofNames names)).answers records).map Except.isOk =
      ((create config (.ofNames names')).answers records).map Except.isOk ∧
    ((create config (.ofNames names)).after records).stats =
      ((create config (.ofNames names')).after records).stats ∧
    ((create config (.ofNames names)).after records).spaces =
      ((create config (.ofNames names')).after records).spaces ∧
    ∀ id,
      (∀ name, ((create config (.ofNames names)).after records).filed id name =
        ((create config (.ofNames names')).after records).filed id name) ∧
      ∀ x,
        ((create config (.ofNames names)).after records).reservedAt? id x =
          ((create config (.ofNames names')).after records).reservedAt? id x ∧
        ((create config (.ofNames names)).after records).committedAt? id x =
          ((create config (.ofNames names')).after records).committedAt? id x := by
  have hr := sound_create config (TagNames.sound_ofNames names)
  have hr' := sound_create config (TagNames.sound_ofNames names')
  have hN := (hr.after records).names
  have hN' := (hr'.after records).names
  obtain ⟨π, hπ⟩ := hN.exists_matches hN'
  have hstart : Alike π ((create config (.ofNames names)).after records).names
      ((create config (.ofNames names')).after records).names (create config (.ofNames names))
      (create config (.ofNames names')) :=
    ⟨⟨.create π config, rfl, rfl, rfl⟩, fun t ht _ => .create ht config⟩
  obtain ⟨haccepted, h⟩ := hstart.after hr hr' hπ (.refl _) (.refl _) htags htags'
  refine ⟨haccepted, h.stats, h.spaces, ?_⟩
  intro id
  refine ⟨h.filed_eq hN hN' hπ id, ?_⟩
  intro x
  exact ⟨h.reservedAt?_eq hN hN' hπ id x, h.committedAt?_eq hN hN' hπ id x⟩

/-- A session with a device onto which a part of the heap is mapped; its third record names a space
that does not exist. -/
def mappedSession : List Record :=
  [.space "gpu", .reserve "process" 0x10000 0x4000 "heap" [0x4010, 0x4200],
    .commit "disk" 0x0 0x1000 "heap" [], .commit "process" 0x10000 0x1000 "stack" [0x4010],
    .map "gpu" 0x12000 0x1000 0x0 "textures" [0x4300], .commit "gpu" 0x0 0x800 "textures" [],
    .retag "process" 0x13000 0x1000 "code", .release "process" 0x10000 0x800]

/-- Two replays of the session give the heap different tags, and it holds the same bytes in both. -/
theorem mapped_session_numbered_twice :
    ((create {} (.ofNames ["code", "textures"])).after mappedSession).names.tag? "heap" = some ⟨3⟩ ∧
    ((create {} (.ofNames [])).after mappedSession).names.tag? "heap" = some ⟨1⟩ ∧
    ((create {} (.ofNames ["code", "textures"])).after mappedSession).filed .process "heap" =
      { reserved := 0x1800, committed := 0x800, peak := 0x1000 } ∧
    ((create {} (.ofNames [])).after mappedSession).filed .process "heap" =
      { reserved := 0x1800, committed := 0x800, peak := 0x1000 } := by
  have htags : (create {} (.ofNames ["code", "textures"])).TagsSuffice mappedSession := by
    decide +kernel
  have htags' : (create {} (.ofNames [])).TagsSuffice mappedSession := by decide +kernel
  obtain ⟨_, _, _, hbytes⟩ := numbering_is_invisible {} _ _ mappedSession htags htags'
  have hfiled : ((create {} (.ofNames ["code", "textures"])).after mappedSession).filed .process
      "heap" = { reserved := 0x1800, committed := 0x800, peak := 0x1000 } := by decide +kernel
  exact ⟨by decide +kernel, by decide +kernel, hfiled, ((hbytes .process).1 "heap").symm.trans hfiled⟩

end Replay

end RegionLedger
