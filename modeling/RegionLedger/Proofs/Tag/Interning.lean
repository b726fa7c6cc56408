import RegionLedger.Proofs.Tag.Names

/-!
# What a table has numbered

A table that is asked for names numbers the different ones among them, in the order in which they
first come up and after that of untagged memory, until every number is taken.  Later on a name is
looked up only; a name that is still new when the numbers are used up is refused, and goes on being
refused.  So the list of the names that were asked for says all that the table knows.

* `TagNames.firstNames` — the names that get a number.
* `TagNames.toList_names_ofNames` — they stand in the table in this order.
* `TagNames.Interns`, `TagNames.Sound.interns` — all that asking for a name can do.
* `TagNames.names_and_tags_correspond` — names and tags of a table belong to each other, one to one.
-/

namespace RegionLedger

namespace TagNames

variable {t : TagNames} {name : String} {tag : Tag}

/-! ## One name -/

/-- A name has a tag if it stands in the table. -/
lemma Sound.isSome_tag?_iff (ht : t.Sound) (name : String) :
    (t.tag? name).isSome ↔ name ∈ t.names.toList := by
  rw [Option.isSome_iff_exists, List.mem_iff_getElem?]
  constructor
  · rintro ⟨tag, htag⟩
    rw [ht.tag?_eq_some_iff] at htag
    exact ⟨tag.raw.toNat, by rw [Array.getElem?_toList]; exact htag⟩
  · rintro ⟨i, hi⟩
    rw [Array.getElem?_toList] at hi
    have hlt : i < t.names.size := (Array.getElem?_eq_some_iff.mp hi).1
    refine ⟨⟨UInt16.ofNat i⟩, (ht.tag?_eq_some_iff name _).mpr ?_⟩
    rwa [name?, UInt16.toNat_ofNat_of_lt' (hlt.trans_le ht.size_le)]

lemma Sound.tag?_eq_none_iff (ht : t.Sound) (name : String) :
    t.tag? name = none ↔ name ∉ t.names.toList := by
  rw [← ht.isSome_tag?_iff, Option.not_isSome_iff_eq_none]

/-- The tags that have a name are those below the number of names. -/
lemma isSome_name?_iff (t : TagNames) (tag : Tag) : (t.name? tag).isSome ↔ tag.raw.toNat < t.size := by
  rw [name?, isSome_getElem?]
  rfl

/-- All that asking for a name can do. -/
inductive Interns (t : TagNames) (name : String) : Except TagError Tag × TagNames → Prop where
  /-- A name that has a tag is looked up. -/
  | known (tag : Tag) (old : t.tag? name = some tag) : Interns t name (.ok tag, t)
  /-- A new name gets the tag whose number is the number of names so far; nothing else changes. -/
  | numbered (tag : Tag) (u : TagNames) (new : t.tag? name = none) (room : t.size < 65536)
      (raw : tag.raw.toNat = t.size) (size : u.size = t.size + 1)
      (tags : ∀ other, u.tag? other = if other = name then some tag else t.tag? other)
      (names : ∀ other, u.name? other = if other = tag then some name else t.name? other) :
      Interns t name (.ok tag, u)
  /-- With a name for every number, a new name is refused. -/
  | refused (new : t.tag? name = none) (full : t.size = 65536) :
      Interns t name (.error (.exhausted name), t)

/-- **All that asking for a name can do.** -/
theorem Sound.interns (ht : t.Sound) (name : String) : t.Interns name (t.intern name) := by
  cases hname : t.tag? name with
  | some tag =>
      rw [intern_of_tag? hname]
      exact .known tag hname
  | none =>
      by_cases hroom : t.names.size < UInt16.size
      · rw [intern_of_room hname hroom]
        refine .numbered _ _ hname hroom (UInt16.toNat_ofNat_of_lt' hroom)
          (Array.size_push name) ?_ ?_
        · intro other
          rw [tag?_add]
          exact if_congr eq_comm rfl rfl
        · exact name?_add hroom name
      · rw [intern_of_full hname hroom]
        exact .refused hname (le_antisymm ht.size_le (not_lt.mp hroom))

/-- A name is refused if it is new and every number is taken. -/
lemma Interns.refused_iff {p : Except TagError Tag × TagNames} (h : t.Interns name p) :
    (∃ e, p.1 = .error e) ↔ t.tag? name = none ∧ t.size = 65536 := by
  cases h with
  | known tag old => simp [old]
  | numbered tag u new room => simp [room.ne]
  | refused new full => simp [new, full]

/-- The names of a table once a name is asked for. -/
lemma Sound.toList_names_intern (ht : t.Sound) (name : String) :
    (t.intern name).2.names.toList =
      if name ∈ t.names.toList ∨ t.names.toList.length = UInt16.size then t.names.toList
      else t.names.toList ++ [name] := by
  have hnew := ht.tag?_eq_none_iff name
  rw [Array.length_toList]
  cases hname : t.tag? name with
  | some tag =>
      have hmem : name ∈ t.names.toList := (ht.isSome_tag?_iff name).mp (Option.isSome_of_eq_some hname)
      rw [intern_of_tag? hname, if_pos (.inl hmem)]
  | none =>
      by_cases hroom : t.names.size < UInt16.size
      · rw [intern_of_room hname hroom, if_neg (not_or_intro (hnew.mp hname) hroom.ne)]
        exact Array.toList_push
      · rw [intern_of_full hname hroom, if_pos (.inr (le_antisymm ht.size_le (not_lt.mp hroom)))]

/-! ## A list of names -/

/-- The names that get a number, in the order of their numbers: the different ones among those that
are asked for, that of untagged memory first, as far as the numbers go. -/
def firstNames (asked : List String) : List String :=
  (untaggedName :: asked).eraseDups.take UInt16.size

lemma ofNames_concat (asked : List String) (name : String) :
    ofNames (asked ++ [name]) = ((ofNames asked).intern name).2 := by
  rw [ofNames, List.foldl_concat]
  rfl

/-- A name that comes last changes nothing if it came up before. -/
lemma eraseDups_concat (l : List String) (name : String) :
    (l ++ [name]).eraseDups = if name ∈ l then l.eraseDups else l.eraseDups ++ [name] := by
  rw [List.eraseDups_append, List.removeAll, List.filter_singleton]
  split_ifs with hname
  · rw [List.elem_eq_true_of_mem hname]
    exact List.append_nil _
  · rw [Bool.eq_false_iff.mpr fun h => hname (List.mem_of_elem_eq_true h)]
    rfl

lemma firstNames_concat (asked : List String) (name : String) :
    firstNames (asked ++ [name]) =
      if name ∈ firstNames asked ∨ (firstNames asked).length = UInt16.size then firstNames asked
      else firstNames asked ++ [name] := by
  have hold : name ∈ untaggedName :: asked ↔ name ∈ (untaggedName :: asked).eraseDups :=
    List.mem_eraseDups.symm
  rw [firstNames, ← List.cons_append, eraseDups_concat, firstNames, List.length_take]
  generalize (untaggedName :: asked).eraseDups = different at hold ⊢
  rw [if_congr hold rfl rfl]
  rcases Nat.lt_or_ge different.length UInt16.size with hlt | hge
  · -- all different names have a number, and there is room for one more
    rw [List.take_of_length_le hlt.le, min_eq_right hlt.le, if_congr (or_iff_left hlt.ne) rfl rfl]
    refine List.take_of_length_le ?_
    split_ifs
    · exact hlt.le
    · rw [List.length_append]
      exact hlt
  · have htake : (if name ∈ different then different else different ++ [name]).take UInt16.size =
        different.take UInt16.size := by
      split_ifs
      · rfl
      · exact List.take_append_of_le_length hge
    rw [min_eq_left hge, htake]
    exact (if_pos (.inr rfl)).symm

/-- **The names of a table** stand in it in the order in which they were first asked for. -/
theorem toList_names_ofNames (asked : List String) :
    (ofNames asked).names.toList = firstNames asked := by
  induction asked using List.reverseRecOn with
  | nil => rfl
  | append_singleton asked name ih =>
      rw [ofNames_concat, (sound_ofNames asked).toList_names_intern, ih, firstNames_concat]

example : firstNames ["heap", "none", "code", "heap"] = ["none", "heap", "code"] := by decide

/-- **Names and tags of a table belong to each other.**  A new table is asked for any names.  Then it
has named the tags from zero on, in the order in which the names first came up after that of untagged
memory, and no others; the tag of a name is the one that it names, and nothing else has a tag.  One
more name is looked up if it has a tag; if not, it gets the tag after those that are named, and the
others stay as they are, unless there are as many as there are numbers: then, and only then, it is
refused, and the table stays as it was. -/
theorem names_and_tags_correspond (asked : List String) :
    (∀ tag, (ofNames asked).name? tag = (firstNames asked)[tag.raw.toNat]?) ∧
    (∀ tag, ((ofNames asked).name? tag).isSome ↔ tag.raw.toNat < (ofNames asked).size) ∧
    (∀ name tag, (ofNames asked).tag? name = some tag ↔ (ofNames asked).name? tag = some name) ∧
    (∀ name, ((ofNames asked).tag? name).isSome ↔ name ∈ firstNames asked) ∧
    (ofNames asked).tag? "none" = some ⟨0⟩ ∧
    ∀ name, (ofNames asked).Interns name ((ofNames asked).intern name) ∧
      ((∃ e, ((ofNames asked).intern name).1 = .error e) ↔
        (ofNames asked).tag? name = none ∧ (ofNames asked).size = 65536) := by
  have hsound := sound_ofNames asked
  have hnames := toList_names_ofNames asked
  refine ⟨?_, isSome_name?_iff _, hsound.tag?_eq_some_iff, ?_, hsound.untagged, ?_⟩
  · intro tag
    rw [← hnames, Array.getElem?_toList]
    rfl
  · intro name
    rw [← hnames]
    exact hsound.isSome_tag?_iff name
  · intro name
    exact ⟨hsound.interns name, (hsound.interns name).refused_iff⟩

end TagNames

end RegionLedger
