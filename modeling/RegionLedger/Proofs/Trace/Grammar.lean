import Mathlib.Data.List.ReduceOption
import Mathlib.Data.List.TakeWhile
import RegionLedger.Proofs.Steps
import RegionLedger.Proofs.Text.Numerals
import RegionLedger.Proofs.Text.Words
import RegionLedger.Trace.Record

/-!
# The grammar of traces

A line of a trace is a record if its words have one of eight forms, and says nothing if it has no
words.  The forms are given here as rules on words; a line is read exactly if one of them fits, and a
trace exactly if all its lines are.

* `Trace.NumberWord` — the words that are numbers; `Trace.number_eq_ok_iff`.
* `Trace.Form` — the forms of a record; `Trace.readFields_eq_ok_iff`.
* `Trace.Fields` — the words of a line before its comment.
* `Trace.read_follows_grammar` — words, lines and traces.
-/

namespace RegionLedger

namespace Trace

/-! ## Numbers -/

/-- The marks that may stand before a numeral. -/
inductive Mark : Text.Radix → List Char → Prop where
  | decimal : Mark .decimal []
  | lower : Mark .hexadecimal ['0', 'x']
  | upper : Mark .hexadecimal ['0', 'X']

/-- The word is the number `n`: without its underscores it is a mark and a numeral of the base that
the mark stands for. -/
def NumberWord (word : List Char) (n : UInt64) : Prop :=
  ∃ radix mark numeral, word.filter (· != '_') = mark ++ numeral ∧ Mark radix mark ∧
    Text.Numeral radix numeral n.toNat

/-- A decimal numeral has no letter in the second place. -/
lemma not_numeral_marked {c : Char} (hc : Text.Radix.decimal.digit? c = none)
    (cs : List Char) (n : ℕ) : ¬ Text.Numeral .decimal ('0' :: c :: cs) n := by
  rw [Text.numeral_iff_of_head_ne (by simp)]
  rintro ⟨_, values, hvalues, _⟩
  cases hvalues with
  | cons _ hrest =>
      cases hrest with
      | cons hdigit _ =>
          rw [← Text.Radix.digit?_eq_some_iff, hc] at hdigit
          cases hdigit

/-- **The words that are numbers.** -/
theorem number_eq_ok_iff (word : List Char) (n : UInt64) :
    number word = .ok n ↔ NumberWord word n := by
  rw [number, mapError_eq_ok_iff, NumberWord]
  generalize word.filter (· != '_') = cs
  constructor
  · intro h
    split at h
    · next digits =>
        exact ⟨_, _, digits, rfl, .lower, (Text.readWord_eq_ok_iff _ _ _).mp h⟩
    · next digits =>
        exact ⟨_, _, digits, rfl, .upper, (Text.readWord_eq_ok_iff _ _ _).mp h⟩
    · exact ⟨_, _, cs, rfl, .decimal, (Text.readWord_eq_ok_iff _ _ _).mp h⟩
  · rintro ⟨radix, mark, numeral, rfl, hmark, hnumeral⟩
    cases hmark with
    | lower => exact (Text.readWord_eq_ok_iff _ _ _).mpr hnumeral
    | upper => exact (Text.readWord_eq_ok_iff _ _ _).mpr hnumeral
    | decimal =>
        rw [List.nil_append]
        split
        · exact absurd hnumeral (not_numeral_marked rfl _ _)
        · exact absurd hnumeral (not_numeral_marked rfl _ _)
        · exact (Text.readWord_eq_ok_iff _ _ _).mpr hnumeral

/-! ## Fields -/

variable {ws rest : List (List Char)}

lemma takeWord_eq_ok_iff (field s : String) :
    takeWord field ws = .ok (s, rest) ↔ ∃ w, ws = w :: rest ∧ s = String.ofList w := by
  cases ws with
  | nil => simp [takeWord]
  | cons w ws =>
      rw [takeWord, Except.ok.injEq, Prod.mk.injEq]
      constructor
      · rintro ⟨rfl, rfl⟩
        exact ⟨w, rfl, rfl⟩
      · rintro ⟨_, ⟨⟩, rfl⟩
        exact ⟨rfl, rfl⟩

lemma takeNumber_eq_ok_iff (field : String) (n : UInt64) :
    takeNumber field ws = .ok (n, rest) ↔ ∃ w, ws = w :: rest ∧ NumberWord w n := by
  cases ws with
  | nil => simp [takeNumber]
  | cons w ws =>
      have hw := number_eq_ok_iff w n
      rw [takeNumber]
      cases hnumber : number w with
      | error e =>
          rw [hnumber] at hw
          simp only [reduceCtorEq, false_iff] at hw ⊢
          rintro ⟨_, ⟨⟩, hn⟩
          exact hw hn
      | ok m =>
          rw [hnumber, Except.ok.injEq] at hw
          simp only [Except.ok.injEq, Prod.mk.injEq, hw]
          constructor
          · rintro ⟨hn, rfl⟩
            exact ⟨w, rfl, hn⟩
          · rintro ⟨_, ⟨⟩, hn⟩
            exact ⟨hn, rfl⟩

lemma frames_eq_ok_iff (fs : List Address) : frames ws = .ok fs ↔ List.Forall₂ NumberWord ws fs := by
  induction ws generalizing fs with
  | nil =>
      rw [frames, Except.ok.injEq, List.forall₂_nil_left_iff]
      exact eq_comm
  | cons w ws ih =>
      rw [frames, List.forall₂_cons_left_iff]
      simp only [← number_eq_ok_iff]
      cases number w with
      | error e => simp
      | ok n =>
          simp only [Except.ok.injEq]
          cases hframes : frames ws with
          | error e => simp [Except.map, ← ih, hframes]
          | ok rest => simp [Except.map, ← ih, hframes, eq_comm]

lemma finish_eq_ok_iff (u : Unit) : finish ws = .ok u ↔ ws = [] := by
  cases ws with
  | nil => simp [finish]
  | cons w ws => simp [finish]

lemma takeRange_eq_ok_iff (space : String) (start size : UInt64) :
    takeRange ws = .ok ((space, start, size), rest) ↔
      ∃ w a n, ws = w :: a :: n :: rest ∧ space = String.ofList w ∧
        NumberWord a start ∧ NumberWord n size := by
  simp only [takeRange, bind_eq_ok_iff, Prod.exists, takeWord_eq_ok_iff, takeNumber_eq_ok_iff]
  constructor
  · rintro ⟨_, _, ⟨w, rfl, rfl⟩, _, _, ⟨a, rfl, ha⟩, _, _, ⟨n, rfl, hn⟩, hok⟩
    obtain ⟨⟨rfl, rfl, rfl⟩, rfl⟩ := by simpa [pure, Except.pure] using hok
    exact ⟨w, a, n, rfl, rfl, ha, hn⟩
  · rintro ⟨w, a, n, rfl, rfl, ha, hn⟩
    exact ⟨_, _, ⟨w, rfl, rfl⟩, _, _, ⟨a, rfl, ha⟩, _, _, ⟨n, rfl, hn⟩, rfl⟩

/-! ## Records -/

/-- The words are a record of one of the eight forms.  Names are taken as they stand; the words at
the end of some forms are the frames of a call stack. -/
inductive Form : List (List Char) → Record → Prop where
  | space {name} : Form ["space".toList, name] (.space (.ofList name))
  | reserve {space a n tag fs start size frames} (address : NumberWord a start)
      (length : NumberWord n size) (calls : List.Forall₂ NumberWord fs frames) :
      Form ("reserve".toList :: space :: a :: n :: tag :: fs)
        (.reserve (.ofList space) start size (.ofList tag) frames)
  | commit {space a n tag fs start size frames} (address : NumberWord a start)
      (length : NumberWord n size) (calls : List.Forall₂ NumberWord fs frames) :
      Form ("commit".toList :: space :: a :: n :: tag :: fs)
        (.commit (.ofList space) start size (.ofList tag) frames)
  | uncommit {space a n fs start size frames} (address : NumberWord a start)
      (length : NumberWord n size) (calls : List.Forall₂ NumberWord fs frames) :
      Form ("uncommit".toList :: space :: a :: n :: fs)
        (.uncommit (.ofList space) start size frames)
  | release {space a n start size} (address : NumberWord a start) (length : NumberWord n size) :
      Form ["release".toList, space, a, n] (.release (.ofList space) start size)
  | unmap {space a n base size} (address : NumberWord a base) (length : NumberWord n size) :
      Form ["unmap".toList, space, a, n] (.unmap (.ofList space) base size)
  | map {space a n o tag fs base size offset frames} (address : NumberWord a base)
      (length : NumberWord n size) (onto : NumberWord o offset)
      (calls : List.Forall₂ NumberWord fs frames) :
      Form ("map".toList :: space :: a :: n :: o :: tag :: fs)
        (.map (.ofList space) base size offset (.ofList tag) frames)
  | retag {space a n tag start size} (address : NumberWord a start) (length : NumberWord n size) :
      Form ["tag".toList, space, a, n, tag] (.retag (.ofList space) start size (.ofList tag))

lemma form_of_readFields {operation : List Char} {ws : List (List Char)} {r : Record}
    (h : readFields (String.ofList operation) ws = .ok r) : Form (operation :: ws) r := by
  have hname : ∀ s : String, String.ofList operation = s → operation = s.toList := by
    rintro _ rfl
    exact String.toList_ofList.symm
  unfold readFields at h
  split at h
  case h_9 => cases h
  all_goals
    simp only [bind_eq_ok_iff, Prod.exists, takeWord_eq_ok_iff, takeRange_eq_ok_iff,
      takeNumber_eq_ok_iff, frames_eq_ok_iff, finish_eq_ok_iff, pure, Except.pure,
      Except.ok.injEq] at h
  · next hop =>
      obtain ⟨_, _, ⟨name, rfl, rfl⟩, _, rfl, rfl⟩ := h
      rw [hname _ hop]
      exact .space
  · next hop =>
      obtain ⟨_, _, _, _, ⟨_, _, _, rfl, rfl, ha, hn⟩, _, _, ⟨_, rfl, rfl⟩, _, hfs, rfl⟩ := h
      rw [hname _ hop]
      exact .reserve ha hn hfs
  · next hop =>
      obtain ⟨_, _, _, _, ⟨_, _, _, rfl, rfl, ha, hn⟩, _, _, ⟨_, rfl, rfl⟩, _, hfs, rfl⟩ := h
      rw [hname _ hop]
      exact .commit ha hn hfs
  · next hop =>
      obtain ⟨_, _, _, _, ⟨_, _, _, rfl, rfl, ha, hn⟩, _, hfs, rfl⟩ := h
      rw [hname _ hop]
      exact .uncommit ha hn hfs
  · next hop =>
      obtain ⟨_, _, _, _, ⟨_, _, _, rfl, rfl, ha, hn⟩, _, rfl, rfl⟩ := h
      rw [hname _ hop]
      exact .release ha hn
  · next hop =>
      obtain ⟨_, _, _, _, ⟨_, _, _, rfl, rfl, ha, hn⟩, _, rfl, rfl⟩ := h
      rw [hname _ hop]
      exact .unmap ha hn
  · next hop =>
      obtain ⟨_, _, _, _, ⟨_, _, _, rfl, rfl, ha, hn⟩, _, _, ⟨_, rfl, ho⟩, _, _, ⟨_, rfl, rfl⟩, _,
        hfs, rfl⟩ := h
      rw [hname _ hop]
      exact .map ha hn ho hfs
  · next hop =>
      obtain ⟨_, _, _, _, ⟨_, _, _, rfl, rfl, ha, hn⟩, _, _, ⟨_, rfl, rfl⟩, _, rfl, rfl⟩ := h
      rw [hname _ hop]
      exact .retag ha hn

lemma readFields_of_form {operation : List Char} {ws : List (List Char)} {r : Record}
    (h : Form (operation :: ws) r) : readFields (String.ofList operation) ws = .ok r := by
  have hrange : ∀ {space a n : List Char} {start size : UInt64} (rest : List (List Char)),
      NumberWord a start → NumberWord n size →
        takeRange (space :: a :: n :: rest) = .ok ((.ofList space, start, size), rest) := by
    intro space a n start size rest ha hn
    exact (takeRange_eq_ok_iff _ _ _).mpr ⟨_, _, _, rfl, rfl, ha, hn⟩
  cases h with
  | space =>
      rw [String.ofList_toList]
      rfl
  | reserve ha hn hfs =>
      rw [String.ofList_toList, readFields, hrange _ ha hn]
      show (frames _ >>= fun fs => _) = _
      rw [(frames_eq_ok_iff _).mpr hfs]
      rfl
  | commit ha hn hfs =>
      rw [String.ofList_toList, readFields, hrange _ ha hn]
      show (frames _ >>= fun fs => _) = _
      rw [(frames_eq_ok_iff _).mpr hfs]
      rfl
  | uncommit ha hn hfs =>
      rw [String.ofList_toList, readFields, hrange _ ha hn]
      show (frames _ >>= fun fs => _) = _
      rw [(frames_eq_ok_iff _).mpr hfs]
      rfl
  | release ha hn =>
      rw [String.ofList_toList, readFields, hrange _ ha hn]
      rfl
  | unmap ha hn =>
      rw [String.ofList_toList, readFields, hrange _ ha hn]
      rfl
  | map ha hn ho hfs =>
      rw [String.ofList_toList, readFields, hrange _ ha hn]
      show (takeNumber "offset" _ >>= fun _ => _) = _
      rw [(takeNumber_eq_ok_iff _ _).mpr ⟨_, rfl, ho⟩]
      show (frames _ >>= fun fs => _) = _
      rw [(frames_eq_ok_iff _).mpr hfs]
      rfl
  | retag ha hn =>
      rw [String.ofList_toList, readFields, hrange _ ha hn]
      rfl

/-- **The fields of a record** are read exactly if they have one of the forms. -/
theorem readFields_eq_ok_iff (operation : List Char) (ws : List (List Char)) (r : Record) :
    readFields (String.ofList operation) ws = .ok r ↔ Form (operation :: ws) r :=
  ⟨form_of_readFields, readFields_of_form⟩

/-! ## Lines -/

/-- The fields of a line are the words of its text before the first `#`. -/
def Fields (line : List Char) (fields : List (List Char)) : Prop :=
  ∃ code comment, line = code ++ comment ∧ '#' ∉ code ∧ (comment = [] ∨ comment.head? = some '#') ∧
    Text.Spaced code fields

/-- A line has its fields in one way only. -/
lemma fields_iff {line : List Char} {fields : List (List Char)} :
    Fields line fields ↔ fields = Text.words (stripComment line) := by
  constructor
  · rintro ⟨code, comment, rfl, hcode, hcomment, hspaced⟩
    have hkeep : ∀ c ∈ code, (c != '#') = true := by
      intro c hc
      rw [bne_iff_ne]
      rintro rfl
      exact hcode hc
    have hdrop : comment.takeWhile (· != '#') = [] := by
      rcases hcomment with rfl | hhead
      · rfl
      · obtain ⟨rest, rfl⟩ := List.head?_eq_some_iff.mp hhead
        rfl
    rw [stripComment, List.takeWhile_append_of_pos hkeep, hdrop, List.append_nil]
    exact Text.spaced_iff.mp hspaced
  · rintro rfl
    refine ⟨stripComment line, line.dropWhile (· != '#'), ?_, ?_, ?_, Text.spaced_iff.mpr rfl⟩
    · exact List.takeWhile_append_dropWhile.symm
    · intro hmem
      have hkept := List.mem_takeWhile_imp hmem
      exact absurd rfl (bne_iff_ne.mp hkept)
    · cases hrest : line.dropWhile (· != '#') with
      | nil => exact .inl rfl
      | cons c rest =>
          have hstop := List.head?_dropWhile_not (· != '#') line
          rw [hrest] at hstop
          exact .inr (by simpa using hstop)

/-- **What a line says.**  It says nothing if it has no fields, and else it is the record of the form
that its fields have. -/
lemma readLine_eq_ok_iff {line : List Char} {fields : List (List Char)} (h : Fields line fields) :
    (readLine line = .ok none ↔ fields = []) ∧
      ∀ r, readLine line = .ok (some r) ↔ Form fields r := by
  rw [readLine, ← fields_iff.mp h]
  cases fields with
  | nil => exact ⟨iff_of_true rfl rfl, fun r => ⟨nofun, nofun⟩⟩
  | cons operation ws =>
      have hform := readFields_eq_ok_iff operation ws
      simp only
      cases hread : readFields (String.ofList operation) ws with
      | error e =>
          simp only [hread, reduceCtorEq, false_iff] at hform
          exact ⟨⟨nofun, nofun⟩, fun r => ⟨nofun, fun hr => absurd hr (hform r)⟩⟩
      | ok r =>
          simp only [hread, Except.ok.injEq] at hform
          exact ⟨⟨nofun, nofun⟩, fun r' => by simp [Except.map, ← hform]⟩

/-- A line is refused exactly if it has fields and they have none of the forms. -/
lemma readLine_eq_error_iff {line : List Char} {fields : List (List Char)} (h : Fields line fields) :
    (∃ e, readLine line = .error e) ↔ fields ≠ [] ∧ ∀ r, ¬ Form fields r := by
  obtain ⟨hnone, hsome⟩ := readLine_eq_ok_iff h
  simp only [ne_eq, ← hnone, ← hsome]
  cases readLine line with
  | error e => simp
  | ok r => cases r <;> simp

/-! ## Traces -/

/-- The records of lines that all can be read. -/
lemma readLines_eq_ok_iff (n : ℕ) (ls : List (List Char)) (records : List Record) :
    readLines n ls = .ok records ↔
      ∃ said, List.Forall₂ (fun line r => readLine line = .ok r) ls said ∧
        records = said.reduceOption := by
  induction ls generalizing n records with
  | nil =>
      rw [readLines, Except.ok.injEq]
      constructor
      · rintro rfl
        exact ⟨[], .nil, rfl⟩
      · rintro ⟨said, hsaid, rfl⟩
        cases hsaid
        rfl
  | cons line ls ih =>
      rw [readLines]
      cases hline : readLine line with
      | error cause =>
          simp only [reduceCtorEq, false_iff]
          rintro ⟨said, hsaid, _⟩
          cases hsaid with
          | cons hr _ =>
              rw [hline] at hr
              cases hr
      | ok r =>
          have happend : ∀ said : List (Option Record),
              (r :: said).reduceOption = r.toList ++ said.reduceOption := by
            intro said
            cases r <;> rfl
          simp only
          constructor
          · intro h
            cases hrest : readLines (n + 1) ls with
            | error e =>
                rw [hrest] at h
                cases h
            | ok rest =>
                rw [hrest] at h
                obtain ⟨said, hsaid, rfl⟩ := (ih _ _).mp hrest
                refine ⟨r :: said, .cons hline hsaid, ?_⟩
                rw [happend]
                exact (Except.ok.inj h).symm
          · rintro ⟨said, hsaid, rfl⟩
            cases hsaid with
            | cons hr hsaid =>
                obtain rfl := Except.ok.inj (hline.symm.trans hr)
                rw [(ih _ _).mpr ⟨_, hsaid, rfl⟩, happend]
                rfl

/-- The first line that cannot be read. -/
lemma readLines_eq_error_iff (n : ℕ) (ls : List (List Char)) (e : TraceError) :
    readLines n ls = .error e ↔
      ∃ before line after, ls = before ++ line :: after ∧
        (∀ earlier ∈ before, ∃ r, readLine earlier = .ok r) ∧
        readLine line = .error e.cause ∧ e.line = n + before.length := by
  induction ls generalizing n with
  | nil => simp [readLines]
  | cons line ls ih =>
      rw [readLines]
      cases hline : readLine line with
      | error cause =>
          rw [Except.error.injEq]
          constructor
          · rintro rfl
            exact ⟨[], line, ls, rfl, by simp, hline, rfl⟩
          · rintro ⟨before, line', after, hsplit, hbefore, hline', hnumber⟩
            cases before with
            | nil =>
                obtain ⟨rfl, rfl⟩ := List.cons.inj hsplit
                rw [hline, Except.error.injEq] at hline'
                obtain ⟨number, cause'⟩ := e
                simp only [List.length_nil, Nat.add_zero] at hnumber hline'
                rw [hnumber, hline']
            | cons first before =>
                obtain ⟨rfl, rfl⟩ := List.cons.inj hsplit
                obtain ⟨r, hr⟩ := hbefore _ List.mem_cons_self
                rw [hline] at hr
                cases hr
      | ok r =>
          have hrest : (readLines (n + 1) ls).map (r.toList ++ ·) = .error e ↔
              readLines (n + 1) ls = .error e := by
            cases readLines (n + 1) ls <;> simp [Except.map]
          simp only [hrest, ih]
          constructor
          · rintro ⟨before, line', after, rfl, hbefore, hline', hnumber⟩
            refine ⟨line :: before, line', after, rfl, ?_, hline', by simp; omega⟩
            simpa [hline] using hbefore
          · rintro ⟨before, line', after, hsplit, hbefore, hline', hnumber⟩
            cases before with
            | nil =>
                obtain ⟨rfl, rfl⟩ := List.cons.inj hsplit
                rw [hline] at hline'
                cases hline'
            | cons first before =>
                obtain ⟨rfl, rfl⟩ := List.cons.inj hsplit
                refine ⟨before, line', after, rfl, ?_, hline', by simp at hnumber; omega⟩
                intro earlier hmem
                exact hbefore earlier (List.mem_cons_of_mem _ hmem)

/-- **Traces are read by their grammar.**  A word is a number exactly if it is a numeral, apart from
underscores and behind a mark for its base.  A line has its fields in one way; it says nothing exactly
if it has none, is a record exactly if they have its form, and is refused else.  A text has its lines
in one way; it is read exactly if all of them are, into the records that they hold, and else the
refusal names the first line that is refused by its number among all lines. -/
theorem read_follows_grammar :
    (∀ word n, number word = .ok n ↔ NumberWord word n) ∧
    (∀ line, ∃ fields, (∀ fields', Fields line fields' ↔ fields' = fields) ∧
      (readLine line = .ok none ↔ fields = []) ∧
      (∀ r, readLine line = .ok (some r) ↔ Form fields r) ∧
      ((∃ e, readLine line = .error e) ↔ fields ≠ [] ∧ ∀ r, ¬ Form fields r)) ∧
    (∀ text : String, ∃ lines, (∀ lines', Text.Lined text.toList lines' ↔ lines' = lines) ∧
      (∀ records, read text = .ok records ↔
        ∃ said, List.Forall₂ (fun line r => readLine line = .ok r) lines said ∧
          records = said.reduceOption) ∧
      ∀ e, read text = .error e ↔
        ∃ before line after, lines = before ++ line :: after ∧
          (∀ earlier ∈ before, ∃ r, readLine earlier = .ok r) ∧
          readLine line = .error e.cause ∧ e.line = before.length + 1) ∧
    ∀ line cause, (TraceError.mk line cause).chain.head? = some s!"trace line {line}" := by
  refine ⟨number_eq_ok_iff, ?_, ?_, fun _ _ => rfl⟩
  · intro line
    have hfields : Fields line (Text.words (stripComment line)) := fields_iff.mpr rfl
    obtain ⟨hnone, hsome⟩ := readLine_eq_ok_iff hfields
    exact ⟨_, fun _ => fields_iff, hnone, hsome, readLine_eq_error_iff hfields⟩
  · intro text
    refine ⟨Text.lines text.toList, fun _ => Text.lined_iff, readLines_eq_ok_iff 1 _, ?_⟩
    intro e
    rw [read, readLines_eq_error_iff]
    simp only [Nat.add_comm 1]

end Trace

end RegionLedger
