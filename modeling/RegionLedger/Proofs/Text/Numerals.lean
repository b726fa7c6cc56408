import Mathlib.Data.List.Forall2
import Mathlib.Data.Nat.Digits.Defs
import RegionLedger.Text.Integer

/-!
# Numerals

A numeral of a base is an optional sign and some digits, and stands for their value in that base.
Reading one succeeds exactly if the value is below `2 ^ 64`: since a number only grows by the digits
that follow, it does not matter that the bound is checked at every digit.

* `Text.Radix.Digit` — the digits of a base with their values; `Text.Radix.digit?_eq_some_iff`.
* `Text.Numeral` — a sign, digits, and the value; `Text.readWord_eq_ok_iff`.
-/

namespace RegionLedger

namespace Text

/-! ## Digits -/

/-- The digits up to base sixteen in lower case, each at the place of its value. -/
def lowerDigits : List Char := "0123456789abcdef".toList

/-- The same digits in upper case. -/
def upperDigits : List Char := "0123456789ABCDEF".toList

/-- The character is the digit of value `d` in either case. -/
def Radix.Digit (radix : Radix) (c : Char) (d : ℕ) : Prop :=
  d < radix.base ∧ (lowerDigits[d]? = some c ∨ upperDigits[d]? = some c)

instance (radix : Radix) (c : Char) (d : ℕ) : Decidable (radix.Digit c d) :=
  inferInstanceAs (Decidable (_ ∧ _))

/-- Only ASCII characters are digits. -/
lemma Radix.toNat_lt_of_digit? {radix : Radix} {c : Char} {d : ℕ} (h : radix.digit? c = some d) :
    c.toNat < 128 := by
  have hbelow : ∀ high : Char, high.toNat < 128 → c ≤ high → c.toNat < 128 := by
    intro high hhigh hle
    rw [Char.le_def, UInt32.le_iff_toNat_le] at hle
    exact Nat.lt_of_le_of_lt hle hhigh
  unfold Radix.digit? at h
  split_ifs at h with hdecimal hlower hupper
  · exact hbelow '9' (by decide) hdecimal.2
  · exact hbelow 'f' (by decide) hlower.2
  · exact hbelow 'F' (by decide) hupper.2
  · cases radix <;> cases h

/-- **The digits found are those of the base**, with their values. -/
theorem Radix.digit?_eq_some_iff (radix : Radix) (c : Char) (d : ℕ) :
    radix.digit? c = some d ↔ radix.Digit c d := by
  constructor
  · intro h
    have hascii : ∀ n < 128, ∀ radix ∈ [decimal, hexadecimal],
        ∀ d ∈ radix.digit? (.ofNat n), radix.Digit (.ofNat n) d := by decide +kernel
    have hdigit := hascii c.toNat (toNat_lt_of_digit? h) radix (by cases radix <;> decide)
    rw [Char.ofNat_toNat] at hdigit
    exact hdigit d h
  · rintro ⟨hd, hc⟩
    have hplaces : ∀ radix ∈ [decimal, hexadecimal], ∀ d < radix.base,
        lowerDigits[d]?.bind radix.digit? = some d ∧
          upperDigits[d]?.bind radix.digit? = some d := by decide +kernel
    obtain ⟨hlower, hupper⟩ := hplaces radix (by cases radix <;> decide) d hd
    rcases hc with hc | hc
    · rwa [hc] at hlower
    · rwa [hc] at hupper

/-! ## Values -/

/-- A number with digits appended. -/
def append (radix : Radix) (n : ℕ) (ds : List ℕ) : ℕ := ds.foldl (fun n d => n * radix.base + d) n

lemma append_zero (radix : Radix) (ds : List ℕ) :
    append radix 0 ds = Nat.ofDigits radix.base ds.reverse := by
  rw [Nat.ofDigits_eq_foldr, List.foldr_reverse, append]
  congr 1
  funext n d
  rw [Nat.cast_id, Nat.mul_comm, Nat.add_comm]

lemma le_append (radix : Radix) (n : ℕ) (ds : List ℕ) : n ≤ append radix n ds := by
  induction ds generalizing n with
  | nil => exact Nat.le_refl n
  | cons d ds ih =>
      have hbase : 1 ≤ radix.base := by cases radix <;> decide
      have hn : n ≤ n * radix.base := Nat.le_mul_of_pos_right n hbase
      have hle := ih (n * radix.base + d)
      exact le_trans (by omega) hle

/-- **Reading digits.**  The induction is on the digits still to be read. -/
lemma readDigits_eq_ok_iff (radix : Radix) (n : ℕ) (cs : List Char) (hn : n < UInt64.size) (m : ℕ) :
    readDigits radix n cs = .ok m ↔
      ∃ ds, List.Forall₂ radix.Digit cs ds ∧ append radix n ds = m ∧ m < UInt64.size := by
  induction cs generalizing n with
  | nil =>
      rw [readDigits, Except.ok.injEq]
      constructor
      · rintro rfl
        exact ⟨[], .nil, rfl, hn⟩
      · rintro ⟨ds, hds, hm, _⟩
        cases hds
        exact hm
  | cons c cs ih =>
      rw [readDigits]
      cases hc : radix.digit? c with
      | none =>
          simp only [reduceCtorEq, false_iff]
          rintro ⟨ds, hds, _⟩
          cases hds with
          | cons hd _ =>
              rw [← radix.digit?_eq_some_iff, hc] at hd
              cases hd
      | some d =>
          have hd := (radix.digit?_eq_some_iff c d).mp hc
          have hsplit : (∃ ds, List.Forall₂ radix.Digit (c :: cs) ds ∧
                append radix n ds = m ∧ m < UInt64.size) ↔
              ∃ ds, List.Forall₂ radix.Digit cs ds ∧
                append radix (n * radix.base + d) ds = m ∧ m < UInt64.size := by
            constructor
            · rintro ⟨ds, hds, hm⟩
              cases hds with
              | cons hd' hds =>
                  rw [← radix.digit?_eq_some_iff, hc, Option.some.injEq] at hd'
                  subst hd'
                  exact ⟨_, hds, hm⟩
            · rintro ⟨ds, hds, hm⟩
              exact ⟨d :: ds, .cons hd hds, hm⟩
          rw [hsplit]
          simp only
          split_ifs with hlt
          · exact ih _ hlt
          · -- a number that is too large stays so
            simp only [false_iff]
            rintro ⟨ds, _, rfl, hm⟩
            have hle := le_append radix (n * radix.base + d) ds
            omega

/-! ## Signs -/

/-- The text is an optional sign and digits, of which there is at least one, with the value `n`. -/
def Numeral (radix : Radix) (cs : List Char) (n : ℕ) : Prop :=
  ∃ sign digits values, cs = sign ++ digits ∧ (sign = [] ∨ sign = ['+']) ∧ digits ≠ [] ∧
    List.Forall₂ radix.Digit digits values ∧ Nat.ofDigits radix.base values.reverse = n

/-- The digits after the sign. -/
lemma map_readDigits_eq_ok_iff (radix : Radix) (digits : List Char) (n : UInt64) :
    (readDigits radix 0 digits).map UInt64.ofNat = .ok n ↔
      ∃ values, List.Forall₂ radix.Digit digits values ∧
        Nat.ofDigits radix.base values.reverse = n.toNat := by
  have hread := readDigits_eq_ok_iff radix 0 digits (by decide)
  simp only [append_zero] at hread
  constructor
  · intro h
    cases hdigits : readDigits radix 0 digits with
    | error e => rw [hdigits] at h; cases h
    | ok m =>
        rw [hdigits] at h
        obtain ⟨values, hvalues, hm, hlt⟩ := (hread m).mp hdigits
        refine ⟨values, hvalues, ?_⟩
        rw [← Except.ok.inj h, UInt64.toNat_ofNat_of_lt' hlt, hm]
  · rintro ⟨values, hvalues, hm⟩
    rw [(hread n.toNat).mpr ⟨values, hvalues, hm, n.toNat_lt⟩]
    show Except.ok (UInt64.ofNat n.toNat) = _
    rw [UInt64.ofNat_toNat]

lemma Radix.not_digit_plus (radix : Radix) (d : ℕ) : ¬ radix.Digit '+' d := by
  have hnone : radix.digit? '+' = none := by cases radix <;> rfl
  rw [← radix.digit?_eq_some_iff, hnone]
  exact nofun

/-- With a sign the numeral goes on with digits. -/
lemma numeral_plus_iff (radix : Radix) (digits : List Char) (n : ℕ) :
    Numeral radix ('+' :: digits) n ↔ digits ≠ [] ∧
      ∃ values, List.Forall₂ radix.Digit digits values ∧
        Nat.ofDigits radix.base values.reverse = n := by
  constructor
  · rintro ⟨sign, digits', values, hcs, rfl | rfl, hne, hvalues, hn⟩
    · rw [List.nil_append] at hcs
      subst hcs
      cases hvalues with
      | cons hplus _ => exact absurd hplus (radix.not_digit_plus _)
    · obtain rfl := (List.cons.inj hcs).2
      exact ⟨hne, values, hvalues, hn⟩
  · rintro ⟨hne, values, hvalues, hn⟩
    exact ⟨['+'], digits, values, rfl, .inr rfl, hne, hvalues, hn⟩

/-- Without one it is digits. -/
lemma numeral_iff_of_head_ne {radix : Radix} {cs : List Char} (hplus : cs.head? ≠ some '+')
    (n : ℕ) : Numeral radix cs n ↔ cs ≠ [] ∧
      ∃ values, List.Forall₂ radix.Digit cs values ∧
        Nat.ofDigits radix.base values.reverse = n := by
  constructor
  · rintro ⟨sign, digits, values, rfl, rfl | rfl, hne, hvalues, hn⟩
    · exact ⟨hne, values, hvalues, hn⟩
    · exact absurd rfl hplus
  · rintro ⟨hne, values, hvalues, hn⟩
    exact ⟨[], cs, values, rfl, .inl rfl, hne, hvalues, hn⟩

/-- **A word is read exactly from its numerals.** -/
theorem readWord_eq_ok_iff (radix : Radix) (cs : List Char) (n : UInt64) :
    readWord radix cs = .ok n ↔ Numeral radix cs n.toNat := by
  unfold readWord
  split
  · have hhead : ([] : List Char).head? ≠ some '+' := by simp
    simp [numeral_iff_of_head_ne hhead]
  · simp [numeral_plus_iff]
  · next digits hne =>
      rw [map_readDigits_eq_ok_iff, numeral_plus_iff, and_iff_right]
      rintro rfl
      exact hne rfl
  · next hempty _ hplus =>
      have hhead : cs.head? ≠ some '+' := by
        intro h
        obtain ⟨rest, rfl⟩ := List.head?_eq_some_iff.mp h
        exact hplus rest rfl
      rw [map_readDigits_eq_ok_iff, numeral_iff_of_head_ne hhead, and_iff_right]
      rintro rfl
      exact hempty rfl

end Text

end RegionLedger
