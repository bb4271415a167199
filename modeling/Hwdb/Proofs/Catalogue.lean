import Hwdb.Proofs.Setting

/-!
# `Hwdb.Proofs.Catalogue`: the texts of the catalogue

`Setting.Written` spells out the language of the catalogue: which texts belong to it, and
which setting each of them stands for. A side of a dimension is an exact number there. Its
bound is part of the rule, so no side can wrap around.

A text of the language is a tag, a `=` and a value that `Setting.Spells` the same setting
(`written_iff`). No tag has a `=` (`Spells.equals_not_mem`), so the first `=` of the text is
the one between them, and reading finds it. With this, `Setting.parse_written` says that
reading accepts this language and nothing else.

`Setting.text` goes the other way. It writes each side without leading zeros, and what it
writes is in the language again (`Spells.text`).
-/

set_option autoImplicit false

namespace Hwdb

/-! ### Characters -/

/-- The digits are a range of characters. The bounds make it plain that no other script has
digits here. -/
theorem isDigit_iff {c : Char} : c.isDigit = true ↔ '0' ≤ c ∧ c ≤ '9' := by
  simp [Char.isDigit, Char.le_def]

/-- The capital letters are a range of characters. Capital letters of other alphabets are
not among them. -/
theorem isUpper_iff {c : Char} : c.isUpper = true ↔ 'A' ≤ c ∧ c ≤ 'Z' :=
  decide_eq_true_iff

namespace Setting

/-- The characters of the tag of a model flag, behind its prefix: capital letters, digits
and underscores. Small letters, which a tag may have, are not among them. -/
theorem isModelChar_iff {c : Char} :
    isModelChar c = true ↔ ('A' ≤ c ∧ c ≤ 'Z') ∨ ('0' ≤ c ∧ c ≤ '9') ∨ c = '_' := by
  simp [isModelChar, isDigit_iff, isUpper_iff, or_assoc]

end Setting

/-! ### Sides -/

namespace Dimension

/-- A run of decimal digits. Any number of zeros may stand in front. -/
def IsNumeral (digits : Text) : Prop :=
  digits ≠ [] ∧ ∀ c ∈ digits, '0' ≤ c ∧ c ≤ '9'

/-- The side that a run of digits denotes, which has to fit. -/
def sideOf (digits : Text) (h : Decimal.read digits ≤ 4294967295) : UInt32 :=
  .ofNatLT (Decimal.read digits) (Nat.lt_succ_of_le h)

/-- The side that a run of digits denotes is the number that the run is read as. The bound
in its type is what makes the number fit. -/
@[simp]
theorem toNat_sideOf {digits : Text} (h : Decimal.read digits ≤ 4294967295) :
    (sideOf digits h).toNat = Decimal.read digits :=
  UInt32.toNat_ofNatLT

/-- The digits that denote a side are the numerals that fit into 32 bits, and they denote
one side only. -/
theorem isSide_iff {digits : Text} {side : UInt32} :
    IsSide digits side ↔ IsNumeral digits ∧ ∃ h, side = sideOf digits h := by
  constructor
  · intro hside
    have hdigits : ∀ c ∈ digits, '0' ≤ c ∧ c ≤ '9' := by
      intro c hc
      exact isDigit_iff.1 (hside.isDigit c hc)
    -- A side is a number of 32 bits, so what denotes it fits.
    have hfits : Decimal.read digits ≤ 4294967295 := by
      have hlt := side.toNat_lt
      rw [hside.read_eq]
      omega
    have hexact : side = sideOf digits hfits := by
      rw [← UInt32.toNat_inj, toNat_sideOf, hside.read_eq]
    exact ⟨⟨hside.ne_nil, hdigits⟩, hfits, hexact⟩
  · intro ⟨⟨hne, hdigits⟩, hfits, hexact⟩
    have hread : Decimal.read digits = side.toNat := by
      rw [hexact, toNat_sideOf]
    exact ⟨hne, fun c hc => isDigit_iff.2 (hdigits c hc), hread⟩

/-- The digits that a side is written with denote it, so writing a setting loses nothing. No
number of 32 bits has digits that are too large. -/
theorem isSide_write (side : UInt32) : IsSide (Decimal.write side.toNat) side := by
  have hdigits : ∀ c ∈ Decimal.write side.toNat, c.isDigit = true := by
    intro c hc
    exact Nat.isDigit_of_mem_toDigits (by decide) (by decide) hc
  exact ⟨Nat.toDigits_ne_nil, hdigits, Decimal.read_write side.toNat⟩

end Dimension

/-! ### The language -/

namespace Setting

open Dimension (IsNumeral sideOf)

/-- The texts of the catalogue, each with the setting that it stands for. -/
inductive Written : Text → Setting → Prop
  /-- A model flag: `LIBINPUT_MODEL_`, one or more capital letters, digits and underscores,
  and `=1`. Its name is what stands before the `=`. -/
  | modelFlag {model : Text} : model ≠ [] →
      (∀ c ∈ model, ('A' ≤ c ∧ c ≤ 'Z') ∨ ('0' ≤ c ∧ c ≤ '9') ∨ c = '_') →
      Written ("LIBINPUT_MODEL_".toList ++ model ++ "=1".toList)
        (.modelFlag ("LIBINPUT_MODEL_".toList ++ model))
  /-- A hint: its tag, a `=`, and two runs of digits with an `x` between them. -/
  | hint (kind : Hint) {width height : Text} : IsNumeral width → IsNumeral height →
      (hwidth : Decimal.read width ≤ 4294967295) →
      (hheight : Decimal.read height ≤ 4294967295) →
      Written (kind.tag ++ '=' :: width ++ 'x' :: height)
        (.hint kind ⟨sideOf width hwidth, sideOf height hheight⟩)

/-- The written form of a setting, with no zeros in front of its sides. -/
def text (s : Setting) : Text :=
  s.name ++ '=' :: s.dimension?.elim ['1'] Dimension.text

/-- The tag and the value of a text of the catalogue spell the setting. This ties the
language of whole texts to the rules for pairs. -/
theorem written_iff {t : Text} {s : Setting} :
    Written t s ↔ ∃ tag value, t = tag ++ '=' :: value ∧ Spells tag value s := by
  constructor
  · intro hwritten
    cases hwritten with
    | @modelFlag model hne hmodel =>
        have hchars : ∀ c ∈ model, isModelChar c = true := by
          intro c hc
          exact isModelChar_iff.2 (hmodel c hc)
        exact ⟨_, _, rfl, .modelFlag hne hchars⟩
    | @hint kind width height hw hh hwidth hheight =>
        have hspells : Spells kind.tag (width ++ 'x' :: height)
            (.hint kind ⟨sideOf width hwidth, sideOf height hheight⟩) :=
          .hint kind (Dimension.isSide_iff.2 ⟨hw, hwidth, rfl⟩)
            (Dimension.isSide_iff.2 ⟨hh, hheight, rfl⟩)
        exact ⟨_, _, by simp, hspells⟩
  · intro ⟨tag, value, ht, hspells⟩
    subst ht
    cases hspells with
    | modelFlag hne hmodel =>
        exact .modelFlag hne fun c hc => isModelChar_iff.1 (hmodel c hc)
    | @hint kind width height d hw hh =>
        -- The sides of `d` are no further choice: the digits determine them.
        obtain ⟨hw, hwidth, hdwidth⟩ := Dimension.isSide_iff.1 hw
        obtain ⟨hh, hheight, hdheight⟩ := Dimension.isSide_iff.1 hh
        have hd : d = ⟨sideOf width hwidth, sideOf height hheight⟩ := by
          rw [← hdwidth, ← hdheight]
        rw [hd]
        simpa using Written.hint kind hw hh hwidth hheight

/-- No tag of the catalogue has a `=`, so a text of the catalogue is cut at its first
one. -/
theorem Spells.equals_not_mem {tag value : Text} {s : Setting} (h : Spells tag value s) :
    '=' ∉ tag := by
  cases h with
  | @modelFlag model _ hmodel =>
      intro hmem
      rcases List.mem_append.1 hmem with hprefix | hmem
      · exact absurd hprefix (by decide)
      · exact absurd (hmodel '=' hmem) (by decide)
  | hint kind _ _ => cases kind <;> decide

/-- A text with a `=` is a tag without one, a `=` and a value. A text without any is in no
catalogue. This is how the first `=` comes to decide where a text is cut. -/
theorem exists_parse?_eq {t : Text} {s : Setting} (h : parse? t = some s) :
    ∃ tag value, t = tag ++ '=' :: value ∧ ofPair? tag value = some s := by
  unfold parse? at h
  split at h
  · cases h
  · next c value hrest =>
      have hcut := List.takeWhile_append_dropWhile (p := (· != '=')) (l := t)
      have hstops := Reader.stops_dropWhile (· != '=') t
      rw [hrest] at hcut hstops
      -- The run before the rest is as long as it can be, so the rest begins with the `=`.
      have hc : c = '=' := by simpa using hstops
      rw [hc] at hcut
      exact ⟨t.takeWhile (· != '='), value, hcut.symm, h⟩

/-- Reading finds the setting that a text of the catalogue stands for, and no other. A text
stands for one setting at most, as its tag and its value do. -/
theorem parse?_eq_some_iff {t : Text} {s : Setting} : parse? t = some s ↔ Written t s := by
  rw [written_iff]
  constructor
  · intro hparse
    obtain ⟨tag, value, ht, hpair⟩ := exists_parse?_eq hparse
    exact ⟨tag, value, ht, ofPair?_eq_some_iff.1 hpair⟩
  · intro ⟨tag, value, ht, hspells⟩
    rw [ht, parse?_append hspells.equals_not_mem]
    exact ofPair?_eq_some_iff.2 hspells

/-- Reading succeeds where the catalogue has the text. `Setting.parse` adds nothing to the
search but the error. -/
theorem parse_eq_ok_iff {t : Text} {s : Setting} : parse t = .ok s ↔ parse? t = some s := by
  unfold parse
  cases parse? t <;> simp

/-- Reading fails where the catalogue has not got the text, and the error quotes all of
it. -/
theorem parse_eq_error_iff {t : Text} {e : UnknownSetting} :
    parse t = .error e ↔ parse? t = none ∧ e = ⟨t⟩ := by
  unfold parse
  cases parse? t <;> simp [eq_comm]

/-- What is written for a setting of the catalogue spells it again. Zeros in front of a side
are not written again, so it may be another text for the same setting. -/
theorem Spells.text {tag value : Text} {s : Setting} (h : Spells tag value s) :
    Written s.text s := by
  rw [written_iff]
  cases h with
  | modelFlag hne hmodel => exact ⟨_, _, rfl, .modelFlag hne hmodel⟩
  | @hint kind _ _ d _ _ =>
      exact ⟨kind.tag, d.text, rfl,
        .hint kind (Dimension.isSide_write d.width) (Dimension.isSide_write d.height)⟩

/-- Reading accepts exactly the language of the catalogue and gives the setting that the text
stands for. Every other text is refused, and the error has all of it. Every setting that can
be read is read again from its written form. -/
theorem parse_written (t : Text) :
    (∀ s, parse t = .ok s ↔ Written t s) ∧
      (∀ e, parse t = .error e ↔ (∀ s, ¬ Written t s) ∧ e.text = t) ∧
      ∀ s, parse t = .ok s → parse s.text = .ok s := by
  have hok : ∀ (u : Text) (s : Setting), parse u = .ok s ↔ Written u s := by
    intro u s
    rw [parse_eq_ok_iff, parse?_eq_some_iff]
  refine ⟨hok t, ?_, ?_⟩
  · intro e
    rw [parse_eq_error_iff, Option.eq_none_iff_forall_ne_some]
    simp only [ne_eq, parse?_eq_some_iff]
    exact and_congr_right fun _ => by cases e; simp
  · intro s hs
    obtain ⟨tag, value, -, hspells⟩ := written_iff.1 ((hok t s).1 hs)
    exact (hok s.text s).2 hspells.text

/-- Leading zeros do not count, the largest side is accepted, and the next number is not. -/
theorem parse_written_bounds :
    ∃ t u : Text, t = "LIBINPUT_ATTR_SIZE_HINT=0007x04294967295".toList ∧
      u = "LIBINPUT_ATTR_SIZE_HINT=7x4294967296".toList ∧
      parse t = .ok (.hint .size ⟨7, 4294967295⟩) ∧
      parse (text (.hint .size ⟨7, 4294967295⟩)) = .ok (.hint .size ⟨7, 4294967295⟩) ∧
      text (.hint .size ⟨7, 4294967295⟩) = "LIBINPUT_ATTR_SIZE_HINT=7x4294967295".toList ∧
      parse u = .error ⟨u⟩ ∧ ∀ s, ¬ Written u s := by
  have hparse : parse "LIBINPUT_ATTR_SIZE_HINT=0007x04294967295".toList
      = .ok (.hint .size ⟨7, 4294967295⟩) := by decide +kernel
  have hrefused : parse "LIBINPUT_ATTR_SIZE_HINT=7x4294967296".toList
      = .error ⟨"LIBINPUT_ATTR_SIZE_HINT=7x4294967296".toList⟩ := by decide +kernel
  exact ⟨_, _, rfl, rfl, hparse, (parse_written _).2.2 _ hparse, by decide +kernel, hrefused,
    (((parse_written _).2.1 _).1 hrefused).1⟩

end Setting

end Hwdb
