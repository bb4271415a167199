import Hwdb.Proofs.Reader
import Hwdb.Setting

/-!
# `Hwdb.Proofs.Setting`: the language of the catalogue

`Setting.Spells` has one rule for each kind of setting, and `Setting.ofPair?_eq_some_iff`
says that the catalogue has a tag and a value exactly if they spell a setting.

`Setting.Admits` leaves out dimensions with a side of zero. That is the catalogue as far as
a check accepts it (`admits_iff`).
-/

set_option autoImplicit false

namespace Hwdb

open Reader (Stops)

namespace Dimension

/-- A run of digits, leading zeros included, that denotes a number of 32 bits. -/
structure IsSide (digits : Text) (side : UInt32) : Prop where
  /-- There is a digit. -/
  ne_nil : digits ≠ []
  /-- There is nothing else. -/
  isDigit : ∀ c ∈ digits, c.isDigit = true
  /-- The digits denote the number. -/
  read_eq : Decimal.read digits = side.toNat

/-- With the longest run of digits in hand, it remains to see whether its number fits. If it
does not, the refusal has the digits in its rest. -/
theorem sideReader_of_takeWhile1 {t digits rest : Text}
    (h : Reader.takeWhile1 .digit Char.isDigit t = .ok (digits, rest)) :
    sideReader t
      = if hsize : Decimal.read digits < UInt32.size then
          .ok (UInt32.ofNatLT (Decimal.read digits) hsize, rest)
        else .error ⟨.word, t⟩ := by
  rw [sideReader, h]
  rfl

/-- Without a digit there is no side, and the refusal is that of the missing digit. Together
with `sideReader_of_takeWhile1`, these are all outcomes. -/
theorem sideReader_of_takeWhile1_eq_error {t : Text} {e : Refusal}
    (h : Reader.takeWhile1 .digit Char.isDigit t = .error e) : sideReader t = .error e := by
  rw [sideReader, h]
  rfl

/-- A side is read from the longest run of digits, if that denotes a number of 32 bits. If
the number is too large, the whole run is refused, and no shorter part of it is tried. -/
theorem sideReader_eq_ok_iff_read {t rest : Text} {side : UInt32} :
    sideReader t = .ok (side, rest)
      ↔ ∃ digits, Reader.takeWhile1 .digit Char.isDigit t = .ok (digits, rest) ∧
        Decimal.read digits = side.toNat := by
  cases hrun : Reader.takeWhile1 .digit Char.isDigit t with
  | error e =>
      rw [sideReader_of_takeWhile1_eq_error hrun]
      simp
  | ok x =>
      obtain ⟨digits, rest'⟩ := x
      rw [sideReader_of_takeWhile1 hrun]
      split
      · next hsize =>
          have htoNat : (UInt32.ofNatLT (Decimal.read digits) hsize).toNat
              = Decimal.read digits := UInt32.toNat_ofNatLT
          rw [Except.ok.injEq, Prod.mk.injEq, ← UInt32.toNat_inj, htoNat]
          constructor
          · rintro ⟨hread, rfl⟩
            exact ⟨digits, rfl, hread⟩
          · rintro ⟨ds, hds, hread⟩
            cases hds
            exact ⟨hread, rfl⟩
      · next hsize =>
          -- The number is too large for any side.
          constructor
          · intro h
            cases h
          · rintro ⟨ds, hds, hread⟩
            cases hds
            rw [hread] at hsize
            exact absurd side.toNat_lt hsize

/-- A side is read from a run of digits that denotes it and that no digit follows. Here the
digits are any such run, so the value of a hint can be put together of its parts. -/
theorem sideReader_eq_ok_iff {t rest : Text} {side : UInt32} :
    sideReader t = .ok (side, rest)
      ↔ ∃ digits, t = digits ++ rest ∧ IsSide digits side ∧ Stops Char.isDigit rest := by
  simp only [sideReader_eq_ok_iff_read, Reader.takeWhile1_eq_ok_iff]
  constructor
  · rintro ⟨digits, ⟨ht, hne, hdigits, hrest⟩, hread⟩
    exact ⟨digits, ht, ⟨hne, hdigits, hread⟩, hrest⟩
  · rintro ⟨digits, ht, hside, hrest⟩
    exact ⟨digits, ⟨ht, hside.ne_nil, hside.isDigit, hrest⟩, hside.read_eq⟩

/-- A dimension is read from two sides with an `x` between them, and its second side goes as
far as it can. The `x` is no digit, so it ends the first side. -/
theorem reader_eq_ok_iff {t rest : Text} {d : Dimension} :
    Dimension.reader t = .ok (d, rest)
      ↔ ∃ w h, t = w ++ 'x' :: h ++ rest ∧ IsSide w d.width ∧ IsSide h d.height ∧
        Stops Char.isDigit rest := by
  simp only [Dimension.reader, Reader.bind_eq_ok_iff, Reader.char_eq_ok_iff,
    Reader.pure_eq_ok_iff, sideReader_eq_ok_iff]
  constructor
  · rintro ⟨width, _, ⟨w, ht, hw, -⟩, _, _, hx, height, _, ⟨h, hrest, hh, hstop⟩, hd, hend⟩
    subst hd hend hrest hx ht
    exact ⟨w, h, by simp, hw, hh, hstop⟩
  · intro ⟨w, h, ht, hw, hh, hstop⟩
    -- The first side ends at the `x`, which is no digit.
    have hx : Stops Char.isDigit ('x' :: (h ++ rest)) := Reader.stops_cons.2 (by decide)
    have ht : t = w ++ 'x' :: (h ++ rest) := by simpa using ht
    exact ⟨d.width, 'x' :: (h ++ rest), ⟨w, ht, hw, hx⟩, (), h ++ rest, rfl, d.height, rest,
      ⟨h, rfl, hh, hstop⟩, rfl, rfl⟩

/-- A whole value is a dimension exactly if it is two sides with an `x` between them. The
hints of the catalogue are read with this. -/
theorem whole?_reader_eq_some_iff {t : Text} {d : Dimension} :
    Dimension.reader.whole? t = some d
      ↔ ∃ w h, t = w ++ 'x' :: h ∧ IsSide w d.width ∧ IsSide h d.height := by
  simp only [Reader.whole?_eq_some_iff, reader_eq_ok_iff, List.append_nil, Reader.stops_nil,
    and_true]

/-- A side that is not above zero is zero, as sides have no sign. It is how an issue says
what is wrong with a dimension. -/
theorem isPositive_eq_false_iff {d : Dimension} :
    d.isPositive = false ↔ d.width = 0 ∨ d.height = 0 := by
  rw [isPositive, Bool.and_eq_false_iff, decide_eq_false_iff_not, decide_eq_false_iff_not,
    UInt32.pos_iff_ne_zero, UInt32.pos_iff_ne_zero, not_ne_iff, not_ne_iff]

end Dimension

/-! ### Tags -/

/-- The hints are found by their tags, and no two of them have the same one. A tag that is
longer or shorter by a character is none of them. -/
theorem Hint.ofTag?_eq_some_iff {t : Text} {kind : Hint} :
    Hint.ofTag? t = some kind ↔ t = kind.tag := by
  have hne : Hint.size.tag ≠ Hint.resolution.tag := by decide
  constructor
  · intro h
    have htag := List.find?_some h
    exact (beq_iff_eq.1 htag).symm
  · rintro rfl
    cases kind with
    | size => simp [Hint.ofTag?, Hint.all]
    | resolution => simp [Hint.ofTag?, Hint.all, hne]

namespace Setting

/-- The tags of model flags: the prefix, and at least one character after it, all of them of
a smaller class than that of tags. -/
theorem isModelTag_iff {tag : Text} :
    isModelTag tag = true ↔ ∃ model, tag = "LIBINPUT_MODEL_".toList ++ model ∧ model ≠ [] ∧
      ∀ c ∈ model, isModelChar c = true := by
  unfold isModelTag
  constructor
  · intro h
    split at h
    · next model hmodel =>
        rw [List.isPrefixOf?_eq_some_iff_append_eq] at hmodel
        rw [Bool.and_eq_true, List.all_eq_true] at h
        exact ⟨model, hmodel.symm, by simpa using h.1, h.2⟩
    · cases h
  · intro ⟨model, htag, hne, hmodel⟩
    rw [List.isPrefixOf?_eq_some_iff_append_eq.2 htag.symm, Bool.and_eq_true,
      List.all_eq_true]
    exact ⟨by simpa using hne, hmodel⟩

/-- No hint has the tag of a model flag, so the order in which the catalogue looks does not
matter. -/
theorem isModelTag_tag (kind : Hint) : isModelTag kind.tag = false := by
  cases kind <;> decide

/-- A tag and a value that spell a setting. -/
inductive Spells : Text → Text → Setting → Prop
  | modelFlag {model : Text} : model ≠ [] → (∀ c ∈ model, isModelChar c = true) →
      Spells ("LIBINPUT_MODEL_".toList ++ model) ['1']
        (.modelFlag ("LIBINPUT_MODEL_".toList ++ model))
  | hint (kind : Hint) {w h : Text} {d : Dimension} :
      Dimension.IsSide w d.width → Dimension.IsSide h d.height →
      Spells kind.tag (w ++ 'x' :: h) (.hint kind d)

/-- The catalogue has exactly the tags and values that spell a setting. The rules of
`Spells` exclude each other, which the branches of the catalogue do only by their order. -/
theorem ofPair?_eq_some_iff {tag value : Text} {s : Setting} :
    ofPair? tag value = some s ↔ Spells tag value s := by
  unfold ofPair?
  constructor
  · intro h
    split at h
    · next kind hkind =>
        rw [Hint.ofTag?_eq_some_iff] at hkind
        obtain ⟨d, hd, rfl⟩ := Option.map_eq_some_iff.1 h
        obtain ⟨w, h, rfl, hw, hh⟩ := Dimension.whole?_reader_eq_some_iff.1 hd
        rw [hkind]
        exact .hint kind hw hh
    · split at h
      · next hflag =>
          rw [Bool.and_eq_true, isModelTag_iff, beq_iff_eq] at hflag
          obtain ⟨⟨model, htag, hne, hmodel⟩, hvalue⟩ := hflag
          cases h
          rw [htag, hvalue]
          exact .modelFlag hne hmodel
      · cases h
  · intro h
    cases h with
    | @modelFlag model hne hmodel =>
        have hflag := isModelTag_iff.2 ⟨model, rfl, hne, hmodel⟩
        -- The hints are looked up first, so the tag of a flag must not be one of theirs.
        have hnone : Hint.ofTag? ("LIBINPUT_MODEL_".toList ++ model) = none := by
          rw [Option.eq_none_iff_forall_not_mem]
          intro kind hkind
          rw [Hint.ofTag?_eq_some_iff.1 hkind, isModelTag_tag] at hflag
          cases hflag
        rw [hnone, hflag]
        rfl
    | @hint kind w h d hw hh =>
        have hd := Dimension.whole?_reader_eq_some_iff.2 ⟨w, h, rfl, hw, hh⟩
        rw [Hint.ofTag?_eq_some_iff.2 rfl, hd]
        rfl

/-- A hint is spelled by its tag and a dimension. There is no other way to spell one. -/
theorem spells_hint_iff {tag value : Text} {kind : Hint} {d : Dimension} :
    Spells tag value (.hint kind d) ↔ tag = kind.tag ∧ ∃ w h, value = w ++ 'x' :: h ∧
      Dimension.IsSide w d.width ∧ Dimension.IsSide h d.height := by
  constructor
  · intro hspells
    cases hspells with
    | @hint _ w h _ hw hh => exact ⟨rfl, w, h, rfl, hw, hh⟩
  · rintro ⟨rfl, w, h, rfl, hw, hh⟩
    exact .hint kind hw hh

/-- A text that begins with a tag and a `=` is taken apart there, wherever else a `=`
stands. The tag has none, and so it is the first one that counts. -/
theorem parse?_append {tag value : Text} (h : '=' ∉ tag) :
    parse? (tag ++ '=' :: value) = ofPair? tag value := by
  have htag : ∀ c ∈ tag, (c != '=') = true := fun c hc =>
    bne_iff_ne.2 fun heq => h (heq ▸ hc)
  have hstop : Stops (· != '=') ('=' :: value) := Reader.stops_cons.2 (by decide)
  rw [parse?, Reader.dropWhile_append_of_stops htag hstop,
    Reader.takeWhile_append_of_stops htag hstop]

/-! ### What a check accepts -/

/-- A run of digits that denotes a number of 32 bits other than zero. -/
def IsPositiveSide (digits : Text) : Prop :=
  digits ≠ [] ∧ (∀ c ∈ digits, c.isDigit = true) ∧
    1 ≤ Decimal.read digits ∧ Decimal.read digits ≤ 4294967295

/-- A run of digits denotes a side other than zero in two ways of saying it: by the number
itself, and by a side that the run denotes. -/
theorem isPositiveSide_iff {digits : Text} :
    IsPositiveSide digits ↔ ∃ side : UInt32, Dimension.IsSide digits side ∧ 0 < side := by
  constructor
  · intro ⟨hne, hdigits, hpos, hmax⟩
    -- The number fits into 32 bits, so there is a side for it.
    have hsize : Decimal.read digits < UInt32.size := Nat.lt_succ_of_le hmax
    refine ⟨UInt32.ofNatLT (Decimal.read digits) hsize, ⟨hne, hdigits, ?_⟩, ?_⟩
    · exact UInt32.toNat_ofNatLT.symm
    · exact UInt32.lt_iff_toNat_lt.2 hpos
  · intro ⟨side, hside, hpos⟩
    have hpos : 0 < side.toNat := UInt32.lt_iff_toNat_lt.1 hpos
    have hmax := side.toNat_lt
    refine ⟨hside.ne_nil, hside.isDigit, ?_, ?_⟩
    · rw [hside.read_eq]
      omega
    · rw [hside.read_eq]
      omega

/-- A tag and a value that a check accepts: a model flag, or a hint whose dimension has no
side of zero. -/
inductive Admits : Text → Text → Prop
  | modelFlag {model : Text} : model ≠ [] → (∀ c ∈ model, isModelChar c = true) →
      Admits ("LIBINPUT_MODEL_".toList ++ model) ['1']
  | hint (kind : Hint) {w h : Text} : IsPositiveSide w → IsPositiveSide h →
      Admits kind.tag (w ++ 'x' :: h)

/-- What a check accepts is what the catalogue has, without the dimensions that have a side
of zero. `Admits` says this without settings, in terms of the tag and the value alone. -/
theorem admits_iff {tag value : Text} :
    Admits tag value
      ↔ ∃ s, Spells tag value s ∧ ∀ d ∈ s.dimension?, d.isPositive = true := by
  constructor
  · intro h
    cases h with
    | modelFlag hne hmodel => exact ⟨_, .modelFlag hne hmodel, by simp [dimension?]⟩
    | hint kind hw hh =>
        -- Both sides of the hint are above zero, and so is the dimension.
        obtain ⟨width, hw, hwpos⟩ := isPositiveSide_iff.1 hw
        obtain ⟨height, hh, hhpos⟩ := isPositiveSide_iff.1 hh
        refine ⟨.hint kind ⟨width, height⟩, .hint kind hw hh, ?_⟩
        simp [dimension?, Dimension.isPositive, hwpos, hhpos]
  · intro ⟨s, hs, hpositive⟩
    cases hs with
    | modelFlag hne hmodel => exact .modelFlag hne hmodel
    | @hint kind w h d hw hh =>
        have hd := hpositive d rfl
        rw [Dimension.isPositive, Bool.and_eq_true, decide_eq_true_iff, decide_eq_true_iff]
          at hd
        exact .hint kind (isPositiveSide_iff.2 ⟨_, hw, hd.1⟩)
          (isPositiveSide_iff.2 ⟨_, hh, hd.2⟩)

end Setting

end Hwdb
