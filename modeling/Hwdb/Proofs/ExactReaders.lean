import Hwdb.Proofs.Line
import Hwdb.Proofs.Setting

/-!
# `Hwdb.Proofs.ExactReaders`: what a reader takes, and where it refuses

A reader of match keys, properties or dimensions is a row of pieces, each of which takes as
much as it can. `Reader.Exact` says of such a reader what it reads and where it stops. It reads
a value from a spelling of it, in front of a rest on which the value may end, and from no other
text. If a piece is missing, the unread text is what follows the spellings of the pieces
before, and these have been taken whole.

The equivalences for what is read are in `Hwdb.Proofs.Line` and `Hwdb.Proofs.Setting`. Here are
those for refusals: one for each piece, and `Reader.bind_eq_error_iff` for two in a row. With
these a refusal of the row is a refusal of one of its pieces, and for each of them
`RefusedAfter` has a rule with the text that was taken. `Reader.exact_readers` puts both halves
together.
-/

set_option autoImplicit false

namespace Hwdb

/-! ### Refusals of the pieces -/

namespace Reader

variable {α β : Type}

/-- Two readers in a row: the first one refuses, or the second one does where the first one
stopped. With `bind_eq_ok_iff` this takes a reader apart on both outcomes. -/
theorem bind_eq_error_iff {r : Reader α} {f : α → Reader β} {t : Text} {e : Refusal} :
    (r >>= f) t = .error e
      ↔ r t = .error e ∨ ∃ a between, r t = .ok (a, between) ∧ f a between = .error e := by
  show (r t >>= fun x => f x.1 x.2) = _ ↔ _
  cases r t with
  | error e' =>
      show Except.error e' = .error e ↔ _
      simp
  | ok x =>
      obtain ⟨a, between⟩ := x
      show f a between = .error e ↔ _
      simp

/-- A reader that takes nothing off the text never refuses. So nothing is missing once all
pieces have been taken. -/
theorem pure_ne_error (a : α) (t : Text) (e : Refusal) :
    (pure a : Reader α) t ≠ .error e := by
  intro h
  cases h

/-- A character is refused where another one stands, or nothing. Nothing has been taken
then: the refusal has the whole text as its rest. -/
theorem char_eq_error_iff {c : Char} {t : Text} {e : Refusal} :
    char c t = .error e ↔ e = ⟨.char c, t⟩ ∧ Stops (· == c) t := by
  cases t with
  | nil => simp [char, eq_comm (b := e)]
  | cons d t => by_cases h : d = c <;> simp [char, h, eq_comm (b := e)]

/-- A character of a class is refused where another one stands, or nothing. The refusal says
which class was expected. -/
theorem satisfying_eq_error_iff {x : Expected} {p : Char → Bool} {t : Text} {e : Refusal} :
    satisfying x p t = .error e ↔ e = ⟨x, t⟩ ∧ Stops p t := by
  cases t with
  | nil => simp [satisfying, eq_comm (b := e)]
  | cons c t => cases h : p c <;> simp [satisfying, h, eq_comm (b := e)]

/-- A run that may be empty is never refused. Where no character of the class stands, it
takes nothing. -/
theorem takeWhile_ne_error (p : Char → Bool) (t : Text) (e : Refusal) :
    takeWhile p t ≠ .error e := by
  rw [takeWhile_eq_ok]
  intro h
  cases h

/-- A run that must not be empty is refused where it would be. It says what was expected,
and leaves the text as it was. -/
theorem takeWhile1_eq_error_iff {x : Expected} {p : Char → Bool} {t : Text} {e : Refusal} :
    takeWhile1 x p t = .error e ↔ e = ⟨x, t⟩ ∧ Stops p t := by
  have hempty : t.takeWhile p = [] ↔ Stops p t := by
    cases t with
    | nil => simp
    | cons c t => simp [List.takeWhile_cons]
  rw [takeWhile1, ← hempty]
  by_cases h : t.takeWhile p = [] <;> simp [h, eq_comm (b := e)]

/-- What may be left out is never refused. If it cannot be read, it is left out. -/
theorem optional_ne_error (r : Reader α) (t : Text) (e : Refusal) :
    Reader.optional r t ≠ .error e := by
  unfold Reader.optional
  cases r t <;> simp

/-- One of several spellings is refused where none of them begins. Here it does not matter
whether one of them begins another. -/
theorem oneOf_eq_error_iff {x : Expected} {spelling : α → Text} {items : List α} {t : Text}
    {e : Refusal} :
    oneOf x spelling items t = .error e
      ↔ e = ⟨x, t⟩ ∧ ∀ a ∈ items, ¬ spelling a <+: t := by
  have hnone : (items.findSome? fun a => (spelling a).isPrefixOf? t |>.map (a, ·)) = none
      ↔ ∀ a ∈ items, ¬ spelling a <+: t := by
    simp only [List.findSome?_eq_none_iff, Option.map_eq_none_iff]
    refine forall₂_congr fun a _ => ?_
    rw [Option.eq_none_iff_forall_ne_some]
    simp only [ne_eq, List.isPrefixOf?_eq_some_iff_append_eq]
    exact not_exists.symm
  rw [oneOf, ← hnone]
  cases items.findSome? fun a => (spelling a).isPrefixOf? t |>.map (a, ·) with
  | none => simp [eq_comm (b := e)]
  | some found => simp

/-- A reader is exact. -/
structure Exact (r : Reader α) (Spells Ends : α → Text → Prop)
    (RefusedAfter : Text → Refusal → Prop) : Prop where
  /-- It reads a value where the value is spelled and the rest is one on which it may end. -/
  ok_iff : ∀ t a rest,
    r t = .ok (a, rest) ↔ ∃ s, t = s ++ rest ∧ Spells a s ∧ Ends a rest
  /-- It refuses where a piece is missing after what the pieces before have taken. -/
  error_iff : ∀ t e, r t = .error e ↔ ∃ taken, t = taken ++ e.rest ∧ RefusedAfter taken e

end Reader

open Reader (Stops)

/-! ### Match keys -/

namespace Category

/-- A category is refused where no word of a category begins. The refusal names the
category, and nothing has been taken. -/
theorem reader_eq_error_iff {t : Text} {e : Refusal} :
    Category.reader t = .error e ↔ e = ⟨.category, t⟩ ∧ ∀ c ∈ all, ¬ c.keyword <+: t :=
  Reader.oneOf_eq_error_iff

/-- A connection is refused where no word of a connection begins. Only the connections of
the category in front of it count. -/
theorem connectionReader_eq_error_iff {c : Category} {t : Text} {e : Refusal} :
    c.connectionReader t = .error e
      ↔ e = ⟨.connection, t⟩ ∧ ∀ n ∈ c.connections, ¬ n.keyword <+: t :=
  Reader.oneOf_eq_error_iff

end Category

namespace MatchKey

/-- What the reading of a match key has taken when it is refused. -/
inductive RefusedAfter : Text → Refusal → Prop
  /-- There is no category. -/
  | category {rest : Text} : (∀ c ∈ Category.all, ¬ c.keyword <+: rest) →
      RefusedAfter [] ⟨.category, rest⟩
  /-- No colon follows the category. -/
  | afterCategory (c : Category) {rest : Text} : Stops (· == ':') rest →
      RefusedAfter c.keyword ⟨.char ':', rest⟩
  /-- There is no connection of the category. -/
  | connection (c : Category) {rest : Text} :
      (∀ n ∈ c.connections, ¬ n.keyword <+: rest) →
      RefusedAfter (c.keyword ++ [':']) ⟨.connection, rest⟩
  /-- No colon follows the connection. -/
  | afterConnection (c : Category) (n : Connection) {rest : Text} : Stops (· == ':') rest →
      RefusedAfter (c.keyword ++ ':' :: n.keyword) ⟨.char ':', rest⟩
  /-- The pattern has no character. -/
  | pattern (c : Category) (n : Connection) {rest : Text} : Stops isPatternChar rest →
      RefusedAfter (c.keyword ++ ':' :: n.keyword ++ [':']) ⟨.pattern, rest⟩

/-- The reading of a match key is refused behind the pieces that it has taken. The refusal
names the piece that is missing, and its rest begins where that piece should. -/
theorem reader_eq_error_iff {t : Text} {e : Refusal} :
    MatchKey.reader t = .error e ↔ ∃ taken, t = taken ++ e.rest ∧ RefusedAfter taken e := by
  simp only [MatchKey.reader, Reader.bind_eq_error_iff, Category.reader_eq_error_iff,
    Category.connectionReader_eq_error_iff, Reader.char_eq_error_iff,
    Reader.takeWhile1_eq_error_iff, Reader.pure_ne_error, Category.reader_eq_ok_iff,
    Category.connectionReader_eq_ok_iff, Reader.char_eq_ok_iff, and_false, exists_false,
    or_false]
  constructor
  · -- Each alternative is a piece that refuses, behind those that have taken their part.
    rintro (⟨rfl, h⟩ | ⟨c, _, rfl, ⟨rfl, h⟩ | ⟨⟨⟩, _, rfl, ⟨rfl, h⟩ | ⟨n, _, rfl,
      ⟨rfl, h⟩ | ⟨⟨⟩, rest, rfl, rfl, h⟩⟩⟩⟩)
    · exact ⟨[], rfl, .category h⟩
    · exact ⟨_, rfl, .afterCategory c h⟩
    · exact ⟨_, by simp, .connection c h⟩
    · exact ⟨_, by simp, .afterConnection c n h⟩
    · exact ⟨_, by simp, .pattern c n h⟩
  · rintro ⟨taken, ht, hrefused⟩
    subst ht
    cases hrefused with
    | category h => exact Or.inl ⟨rfl, h⟩
    | @afterCategory c rest h => exact Or.inr ⟨c, rest, rfl, Or.inl ⟨rfl, h⟩⟩
    | @connection c rest h =>
        exact Or.inr ⟨c, ':' :: rest, by simp, Or.inr ⟨(), rest, rfl, Or.inl ⟨rfl, h⟩⟩⟩
    | @afterConnection c n rest h =>
        exact Or.inr ⟨c, ':' :: (n.keyword ++ rest), by simp, Or.inr ⟨(), _, rfl,
          Or.inr ⟨n, rest, rfl, Or.inl ⟨rfl, h⟩⟩⟩⟩
    | @pattern c n rest h =>
        exact Or.inr ⟨c, ':' :: (n.keyword ++ ':' :: rest), by simp, Or.inr ⟨(), _, rfl,
          Or.inr ⟨n, ':' :: rest, rfl, Or.inr ⟨(), rest, rfl, rfl, h⟩⟩⟩⟩

end MatchKey

/-! ### Properties -/

namespace Property

/-- What the reading of a property has taken when it is refused. A comment is never missing. -/
inductive RefusedAfter : Text → Refusal → Prop
  /-- There is no space in front. -/
  | space {rest : Text} : Stops (· == ' ') rest → RefusedAfter [] ⟨.char ' ', rest⟩
  /-- The tag does not begin with a capital letter. -/
  | tag {rest : Text} : Stops Char.isUpper rest → RefusedAfter [' '] ⟨.capital, rest⟩
  /-- No `=` follows the whole of the tag. -/
  | afterTag {tag rest : Text} : IsTag tag → Stops isTagChar rest → Stops (· == '=') rest →
      RefusedAfter (' ' :: tag) ⟨.char '=', rest⟩
  /-- The value has no character. -/
  | value {tag rest : Text} : IsTag tag → Stops Property.isValueChar rest →
      RefusedAfter (' ' :: tag ++ ['=']) ⟨.value, rest⟩

/-- A tag is refused where no capital letter stands. After the first letter it may end
anywhere. -/
theorem tagReader_eq_error_iff {t : Text} {e : Refusal} :
    tagReader t = .error e ↔ e = ⟨.capital, t⟩ ∧ Stops Char.isUpper t := by
  simp only [tagReader, Reader.bind_eq_error_iff, Reader.satisfying_eq_error_iff,
    Reader.takeWhile_ne_error, Reader.pure_ne_error, and_false, exists_false, or_false]

/-- The reading of a property is refused behind the pieces that it has taken. Once its value
has begun, nothing can be missing any more. -/
theorem reader_eq_error_iff {t : Text} {e : Refusal} :
    Property.reader t = .error e ↔ ∃ taken, t = taken ++ e.rest ∧ RefusedAfter taken e := by
  simp only [Property.reader, Reader.bind_eq_error_iff, Reader.char_eq_error_iff,
    tagReader_eq_error_iff, Reader.takeWhile1_eq_error_iff, Reader.optional_ne_error,
    Reader.pure_ne_error, Reader.char_eq_ok_iff, tagReader_eq_ok_iff, and_false, exists_false,
    or_false]
  constructor
  · rintro (⟨rfl, h⟩ | ⟨⟨⟩, _, rfl, ⟨rfl, h⟩ | ⟨tag, _, ⟨rfl, htag, hstop⟩, ⟨rfl, h⟩ |
      ⟨⟨⟩, rest, rfl, rfl, h⟩⟩⟩)
    · exact ⟨[], rfl, .space h⟩
    · exact ⟨_, rfl, .tag h⟩
    · exact ⟨_, rfl, .afterTag htag hstop h⟩
    · exact ⟨_, by simp, .value htag h⟩
  · rintro ⟨taken, ht, hrefused⟩
    subst ht
    cases hrefused with
    | space h => exact Or.inl ⟨rfl, h⟩
    | @tag rest h => exact Or.inr ⟨(), rest, rfl, Or.inl ⟨rfl, h⟩⟩
    | @afterTag tag rest htag hstop h =>
        exact Or.inr ⟨(), tag ++ rest, rfl, Or.inr ⟨tag, rest, ⟨rfl, htag, hstop⟩,
          Or.inl ⟨rfl, h⟩⟩⟩
    | @value tag rest htag h =>
        -- The tag ends at the `=`, which may not stand in it.
        have hstop : Stops isTagChar ('=' :: rest) := Reader.stops_cons.2 isTagChar_equals
        exact Or.inr ⟨(), tag ++ '=' :: rest, by simp, Or.inr ⟨tag, '=' :: rest,
          ⟨rfl, htag, hstop⟩, Or.inr ⟨(), rest, rfl, rfl, h⟩⟩⟩

end Property

/-! ### Dimensions -/

namespace Dimension

/-- Why a side is missing. In both cases nothing of it has been taken. -/
inductive SideRefused : Refusal → Prop
  /-- There is no digit. -/
  | digit {rest : Text} : Stops Char.isDigit rest → SideRefused ⟨.digit, rest⟩
  /-- The whole run of digits denotes a number that does not fit. -/
  | word {digits after : Text} : digits ≠ [] → (∀ c ∈ digits, c.isDigit = true) →
      Stops Char.isDigit after → UInt32.size ≤ Decimal.read digits →
      SideRefused ⟨.word, digits ++ after⟩

/-- What the reading of a dimension has taken when it is refused. -/
inductive RefusedAfter : Text → Refusal → Prop
  /-- There is no width. -/
  | width {e : Refusal} : SideRefused e → RefusedAfter [] e
  /-- No `x` follows the whole of the width. -/
  | afterWidth {w rest : Text} {side : UInt32} : IsSide w side → Stops Char.isDigit rest →
      Stops (· == 'x') rest → RefusedAfter w ⟨.char 'x', rest⟩
  /-- There is no height. -/
  | height {w : Text} {side : UInt32} {e : Refusal} : IsSide w side → SideRefused e →
      RefusedAfter (w ++ ['x']) e

/-- A side is refused where it would begin, also if only its last digit is too much: then
the whole run of digits is left. -/
theorem sideReader_eq_error_iff {t : Text} {e : Refusal} :
    sideReader t = .error e ↔ t = e.rest ∧ SideRefused e := by
  constructor
  · intro h
    -- No digit at all, or digits whose number is too large.
    cases hread : Reader.takeWhile1 .digit Char.isDigit t with
    | error e' =>
        obtain ⟨he, hstop⟩ := Reader.takeWhile1_eq_error_iff.1 hread
        rw [sideReader_of_takeWhile1_eq_error hread, he] at h
        cases h
        exact ⟨rfl, .digit hstop⟩
    | ok x =>
        obtain ⟨digits, rest⟩ := x
        obtain ⟨ht, hne, hdigits, hstop⟩ := Reader.takeWhile1_eq_ok_iff.1 hread
        rw [sideReader_of_takeWhile1 hread] at h
        split at h
        · cases h
        · next hsize =>
            cases h
            exact ⟨rfl, ht ▸ .word hne hdigits hstop (Nat.le_of_not_lt hsize)⟩
  · rintro ⟨ht, hrefused⟩
    cases hrefused with
    | @digit rest hstop =>
        rw [ht]
        exact sideReader_of_takeWhile1_eq_error (Reader.takeWhile1_eq_error_iff.2 ⟨rfl, hstop⟩)
    | @word digits after hne hdigits hstop hsize =>
        have hread : Reader.takeWhile1 .digit Char.isDigit (digits ++ after)
            = .ok (digits, after) :=
          Reader.takeWhile1_eq_ok_iff.2 ⟨rfl, hne, hdigits, hstop⟩
        rw [ht, sideReader_of_takeWhile1 hread]
        exact dif_neg (Nat.not_lt_of_le hsize)

/-- The reading of a dimension is refused behind the pieces that it has taken: nothing, the
first side, or the first side and the `x`. -/
theorem reader_eq_error_iff {t : Text} {e : Refusal} :
    Dimension.reader t = .error e ↔ ∃ taken, t = taken ++ e.rest ∧ RefusedAfter taken e := by
  simp only [Dimension.reader, Reader.bind_eq_error_iff, sideReader_eq_error_iff,
    Reader.char_eq_error_iff, Reader.pure_ne_error, sideReader_eq_ok_iff, Reader.char_eq_ok_iff,
    and_false, exists_false, or_false]
  constructor
  · rintro (⟨rfl, h⟩ | ⟨side, _, ⟨w, rfl, hw, hstop⟩, ⟨rfl, h⟩ | ⟨⟨⟩, _, rfl, rfl, h⟩⟩)
    · exact ⟨[], rfl, .width h⟩
    · exact ⟨_, rfl, .afterWidth hw hstop h⟩
    · exact ⟨_, by simp, .height hw h⟩
  · rintro ⟨taken, ht, hrefused⟩
    subst ht
    cases hrefused with
    | width h => exact Or.inl ⟨rfl, h⟩
    | @afterWidth _ rest side hw hstop h =>
        exact Or.inr ⟨side, rest, ⟨taken, rfl, hw, hstop⟩, Or.inl ⟨rfl, h⟩⟩
    | @height w side _ hw h =>
        have hstop : Stops Char.isDigit ('x' :: e.rest) := Reader.stops_cons.2 (by decide)
        exact Or.inr ⟨side, 'x' :: e.rest, ⟨w, by simp, hw, hstop⟩,
          Or.inr ⟨(), e.rest, rfl, rfl, h⟩⟩

end Dimension

/-! ### The readers -/

/-- The three readers are exact. A match key is spelled by its written form and may end before
a character that cannot stand in a pattern. A property is spelled by its written form with a
space in front; with a comment nothing may follow, and without one no character of a value and
no `#`. A dimension is spelled by two runs of digits, with any zeros in front, that denote its
sides, and by an `x` between them, and may not end before a digit. -/
theorem Reader.exact_readers :
    MatchKey.reader.Exact (fun k s => s = k.text ∧ k.WellFormed)
        (fun _ rest => Stops MatchKey.isPatternChar rest) MatchKey.RefusedAfter ∧
      Property.reader.Exact (fun p s => s = ' ' :: p.text ∧ p.WellFormed)
        (fun p rest => p.Closes rest) Property.RefusedAfter ∧
      Dimension.reader.Exact
        (fun d s => ∃ w h, s = w ++ 'x' :: h ∧ Dimension.IsSide w d.width ∧
          Dimension.IsSide h d.height)
        (fun _ rest => Stops Char.isDigit rest) Dimension.RefusedAfter := by
  -- What is read is known from before, and only the refusals were left.
  refine ⟨⟨?_, fun _ _ => MatchKey.reader_eq_error_iff⟩,
    ⟨?_, fun _ _ => Property.reader_eq_error_iff⟩,
    ⟨?_, fun _ _ => Dimension.reader_eq_error_iff⟩⟩
  · intro t k rest
    rw [MatchKey.reader_eq_ok_iff]
    simp
  · intro t p rest
    rw [Property.reader_eq_ok_iff]
    simp
  · intro t d rest
    rw [Dimension.reader_eq_ok_iff]
    simp [and_assoc]

/-- The first side is taken whole although the second one, which is too large, is not. -/
example : Dimension.reader "10x4294967296y".toList = .error ⟨.word, "4294967296y".toList⟩ := by
  decide

end Hwdb
