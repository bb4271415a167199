import Hwdb.Line
import Hwdb.Proofs.Lines

/-!
# `Hwdb.Proofs.Line`: the kind of a line, told from its text

A match key and a property are well formed when each of their parts could stand in a
line. Then reading their written form gives them back, and nothing else is read from it
(`MatchKey.reader_eq_ok_iff`, `Property.reader_eq_ok_iff`).

`Line.Spells` has one rule for each kind of line, and `Line.ofText_eq_iff` says that a text
is taken for a line exactly if it spells that line.
-/

set_option autoImplicit false

namespace Hwdb

open Reader (Stops)

/-! ### Match keys -/

/-- A match key whose pattern could stand in a line. -/
structure MatchKey.WellFormed (k : MatchKey) : Prop where
  /-- The pattern has a character. -/
  pattern_ne_nil : k.pattern ≠ []
  /-- Each of its characters may stand in a pattern. -/
  isPatternChar : ∀ c ∈ k.pattern, isPatternChar c = true

instance (k : MatchKey) : Decidable k.WellFormed :=
  decidable_of_iff (k.pattern ≠ [] ∧ k.pattern.all MatchKey.isPatternChar = true)
    ⟨fun h => ⟨h.1, List.all_eq_true.1 h.2⟩,
      fun h => ⟨h.pattern_ne_nil, List.all_eq_true.2 h.isPatternChar⟩⟩

/-- A category is read from its word. There is one category, so the word decides. What comes
after the word is the rest, whatever it is. -/
theorem Category.reader_eq_ok_iff {t rest : Text} {c : Category} :
    Category.reader t = .ok (c, rest) ↔ t = c.keyword ++ rest := by
  have hfree : Reader.PrefixFree Category.keyword Category.all := fun a _ b _ _ => by
    cases a
    cases b
    rfl
  have hall : c ∈ Category.all := by cases c; exact List.mem_singleton.2 rfl
  rw [Category.reader, Reader.oneOf_eq_ok_iff hfree, and_iff_right hall]

/-- A connection is read from its word. No word of the list begins another one, as
`Reader.oneOf_eq_ok_iff` asks. -/
theorem Category.connectionReader_eq_ok_iff {c : Category} {t rest : Text}
    {n : Connection} :
    c.connectionReader t = .ok (n, rest) ↔ t = n.keyword ++ rest := by
  have hfree : Reader.PrefixFree Connection.keyword c.connections := by
    cases c
    unfold Reader.PrefixFree
    decide
  have hall : n ∈ c.connections := by cases c; cases n <;> decide
  rw [Category.connectionReader, Reader.oneOf_eq_ok_iff hfree, and_iff_right hall]

/-- A match key is read from its written form, and its pattern goes as far as it can: what
is left does not begin with a character that a pattern could take. -/
theorem MatchKey.reader_eq_ok_iff {t rest : Text} {k : MatchKey} :
    MatchKey.reader t = .ok (k, rest)
      ↔ t = k.text ++ rest ∧ k.WellFormed ∧ Stops isPatternChar rest := by
  -- Piece by piece, the reader is its list of equivalences.
  simp only [MatchKey.reader, Reader.bind_eq_ok_iff, Reader.char_eq_ok_iff,
    Reader.pure_eq_ok_iff, Category.reader_eq_ok_iff, Category.connectionReader_eq_ok_iff,
    Reader.takeWhile1_eq_ok_iff]
  constructor
  · rintro ⟨c, _, rfl, ⟨⟩, _, rfl, n, _, rfl, ⟨⟩, _, rfl, s, _, ⟨rfl, hne, hs, hrest⟩,
      rfl, rfl⟩
    exact ⟨by simp [MatchKey.text], ⟨hne, hs⟩, hrest⟩
  · obtain ⟨c, n, s⟩ := k
    rintro ⟨rfl, ⟨hne, hs⟩, hrest⟩
    refine ⟨c, ':' :: (n.keyword ++ ':' :: (s ++ rest)), ?_, (), _, rfl, n, _, rfl, (), _,
      rfl, s, rest, ⟨rfl, hne, hs, hrest⟩, rfl, rfl⟩
    simp [MatchKey.text]

/-- A whole line is a match key exactly if it is the written form of one whose pattern could
stand there. At the end of a line nothing is left that could go on with the pattern. -/
theorem MatchKey.whole?_reader_eq_some_iff {t : Text} {k : MatchKey} :
    MatchKey.reader.whole? t = some k ↔ t = k.text ∧ k.WellFormed := by
  rw [Reader.whole?_eq_some_iff, MatchKey.reader_eq_ok_iff, List.append_nil,
    and_iff_left (Reader.stops_nil _)]

/-! ### Properties -/

namespace Property

/-- A tag: a capital letter, then letters, digits and underscores. -/
def IsTag : Text → Prop
  | [] => False
  | c :: cs => c.isUpper = true ∧ ∀ d ∈ cs, isTagChar d = true

/-- A property whose tag and value could stand in a line. Any comment could. -/
structure WellFormed (p : Property) : Prop where
  /-- The tag begins with a capital letter, and each other character may stand in it. -/
  isTag : IsTag p.tag
  /-- The value has a character. -/
  value_ne_nil : p.value ≠ []
  /-- Each of its characters may stand in a value. -/
  isValueChar : ∀ c ∈ p.value, isValueChar c = true

instance (t : Text) : Decidable (IsTag t) :=
  match t with
  | [] => inferInstanceAs (Decidable False)
  | c :: cs =>
      decidable_of_iff (c.isUpper = true ∧ cs.all isTagChar = true)
        (and_congr_right fun _ => List.all_eq_true)

instance (p : Property) : Decidable p.WellFormed :=
  decidable_of_iff
    (IsTag p.tag ∧ p.value ≠ [] ∧ p.value.all Property.isValueChar = true)
    ⟨fun h => ⟨h.1, h.2.1, List.all_eq_true.1 h.2.2⟩,
      fun h => ⟨h.isTag, h.value_ne_nil, List.all_eq_true.2 h.isValueChar⟩⟩

/-- The letter that begins a tag may stand anywhere in a tag, so all characters of a tag are
of one class. -/
theorem IsTag.isTagChar {t : Text} (h : IsTag t) : ∀ c ∈ t, isTagChar c = true := by
  cases t with
  | nil => exact h.elim
  | cons c cs =>
      intro d hd
      rcases List.mem_cons.1 hd with rfl | hd
      · -- Only the first character is said to be a capital letter, and these are of the
        -- class.
        have hupper : d.isUpper = true := h.1
        show (d.isUpper || d.isLower || d.isDigit || d == '_') = true
        rw [hupper]
        rfl
      · exact h.2 d hd

/-- What may follow a property: nothing after a comment, and else no text that would go on
with its value or begin a comment. -/
def Closes (p : Property) (rest : Text) : Prop :=
  match p.comment with
  | some _ => rest = []
  | none => Stops (fun c => Property.isValueChar c || c == '#') rest

/-- A tag ends at the `=`, as no tag has one. So the tag of a written property is read as it
was. -/
theorem isTagChar_equals : isTagChar '=' = false := by decide

/-- A value ends at the first `#`, as no value has one: what follows is a comment. A value
may have a `=`, and so only this character ends it. -/
theorem isValueChar_hash : Property.isValueChar '#' = false := by decide

/-- A tag is read as far as it goes, and its first character has to be a capital letter.
`Stops` says that the rest could not have been part of it. -/
theorem tagReader_eq_ok_iff {t tag rest : Text} :
    tagReader t = .ok (tag, rest) ↔ t = tag ++ rest ∧ IsTag tag ∧ Stops isTagChar rest := by
  simp only [tagReader, Reader.bind_eq_ok_iff, Reader.pure_eq_ok_iff,
    Reader.satisfying_eq_ok_iff, Reader.takeWhile_eq_ok_iff]
  constructor
  · rintro ⟨c, _, ⟨rfl, hc⟩, cs, _, ⟨rfl, hcs, hrest⟩, rfl, rfl⟩
    exact ⟨rfl, ⟨hc, hcs⟩, hrest⟩
  · rintro ⟨rfl, htag, hrest⟩
    cases tag with
    | nil => exact htag.elim
    | cons c cs => exact ⟨c, _, ⟨rfl, htag.1⟩, cs, rest, ⟨rfl, htag.2, hrest⟩, rfl, rfl⟩

/-- The comment of a property, with what stands after the value: a `#` makes all of it the
comment, and without one there is none. -/
theorem optional_comment_eq_ok_iff {t rest : Text} {comment : Option Text} :
    Reader.optional Reader.comment t = .ok (comment, rest)
      ↔ (∃ s, comment = some s ∧ t = '#' :: s ∧ rest = [])
        ∨ (comment = none ∧ t = rest ∧ Stops (· == '#') rest) := by
  rw [Reader.optional_eq_ok_iff]
  simp only [Reader.comment_eq_ok_iff]
  refine or_congr Iff.rfl (and_congr_right fun _ => and_congr_right ?_)
  rintro rfl
  constructor
  · intro hno c hc
    -- A `#` in front would have been read as a comment.
    obtain ⟨t', rfl⟩ : ∃ t', t = c :: t' := List.head?_eq_some_iff.1 hc
    refine beq_false_of_ne ?_
    rintro rfl
    exact hno t' [] (Reader.comment_eq_ok_iff.2 ⟨rfl, rfl⟩)
  · intro hstop s rest' hs
    obtain ⟨rfl, -⟩ := Reader.comment_eq_ok_iff.1 hs
    exact absurd (hstop '#' rfl) (by decide)

/-- A property is read from its written form with a space in front, and its value goes as
far as it can. The tag ends at the first `=` and the value at the first `#`, so there is one
way to read it. -/
theorem reader_eq_ok_iff {t rest : Text} {p : Property} :
    Property.reader t = .ok (p, rest)
      ↔ t = ' ' :: p.text ++ rest ∧ p.WellFormed ∧ p.Closes rest := by
  simp only [Property.reader, Reader.bind_eq_ok_iff, Reader.char_eq_ok_iff,
    Reader.pure_eq_ok_iff, tagReader_eq_ok_iff, Reader.takeWhile1_eq_ok_iff,
    optional_comment_eq_ok_iff]
  constructor
  · rintro ⟨⟨⟩, _, rfl, tag, _, ⟨rfl, htag, -⟩, ⟨⟩, _, rfl, value, after,
      ⟨rfl, hne, hvalue, hafter⟩, comment, _, hcomment, rfl, rfl⟩
    rcases hcomment with ⟨s, rfl, rfl, rfl⟩ | ⟨rfl, rfl, hstop⟩
    · exact ⟨by simp [Property.text], ⟨htag, hne, hvalue⟩, rfl⟩
    · refine ⟨by simp [Property.text], ⟨htag, hne, hvalue⟩, fun c hc => ?_⟩
      exact Bool.or_eq_false_iff.2 ⟨hafter c hc, hstop c hc⟩
  · obtain ⟨tag, value, comment⟩ := p
    rintro ⟨rfl, ⟨htag, hne, hvalue⟩, hcloses⟩
    -- The value ends at the `#` of the comment, or at what follows the property.
    cases comment with
    | some s =>
        cases hcloses
        refine ⟨(), _, rfl, tag, '=' :: (value ++ '#' :: s),
          ⟨by simp [Property.text], htag, ?_⟩, (), _, rfl, value, '#' :: s,
          ⟨rfl, hne, hvalue, ?_⟩, some s, [], Or.inl ⟨s, rfl, rfl, rfl⟩, rfl, rfl⟩
        · exact Reader.stops_cons.2 isTagChar_equals
        · exact Reader.stops_cons.2 isValueChar_hash
    | none =>
        refine ⟨(), _, rfl, tag, '=' :: (value ++ rest),
          ⟨by simp [Property.text], htag, ?_⟩, (), _, rfl, value, rest,
          ⟨rfl, hne, hvalue, fun c hc => ?_⟩, none, rest,
          Or.inr ⟨rfl, rfl, fun c hc => ?_⟩, rfl, rfl⟩
        · exact Reader.stops_cons.2 isTagChar_equals
        · exact (Bool.or_eq_false_iff.1 (hcloses c hc)).1
        · exact (Bool.or_eq_false_iff.1 (hcloses c hc)).2

/-- A whole line is a property exactly if it is the written form of one, with a space in
front. Nothing is left at its end, which closes any property. -/
theorem whole?_reader_eq_some_iff {t : Text} {p : Property} :
    Property.reader.whole? t = some p ↔ t = ' ' :: p.text ∧ p.WellFormed := by
  have hcloses : p.Closes [] := by
    unfold Closes
    cases p.comment with
    | some s => rfl
    | none => exact Reader.stops_nil _
  rw [Reader.whole?_eq_some_iff, reader_eq_ok_iff, List.append_nil, and_iff_left hcloses]

end Property

/-! ### Kinds -/

namespace Line

/-- A space or a tab, which may stand before the `#` of an indented comment. -/
def IsIndent (c : Char) : Prop :=
  c = ' ' ∨ c = '\t'

/-- A whole line is a comment if it begins with `#`. Any text may follow. What the text is
does not matter to `ofText`, only whether there is one. -/
theorem isSome_whole?_comment_iff {t : Text} :
    (Reader.comment.whole? t).isSome = true ↔ ∃ s, t = '#' :: s := by
  simp only [Option.isSome_iff_exists, Reader.whole?_eq_some_iff, Reader.comment_eq_ok_iff,
    and_true]

/-- A whole line is an indented comment if it begins with a space, and spaces or tabs are
all that stands between it and the first `#`. -/
theorem isSome_whole?_indentedComment_iff {t : Text} :
    (indentedCommentReader.whole? t).isSome = true
      ↔ ∃ indent s, t = ' ' :: indent ++ '#' :: s ∧ ∀ c ∈ indent, IsIndent c := by
  have hclass : ∀ c : Char, (c == ' ' || c == '\t') = true ↔ IsIndent c := fun c => by
    simp [IsIndent]
  simp only [Option.isSome_iff_exists, Reader.whole?_eq_some_iff, indentedCommentReader,
    Reader.bind_eq_ok_iff, Reader.char_eq_ok_iff, Reader.discard_eq_ok_iff,
    Reader.takeWhile_eq_ok_iff, Reader.comment_eq_ok_iff, hclass, and_true]
  constructor
  · rintro ⟨s, ⟨⟩, _, rfl, ⟨⟩, _, ⟨indent, rfl, hindent, -⟩, rfl⟩
    exact ⟨indent, s, rfl, hindent⟩
  · rintro ⟨indent, s, rfl, hindent⟩
    exact ⟨s, (), _, rfl, (), '#' :: s, ⟨indent, rfl, hindent, by simp⟩, rfl⟩

/-- A text that is an indented comment. -/
def IsIndentedComment (t : Text) : Prop :=
  ∃ indent s, t = ' ' :: indent ++ '#' :: s ∧ ∀ c ∈ indent, IsIndent c

/-- An indented comment is taken for one: the tests before it in `ofText` fail at its space.
It is one of the five cases of `text_cases`. -/
theorem ofText_of_isIndentedComment {t : Text} (h : IsIndentedComment t) :
    ofText t = .indentedComment := by
  have hread := isSome_whole?_indentedComment_iff.2 h
  obtain ⟨indent, s, rfl, -⟩ := h
  have hcomment : ¬ (Reader.comment.whole? (' ' :: indent ++ '#' :: s)).isSome = true := by
    rw [isSome_whole?_comment_iff]
    rintro ⟨s', hs'⟩
    cases hs'
  rw [ofText, if_neg (by simp), if_neg hcomment, if_pos hread]

/-- A line that begins with a space and is no comment should be a property, and is malformed
if it is none. It is one of the cases of `text_cases`, and the reader of properties decides
it. -/
theorem ofText_space {s : Text} (h : ¬ IsIndentedComment (' ' :: s)) :
    ofText (' ' :: s)
      = (Property.reader.whole? (' ' :: s)).elim (.malformedProperty (' ' :: s))
          .property := by
  have hcomment : ¬ (Reader.comment.whole? (' ' :: s)).isSome = true := by
    rw [isSome_whole?_comment_iff]
    rintro ⟨s', hs'⟩
    cases hs'
  rw [ofText, if_neg (by simp), if_neg hcomment,
    if_neg (isSome_whole?_indentedComment_iff.not.2 h), if_pos (by simp)]
  cases Property.reader.whole? (' ' :: s) <;> rfl

/-- A line that begins with neither a `#` nor a space should be a match key, and is
unknown if it is none. It is the last case of `text_cases`, and the reader of match keys
decides it. -/
theorem ofText_cons {c : Char} {s : Text} (hhash : c ≠ '#') (hspace : c ≠ ' ') :
    ofText (c :: s)
      = (MatchKey.reader.whole? (c :: s)).elim (.unknown (c :: s)) .key := by
  have hcomment : ¬ (Reader.comment.whole? (c :: s)).isSome = true := by
    rw [isSome_whole?_comment_iff]
    rintro ⟨s', hs'⟩
    cases hs'
    exact hhash rfl
  have hindented : ¬ (indentedCommentReader.whole? (c :: s)).isSome = true := by
    rw [isSome_whole?_indentedComment_iff]
    rintro ⟨indent, s', hs', -⟩
    cases hs'
    exact hspace rfl
  -- All tests but the last one look for a character that this is not.
  rw [ofText, if_neg (by simp), if_neg hcomment, if_neg hindented,
    if_neg (by simpa using hspace)]
  cases MatchKey.reader.whole? (c :: s) <;> rfl

/-- The five ways in which the first characters of a text decide what it can be. Each of
them leaves `ofText` one reader at most. -/
theorem text_cases (t : Text) :
    t = [] ∨ (∃ s, t = '#' :: s) ∨ IsIndentedComment t
      ∨ (∃ s, t = ' ' :: s ∧ ¬ IsIndentedComment t)
      ∨ ∃ c s, t = c :: s ∧ c ≠ '#' ∧ c ≠ ' ' := by
  cases t with
  | nil => exact Or.inl rfl
  | cons c s =>
      by_cases hhash : c = '#'
      · exact Or.inr (Or.inl ⟨s, by rw [hhash]⟩)
      by_cases hspace : c = ' '
      · subst hspace
        by_cases hindented : IsIndentedComment (' ' :: s)
        · exact Or.inr (Or.inr (Or.inl hindented))
        · exact Or.inr (Or.inr (Or.inr (Or.inl ⟨s, rfl, hindented⟩)))
      · exact Or.inr (Or.inr (Or.inr (Or.inr ⟨c, s, rfl, hhash, hspace⟩)))

/-- The text spells the line: one rule for each kind, no two of which fit one text. -/
inductive Spells : Text → Line → Prop
  | blank : Spells [] .blank
  | comment (s : Text) : Spells ('#' :: s) .comment
  | indentedComment {t : Text} : IsIndentedComment t → Spells t .indentedComment
  | key {k : MatchKey} : k.WellFormed → Spells k.text (.key k)
  | property {p : Property} : p.WellFormed → Spells (' ' :: p.text) (.property p)
  | malformedProperty {s : Text} : ¬ IsIndentedComment (' ' :: s) →
      (∀ p : Property, p.WellFormed → s ≠ p.text) →
      Spells (' ' :: s) (.malformedProperty (' ' :: s))
  | unknown {c : Char} {s : Text} : c ≠ '#' → c ≠ ' ' →
      (∀ k : MatchKey, k.WellFormed → c :: s ≠ k.text) →
      Spells (c :: s) (.unknown (c :: s))

/-- Every text spells the line that it is taken for. Together with `ofText_eq_iff` this
replaces the tests of `ofText`, which depend on their order, by rules that do not. -/
theorem spells_ofText (t : Text) : Spells t (ofText t) := by
  -- The first characters decide between the kinds, and for two of them a reader does.
  rcases text_cases t with
    rfl | ⟨s, rfl⟩ | hindented | ⟨s, rfl, hs⟩ | ⟨c, s, rfl, hhash, hspace⟩
  · exact .blank
  · exact .comment s
  · rw [ofText_of_isIndentedComment hindented]
    exact .indentedComment hindented
  · rw [ofText_space hs]
    cases hread : Property.reader.whole? (' ' :: s) with
    | some p =>
        obtain ⟨hp, hwf⟩ := Property.whole?_reader_eq_some_iff.1 hread
        rw [hp]
        exact .property hwf
    | none =>
        refine .malformedProperty hs fun p hwf hp => ?_
        rw [Property.whole?_reader_eq_some_iff.2 ⟨by rw [hp], hwf⟩] at hread
        cases hread
  · rw [ofText_cons hhash hspace]
    cases hread : MatchKey.reader.whole? (c :: s) with
    | some k =>
        obtain ⟨hk, hwf⟩ := MatchKey.whole?_reader_eq_some_iff.1 hread
        rw [hk]
        exact .key hwf
    | none =>
        refine .unknown hhash hspace fun k hwf hk => ?_
        rw [MatchKey.whole?_reader_eq_some_iff.2 ⟨hk, hwf⟩] at hread
        cases hread

/-- The first character of a match key is that of its category. So a match key is neither
blank nor a comment, and has no space in front. -/
theorem text_key_eq_cons (k : MatchKey) : ∃ s, k.text = 'l' :: s := by
  cases hcategory : k.category
  rw [MatchKey.text, hcategory]
  exact ⟨_, rfl⟩

/-- A property is no indented comment: a capital letter comes where the `#` would. This is
why the order in which `ofText` tries the two does not matter. -/
theorem not_isIndentedComment_property {p : Property} (h : p.WellFormed) :
    ¬ IsIndentedComment (' ' :: p.text) := by
  have htag := h.isTag
  intro hindented
  obtain ⟨indent, s, heq, hindent⟩ := hindented
  cases htagText : p.tag with
  | nil =>
      rw [htagText] at htag
      exact htag.elim
  | cons c cs =>
      rw [htagText] at htag
      have hc := htag.1
      rw [Property.text, htagText] at heq
      -- The capital letter `c` would be the `#` or a part of the indentation.
      cases indent with
      | nil =>
          have hhash : c = '#' := (List.cons.inj (List.cons.inj heq).2).1
          rw [hhash] at hc
          exact absurd hc (by decide)
      | cons d indent =>
          have hcd : c = d := (List.cons.inj (List.cons.inj heq).2).1
          rcases hindent d List.mem_cons_self with hd | hd <;>
            rw [hcd, hd] at hc <;> exact absurd hc (by decide)

/-- A text is taken for the one line that it spells. From here on nothing about lines needs
to open a reader. -/
theorem ofText_eq_iff {t : Text} {l : Line} : ofText t = l ↔ Spells t l := by
  refine ⟨fun h => h ▸ spells_ofText t, fun h => ?_⟩
  -- The other way round, each rule fixes the outcome of every test that `ofText` makes.
  cases h with
  | blank => rfl
  | comment s => rfl
  | indentedComment hindented => exact ofText_of_isIndentedComment hindented
  | @key k hwf =>
      obtain ⟨s, hs⟩ := text_key_eq_cons k
      have hread := MatchKey.whole?_reader_eq_some_iff.2 ⟨hs.symm, hwf⟩
      rw [hs, ofText_cons (by decide) (by decide), hread]
      rfl
  | @property p hwf =>
      have hread := Property.whole?_reader_eq_some_iff.2 ⟨rfl, hwf⟩
      rw [ofText_space (not_isIndentedComment_property hwf), hread]
      rfl
  | @malformedProperty s hs hno =>
      rw [ofText_space hs]
      cases hread : Property.reader.whole? (' ' :: s) with
      | some p =>
          obtain ⟨hp, hwf⟩ := Property.whole?_reader_eq_some_iff.1 hread
          exact absurd (List.cons.inj hp).2 (hno p hwf)
      | none => rfl
  | @unknown c s hhash hspace hno =>
      rw [ofText_cons hhash hspace]
      cases hread : MatchKey.reader.whole? (c :: s) with
      | some k =>
          obtain ⟨hk, hwf⟩ := MatchKey.whole?_reader_eq_some_iff.1 hread
          exact absurd hk (hno k hwf)
      | none => rfl

/-- The empty line is the only blank one: a line of spaces is a malformed property. A blank
line is what ends a block, so this is how blocks are found in a text. -/
theorem ofText_eq_blank_iff {t : Text} : ofText t = .blank ↔ t = [] := by
  rw [ofText_eq_iff]
  refine ⟨fun h => ?_, fun h => h ▸ .blank⟩
  cases h
  rfl

/-- The lines that are match keys are the written forms of match keys. So a match key can be
read back from the text that an issue quotes. -/
theorem ofText_eq_key_iff {t : Text} {k : MatchKey} :
    ofText t = .key k ↔ t = k.text ∧ k.WellFormed := by
  rw [ofText_eq_iff]
  refine ⟨fun h => ?_, fun h => h.1 ▸ .key h.2⟩
  cases h with
  | key hwf => exact ⟨rfl, hwf⟩

/-- The lines that are properties are the written forms of properties, with a space in
front. The comment of the property is part of its written form. -/
theorem ofText_eq_property_iff {t : Text} {p : Property} :
    ofText t = .property p ↔ t = ' ' :: p.text ∧ p.WellFormed := by
  rw [ofText_eq_iff]
  refine ⟨fun h => ?_, fun h => h.1 ▸ .property h.2⟩
  cases h with
  | property hwf => exact ⟨rfl, hwf⟩

/-! ### Carriage returns -/

/-- A carriage return is no character of a pattern. It lies below all printable
characters. -/
theorem isPatternChar_return : MatchKey.isPatternChar '\r' = false := by decide

/-- A match key does not end with a carriage return, so that dropping one at the end of its
line takes nothing from it. -/
theorem dropReturn_text_key {k : MatchKey} (h : k.WellFormed) :
    Text.dropReturn k.text = k.text := by
  have hpattern : '\r' ∉ k.pattern := by
    intro hmem
    have hchar := h.isPatternChar _ hmem
    rw [isPatternChar_return] at hchar
    cases hchar
  have htext : k.text = (k.category.keyword ++ ':' :: k.connection.keyword)
      ++ ':' :: k.pattern := by simp [MatchKey.text]
  rw [htext, Text.dropReturn_append_cons (by decide), Text.dropReturn_of_not_mem hpattern]

/-- A carriage return at the end of a comment or a match key does not count. For properties
this fails: there it belongs to the comment. -/
theorem ofText_dropReturn {t : Text}
    (h : ofText t = .comment ∨ ofText t = .indentedComment ∨ ∃ k, ofText t = .key k) :
    ofText (Text.dropReturn t) = ofText t := by
  rcases h with h | h | ⟨k, h⟩
  · cases ofText_eq_iff.1 h with
    | comment s =>
        have hdrop : Text.dropReturn ('#' :: s) = '#' :: Text.dropReturn s :=
          Text.dropReturn_append_cons (s := []) (by decide)
        rw [hdrop]
        rfl
  · cases ofText_eq_iff.1 h with
    | indentedComment hindented =>
        rw [h]
        -- The carriage return stands behind the `#`, where any text is a comment.
        obtain ⟨indent, s, rfl, hindent⟩ := hindented
        rw [Text.dropReturn_append_cons (by decide)]
        exact ofText_of_isIndentedComment ⟨indent, _, rfl, hindent⟩
  · obtain ⟨rfl, hwf⟩ := ofText_eq_key_iff.1 h
    rw [dropReturn_text_key hwf]

end Line

end Hwdb
