import Hwdb.Proofs.Grammar
import Hwdb.Proofs.Line

/-!
# `Hwdb.Proofs.LineKinds`: exactly one kind of line fits a text

`Line.Kind.Fits` says of each kind which texts it fits, in terms of their characters and
without a reader. Two kinds are what the others leave: a malformed property begins with a
space and is nothing else, and an unknown line is nothing else at all.

`Line.kind_ofText_eq_iff` says that a text is taken for a line of a kind exactly if the kind
fits it, so one kind fits and no second one. The kinds that are said by the other kinds come
last in its proof: a line has one kind only, so those that are ruled out leave the one.

Nothing of a text is lost either. A line that keeps anything keeps the whole text
(`Line.eq_of_written?_ofText`), and a text is cut into the parts of a property in one way
only (`Property.cut_iff_of_ofText`). `Line.ofText_partition` puts the three together.
-/

set_option autoImplicit false

namespace Hwdb

/-! ### The parts of a property -/

namespace Property

/-- A text cut into the parts of a property: a space, a tag, a `=`, a value, and perhaps a
`#` with a comment. -/
structure Cut (t tag value : Text) (comment : Option Text) : Prop where
  /-- The parts make up the text. -/
  text_eq : t = ' ' :: tag ++ '=' :: value ++ comment.elim [] ('#' :: ·)
  /-- The tag is a capital letter, and then letters, digits and underscores. -/
  isTag : IsTag tag
  /-- The value has a character. -/
  value_ne_nil : value ≠ []
  /-- Each of its characters may stand in a value. -/
  isValueChar : ∀ c ∈ value, Property.isValueChar c = true

/-- The parts are those of a property whose written form is the text. This ties the cut,
which names characters only, to the properties that are read. -/
theorem cut_iff {t tag value : Text} {comment : Option Text} :
    Cut t tag value comment
      ↔ t = ' ' :: text ⟨tag, value, comment⟩ ∧ WellFormed ⟨tag, value, comment⟩ := by
  have htext : ' ' :: text ⟨tag, value, comment⟩
      = ' ' :: tag ++ '=' :: value ++ comment.elim [] ('#' :: ·) := by
    cases comment <;> simp [text]
  rw [htext]
  constructor
  · intro h
    exact ⟨h.text_eq, h.isTag, h.value_ne_nil, h.isValueChar⟩
  · intro h
    exact ⟨h.1, h.2.isTag, h.2.value_ne_nil, h.2.isValueChar⟩

/-- A line that is a property can be cut in one way, and the parts are those that were
read. There is one, because two properties with one written form would be read from the
same line. -/
theorem cut_iff_of_ofText {t : Text} {p : Property} (h : Line.ofText t = .property p)
    (tag value : Text) (comment : Option Text) :
    Cut t tag value comment ↔ tag = p.tag ∧ value = p.value ∧ comment = p.comment := by
  rw [cut_iff, ← Line.ofText_eq_property_iff, h]
  obtain ⟨tag', value', comment'⟩ := p
  simp [eq_comm]

end Property

/-! ### What fits a kind -/

namespace Line

/-- `libinput:`, one of three words, `:` and a pattern that is not empty. -/
def IsKey (t : Text) : Prop :=
  ∃ word ∈ ["name".toList, "touchpad".toList, "mouse".toList], ∃ pattern : Text,
    t = "libinput:".toList ++ word ++ ':' :: pattern ∧ pattern ≠ [] ∧
      ∀ c ∈ pattern, MatchKey.isPatternChar c = true

/-- A text that can be cut into the parts of a property. -/
def IsProperty (t : Text) : Prop :=
  ∃ tag value comment, Property.Cut t tag value comment

/-- A `#` and any text. -/
def IsComment (t : Text) : Prop :=
  ∃ s, t = '#' :: s

/-- A text with a space in front that is none of the above and no indented comment. -/
def IsMalformedProperty (t : Text) : Prop :=
  (∃ s, t = ' ' :: s) ∧
    ¬ IsKey t ∧ ¬ IsProperty t ∧ ¬ IsComment t ∧ ¬ IsIndentedComment t

/-- Whether a kind of line fits a text. What fits no other kind is unknown. -/
def Kind.Fits (t : Text) : Kind → Prop
  | .blank => t = []
  | .comment => IsComment t
  | .indentedComment => IsIndentedComment t
  | .key => IsKey t
  | .property => IsProperty t
  | .malformedProperty => IsMalformedProperty t
  | .unknown =>
      t ≠ [] ∧ ¬ IsComment t ∧ ¬ IsIndentedComment t ∧ ¬ IsKey t ∧ ¬ IsProperty t ∧
        ¬ IsMalformedProperty t

/-- The text that a line keeps, in its written form. Blank lines and comments keep nothing. -/
def written? : Line → Option Text
  | blank | comment | indentedComment => none
  | key k => some k.text
  | property p => some (' ' :: p.text)
  | malformedProperty t => some t
  | unknown t => some t

/-! ### The kind of a text -/

/-- The lines that are blank. A line of blanks is none of them. -/
theorem kind_ofText_eq_blank_iff {t : Text} : (ofText t).kind = .blank ↔ t = [] := by
  rw [← ofText_eq_blank_iff]
  cases ofText t <;> simp [kind]

/-- The lines that are comments. Nothing may stand in front of the `#`. -/
theorem kind_ofText_eq_comment_iff {t : Text} :
    (ofText t).kind = .comment ↔ IsComment t := by
  have hkind : (ofText t).kind = .comment ↔ ofText t = .comment := by
    cases ofText t <;> simp [kind]
  rw [hkind, ofText_eq_iff]
  constructor
  · intro h
    cases h with
    | comment s => exact ⟨s, rfl⟩
  · intro ⟨s, ht⟩
    exact ht ▸ .comment s

/-- The lines that are indented comments. The first character has to be a space, and a tab
may follow. -/
theorem kind_ofText_eq_indentedComment_iff {t : Text} :
    (ofText t).kind = .indentedComment ↔ IsIndentedComment t := by
  have hkind : (ofText t).kind = .indentedComment ↔ ofText t = .indentedComment := by
    cases ofText t <;> simp [kind]
  rw [hkind, ofText_eq_iff]
  constructor
  · intro h
    cases h with
    | indentedComment hindented => exact hindented
  · intro hindented
    exact .indentedComment hindented

/-- A match key is told by the words in front of its pattern: each of the three words names
one connection. -/
theorem isKey_iff {t : Text} : IsKey t ↔ ∃ k : MatchKey, t = k.text ∧ k.WellFormed := by
  have htext : ∀ (n : Connection) (pattern : Text),
      MatchKey.text ⟨.libinput, n, pattern⟩
        = "libinput:".toList ++ n.keyword ++ ':' :: pattern := by
    intro n pattern
    rfl
  constructor
  · intro h
    obtain ⟨word, hword, pattern, ht, hne, hpattern⟩ := h
    -- Each word is that of a connection.
    obtain ⟨n, hn⟩ : ∃ n : Connection, word = n.keyword := by
      simp only [List.mem_cons, List.not_mem_nil, or_false] at hword
      rcases hword with h | h | h
      · exact ⟨.name, h⟩
      · exact ⟨.touchpad, h⟩
      · exact ⟨.mouse, h⟩
    exact ⟨⟨.libinput, n, pattern⟩, by rw [htext, ht, hn], hne, hpattern⟩
  · intro h
    obtain ⟨⟨category, n, pattern⟩, ht, hwf⟩ := h
    have hword : n.keyword ∈ ["name".toList, "touchpad".toList, "mouse".toList] := by
      cases n <;> decide
    cases category
    rw [htext] at ht
    exact ⟨n.keyword, hword, pattern, ht, hwf.pattern_ne_nil, hwf.isPatternChar⟩

/-- The lines that are match keys. The words and the pattern are all there is to look at. -/
theorem kind_ofText_eq_key_iff {t : Text} : (ofText t).kind = .key ↔ IsKey t := by
  have hkind : (ofText t).kind = .key ↔ ∃ k, ofText t = .key k := by
    cases ofText t <;> simp [kind]
  rw [hkind, isKey_iff]
  simp only [ofText_eq_key_iff]

/-- The lines that are properties. There is a way to cut the text into the parts of a
property. -/
theorem kind_ofText_eq_property_iff {t : Text} :
    (ofText t).kind = .property ↔ IsProperty t := by
  have hkind : (ofText t).kind = .property ↔ ∃ p, ofText t = .property p := by
    cases ofText t <;> simp [kind]
  rw [hkind]
  constructor
  · intro ⟨p, hp⟩
    exact ⟨p.tag, p.value, p.comment, Property.cut_iff.2 (ofText_eq_property_iff.1 hp)⟩
  · intro ⟨tag, value, note, hcut⟩
    exact ⟨_, ofText_eq_property_iff.2 (Property.cut_iff.1 hcut)⟩

/-- A line with a space in front is of one of three kinds. The malformed one is what the two
others leave. -/
theorem kind_ofText_space (s : Text) :
    (ofText (' ' :: s)).kind = .indentedComment ∨ (ofText (' ' :: s)).kind = .property ∨
      (ofText (' ' :: s)).kind = .malformedProperty := by
  have hspells := spells_ofText (' ' :: s)
  generalize ofText (' ' :: s) = l at hspells
  -- Of the rules for the other kinds, only that for match keys needs a look at the text.
  cases l with
  | key k =>
      obtain ⟨s', hs'⟩ := text_key_eq_cons k
      generalize ht : ' ' :: s = t at hspells
      cases hspells
      rw [hs'] at ht
      cases ht
  | unknown t =>
      cases hspells with
      | unknown _ hspace _ => exact absurd rfl hspace
  | _ => cases hspells <;> simp [kind]

/-- The lines that are malformed properties. Its first half needs only that a line has one
kind; the second one needs `kind_ofText_space`. -/
theorem kind_ofText_eq_malformedProperty_iff {t : Text} :
    (ofText t).kind = .malformedProperty ↔ IsMalformedProperty t := by
  rw [IsMalformedProperty, ← kind_ofText_eq_key_iff, ← kind_ofText_eq_property_iff,
    ← kind_ofText_eq_comment_iff, ← kind_ofText_eq_indentedComment_iff]
  constructor
  · intro hkind
    have hspace : ∃ s, t = ' ' :: s := by
      have hspells := spells_ofText t
      generalize ofText t = l at hspells hkind
      cases hspells <;> simp_all [kind]
    -- The line is malformed, so it is of none of the kinds that are ruled out.
    simp [hkind, hspace]
  · intro h
    obtain ⟨⟨s, rfl⟩, -, hproperty, -, hindented⟩ := h
    rcases kind_ofText_space s with h | h | h
    · exact absurd h hindented
    · exact absurd h hproperty
    · exact h

/-- A text is taken for a line of the one kind that fits it. The unknown lines come last, as
what all the kinds before them leave. -/
theorem kind_ofText_eq_iff {t : Text} {k : Kind} : (ofText t).kind = k ↔ k.Fits t := by
  cases k with
  | blank => exact kind_ofText_eq_blank_iff
  | comment => exact kind_ofText_eq_comment_iff
  | indentedComment => exact kind_ofText_eq_indentedComment_iff
  | key => exact kind_ofText_eq_key_iff
  | property => exact kind_ofText_eq_property_iff
  | malformedProperty => exact kind_ofText_eq_malformedProperty_iff
  | unknown =>
      -- All the other kinds are said by the line already, and there are seven of them.
      rw [Kind.Fits, ← kind_ofText_eq_comment_iff, ← kind_ofText_eq_indentedComment_iff,
        ← kind_ofText_eq_key_iff, ← kind_ofText_eq_property_iff,
        ← kind_ofText_eq_malformedProperty_iff, ne_eq, ← kind_ofText_eq_blank_iff]
      cases (ofText t).kind <;> simp

/-- What a line keeps of its text is the whole text: a match key and a property can be
written as they stood, and a bad line is quoted. -/
theorem eq_of_written?_ofText {t s : Text} (h : (ofText t).written? = some s) : s = t := by
  have hspells := spells_ofText t
  generalize ofText t = l at hspells h
  cases hspells <;> simp_all [written?]

/-- Every text is taken for a line of exactly the kind that fits it, a line that keeps
something keeps all of the text, and a property is cut from it in the only way there is. -/
theorem ofText_partition (t : Text) :
    (∀ k, (ofText t).kind = k ↔ k.Fits t) ∧
      (∀ s, (ofText t).written? = some s → s = t) ∧
      ∀ p, ofText t = .property p → ∀ tag value comment,
        Property.Cut t tag value comment
          ↔ tag = p.tag ∧ value = p.value ∧ comment = p.comment := by
  refine ⟨?_, ?_, ?_⟩
  · intro k
    exact kind_ofText_eq_iff
  · intro s hs
    exact eq_of_written?_ofText hs
  · intro p hp
    exact Property.cut_iff_of_ofText hp

/-- The first `=` and the first `#` decide where a property is cut, and a tab in front of the
tag makes it no property. -/
theorem ofText_partition_signs :
    ∃ t u : Text, t = " A_1=b=c: #d=#e ".toList ∧ u = " \tA=1".toList ∧
      ofText t = .property ⟨"A_1".toList, "b=c: ".toList, some "d=#e ".toList⟩ ∧
      (∀ tag value comment, Property.Cut t tag value comment
        ↔ tag = "A_1".toList ∧ value = "b=c: ".toList ∧ comment = some "d=#e ".toList) ∧
      IsMalformedProperty u ∧ (ofText u).written? = some u := by
  have hproperty : ofText " A_1=b=c: #d=#e ".toList
      = .property ⟨"A_1".toList, "b=c: ".toList, some "d=#e ".toList⟩ := by decide +kernel
  have hmalformed : ofText " \tA=1".toList = .malformedProperty " \tA=1".toList := by
    decide +kernel
  refine ⟨_, _, rfl, rfl, hproperty, (ofText_partition _).2.2 _ hproperty, ?_, ?_⟩
  · refine ((ofText_partition _).1 .malformedProperty).1 ?_
    rw [hmalformed]
    rfl
  · rw [hmalformed]
    rfl

end Line

end Hwdb
