import Mathlib.Algebra.GroupWithZero.Nat
import Hwdb.Proofs.Line
import Hwdb.Proofs.Paragraph

/-!
# `Hwdb.Proofs.RoundTrip`: records are read back as they were written

A file that holds some records has their lines, with an empty line between two records. Only
a carriage return at the end of a line is lost (`lines_fileText`). `Property.reread` says
what that does to a property.

A record is `WellFormed` when its match keys and properties could stand in a file. The lines
of such records divide into one block for each record (`divides_of_wellFormed`), and the
record of that block is the one that was written, at its place in the file
(`parse_of_lines_eq`). A `Printable` record has no comment that would end its line or lose
its last character there, and so it is read back from its text (`parse_intercalate_text`).
-/

set_option autoImplicit false

namespace Hwdb

/-! ### Lists with separators -/

/-- What respects the joining of two lists respects the joining of many, separators
included. The separator is mapped like any other part. -/
theorem map_intercalate {α β : Type} {f : List α → List β} (hnil : f [] = [])
    (happend : ∀ as bs, f (as ++ bs) = f as ++ f bs) (sep : List α) (ass : List (List α)) :
    f (List.intercalate sep ass) = List.intercalate (f sep) (ass.map f) := by
  induction ass with
  | nil => exact hnil
  | cons as ass ih =>
      cases ass with
      | nil => simp
      | cons bs ass =>
          rw [List.intercalate_cons_cons, happend, happend, ih, List.map_cons, List.map_cons,
            List.map_cons, List.intercalate_cons_cons]

/-- What is true of the separators is true of everything joined if it is true of the parts.
The separators here are empty lines. -/
theorem forall_mem_intercalate_iff {α : Type} {motive : α → Prop} {sep : List α}
    (hsep : ∀ a ∈ sep, motive a) {ass : List (List α)} :
    (∀ a ∈ List.intercalate sep ass, motive a) ↔ ∀ as ∈ ass, ∀ a ∈ as, motive a := by
  induction ass with
  | nil => simp
  | cons as ass ih =>
      cases ass with
      | nil => simp
      | cons bs ass =>
          rw [List.intercalate_cons_cons, List.forall_mem_append, List.forall_mem_append, ih,
            and_iff_left hsep]
          exact (List.forall_mem_cons (p := fun as => ∀ a ∈ as, motive a)).symm

namespace Record

/-- A record whose text can be read again. -/
structure Printable (r : Record) : Prop where
  /-- There is a match key. -/
  keys_ne_nil : r.keys ≠ []
  /-- There is a property. -/
  properties_ne_nil : r.properties ≠ []
  /-- Each match key could stand in a line. -/
  wellFormed_key : ∀ k ∈ r.keys, k.item.WellFormed
  /-- Each property could stand in a line, -/
  wellFormed_property : ∀ p ∈ r.properties, p.item.WellFormed
  /-- and so could its comment: it would neither end the line nor lose its last character
  there. -/
  fits_comment : ∀ p ∈ r.properties, ∀ s ∈ p.item.comment,
    '\n' ∉ s ∧ s.getLast? ≠ some '\r'

instance (r : Record) : Decidable r.Printable :=
  decidable_of_iff
    (r.keys ≠ [] ∧ r.properties ≠ [] ∧ (∀ k ∈ r.keys, k.item.WellFormed) ∧
      (∀ p ∈ r.properties, p.item.WellFormed) ∧
      ∀ p ∈ r.properties, ∀ s ∈ p.item.comment, '\n' ∉ s ∧ s.getLast? ≠ some '\r')
    ⟨fun h => ⟨h.1, h.2.1, h.2.2.1, h.2.2.2.1, h.2.2.2.2⟩, fun h =>
      ⟨h.keys_ne_nil, h.properties_ne_nil, h.wellFormed_key, h.wellFormed_property,
        h.fits_comment⟩⟩

/-- A record that has each part of a record, with match keys and properties that could stand
in a line. Its comments may be any texts. -/
structure WellFormed (r : Record) : Prop where
  /-- There is a match key. -/
  keys_ne_nil : r.keys ≠ []
  /-- There is a property. -/
  properties_ne_nil : r.properties ≠ []
  /-- Each match key could stand in a line. -/
  wellFormed_key : ∀ k ∈ r.keys, k.item.WellFormed
  /-- Each property could stand in a line. -/
  wellFormed_property : ∀ p ∈ r.properties, p.item.WellFormed

/-- A printable record is well formed: in addition its comments fit on their lines. The
grammar of its lines needs no more than that. -/
theorem Printable.wellFormed {r : Record} (h : r.Printable) : r.WellFormed :=
  ⟨h.keys_ne_nil, h.properties_ne_nil, h.wellFormed_key, h.wellFormed_property⟩

/-- How many lines the text of a record has. -/
def height (r : Record) : Nat :=
  r.keys.length + r.properties.length

/-- The record as it is read when its text begins on the line `start` of a file. -/
def place (path : Path) (start : Nat) (r : Record) : Record where
  path := path
  line := start
  keys := r.keys.mapIdx fun i k => ⟨start + i, k.item⟩
  properties := r.properties.mapIdx fun i p => ⟨start + r.keys.length + i, p.item⟩

/-- The lines of the match keys of a record. -/
def keyLines (r : Record) : List Text :=
  r.keys.map fun k => k.item.text

/-- The lines of the properties of a record. -/
def propertyLines (r : Record) : List Text :=
  r.properties.map fun p => ' ' :: p.item.text

/-- The lines of the text of a record. -/
def lines (r : Record) : List Text :=
  r.keyLines ++ r.propertyLines

/-- The text of a record is its lines, each with a line feed. So a text can be cut into them
again. -/
theorem text_eq_flatMap_lines (r : Record) : r.text = r.lines.flatMap (· ++ ['\n']) := by
  rw [lines, keyLines, propertyLines, List.flatMap_append, List.flatMap_map, List.flatMap_map]
  rfl

/-- The text of a file that holds some records, with an empty line between two of them. -/
def fileText (rs : List Record) : Text :=
  List.intercalate ['\n'] (rs.map Record.text)

/-- The lines of a file that holds some records. -/
def fileLines (rs : List Record) : List Text :=
  List.intercalate [[]] (rs.map Record.lines)

/-- The text of a file is its lines, each with a line feed, those between two records being
empty. -/
theorem fileText_eq_flatMap_fileLines (rs : List Record) :
    fileText rs = (fileLines rs).flatMap (· ++ ['\n']) := by
  rw [fileLines, map_intercalate (f := List.flatMap (· ++ ['\n'])) rfl
    (fun _ _ => List.flatMap_append), List.map_map, fileText]
  exact congrArg _ (List.map_congr_left fun r _ => r.text_eq_flatMap_lines)

/-! ### The lines of a text -/

end Record

/-- No match key has a line feed, as no pattern has one. It is written on one line
therefore. -/
theorem MatchKey.lineFeed_not_mem_text {k : MatchKey} (h : k.WellFormed) :
    '\n' ∉ k.text := by
  have hpattern : '\n' ∉ k.pattern := by
    intro hmem
    exact absurd (h.isPatternChar _ hmem) (by decide)
  have hcategory : '\n' ∉ k.category.keyword := by cases k.category; decide
  have hconnection : '\n' ∉ k.connection.keyword := by cases k.connection <;> decide
  simp [MatchKey.text, hcategory, hconnection, hpattern]

namespace Property

/-- A character that no tag and no value has, and that is no punctuation of a property
either, comes from the comment. -/
theorem mem_comment_of_mem_text {p : Property} (h : p.WellFormed) {c : Char}
    (htag : isTagChar c = false) (hvalue : Property.isValueChar c = false)
    (hhash : c ≠ '#') (hc : c ∈ p.text) :
    ∃ s, p.comment = some s ∧ c ∈ s := by
  have hequals : c ≠ '=' := by
    rintro rfl
    exact absurd hvalue (by decide)
  have hnotTag : c ∉ p.tag := by
    intro hmem
    rw [h.isTag.isTagChar c hmem] at htag
    cases htag
  have hnotValue : c ∉ p.value := by
    intro hmem
    rw [h.isValueChar c hmem] at hvalue
    cases hvalue
  -- All parts of the text but the comment are ruled out.
  cases hcomment : p.comment with
  | none => simp [Property.text, hcomment, hequals, hnotTag, hnotValue] at hc
  | some s =>
      refine ⟨s, rfl, ?_⟩
      simpa [Property.text, hcomment, hequals, hnotTag, hnotValue, hhash] using hc

/-- The property as it is read again after it has been written on a line of its own. There a
carriage return at the end of the comment belongs to the end of the line. -/
def reread (p : Property) : Property :=
  { p with comment := p.comment.map Text.dropReturn }

/-- A property that is read again is still one that could stand in a line. Its tag and its
value are the same. -/
theorem WellFormed.reread {p : Property} (h : p.WellFormed) : p.reread.WellFormed :=
  ⟨h.isTag, h.value_ne_nil, h.isValueChar⟩

/-- Only a carriage return at the end of its comment makes a property change. A property
without a comment never changes. -/
theorem reread_eq_self_iff {p : Property} :
    p.reread = p ↔ ∀ s ∈ p.comment, s.getLast? ≠ some '\r' := by
  obtain ⟨tag, value, comment⟩ := p
  cases comment with
  | none => simp [reread]
  | some s => simp [reread, Text.dropReturn_eq_self_iff]

/-- The line of a property loses what its comment loses. The value has no carriage return,
so without a comment nothing is lost. -/
theorem dropReturn_line {p : Property} (h : p.WellFormed) :
    Text.dropReturn (' ' :: p.text) = ' ' :: p.reread.text := by
  cases hs : p.comment with
  | none =>
      have hreread : p.reread = p := reread_eq_self_iff.2 (by simp [hs])
      rw [hreread]
      refine Text.dropReturn_of_not_mem fun hmem => ?_
      have hmem : '\r' ∈ p.text := (List.mem_cons.1 hmem).resolve_left (by decide)
      obtain ⟨s, hs', -⟩ := mem_comment_of_mem_text h (by decide) (by decide) (by decide) hmem
      rw [hs] at hs'
      cases hs'
  | some s =>
      -- The last character stands behind the `#`, in the comment.
      have htext : ' ' :: p.text = (' ' :: (p.tag ++ '=' :: p.value)) ++ '#' :: s := by
        simp [Property.text, hs]
      rw [htext, Text.dropReturn_append_cons (by decide)]
      simp [Property.text, reread, hs]

/-- The line of a property is one line, and keeps its last character. These are the two
conditions on comments that `Printable` has. -/
theorem line_of_fits_comment {p : Property} (h : p.WellFormed)
    (hcomment : ∀ s ∈ p.comment, '\n' ∉ s ∧ s.getLast? ≠ some '\r') :
    '\n' ∉ ' ' :: p.text ∧ Text.dropReturn (' ' :: p.text) = ' ' :: p.text := by
  constructor
  · intro hmem
    have hmem : '\n' ∈ p.text := (List.mem_cons.1 hmem).resolve_left (by decide)
    obtain ⟨s, hs, hmem⟩ := mem_comment_of_mem_text h (by decide) (by decide) (by decide)
      hmem
    exact (hcomment s hs).1 hmem
  · rw [dropReturn_line h, reread_eq_self_iff.2 fun s hs => (hcomment s hs).2]

end Property

namespace Record

/-- Each line of a printable record is one line, and keeps its last character. It is read
back as it was written. -/
theorem Printable.line {r : Record} (h : r.Printable) :
    ∀ l ∈ r.lines, '\n' ∉ l ∧ Text.dropReturn l = l := by
  intro l hl
  rcases List.mem_append.1 hl with hl | hl
  · obtain ⟨k, hk, rfl⟩ := List.mem_map.1 hl
    have hwf := h.wellFormed_key k hk
    exact ⟨MatchKey.lineFeed_not_mem_text hwf, Line.dropReturn_text_key hwf⟩
  · obtain ⟨p, hp, rfl⟩ := List.mem_map.1 hl
    exact Property.line_of_fits_comment (h.wellFormed_property p hp) (h.fits_comment p hp)

/-- If no line of a record has a line feed, no line of the file has one: the lines in
addition are empty. -/
theorem lineFeed_not_mem_fileLines {rs : List Record}
    (h : ∀ r ∈ rs, ∀ l ∈ r.lines, '\n' ∉ l) : ∀ l ∈ fileLines rs, '\n' ∉ l :=
  (forall_mem_intercalate_iff (by simp)).2 (List.forall_mem_map.2 h)

/-- A file that holds some records has their lines, up to carriage returns. This needs no
more than that no line has a line feed of its own. -/
theorem lines_fileText {rs : List Record} (h : ∀ r ∈ rs, ∀ l ∈ r.lines, '\n' ∉ l) :
    (fileText rs).lines = (fileLines rs).map Text.dropReturn := by
  have happend := Text.lines_flatMap (lineFeed_not_mem_fileLines h) []
  rwa [List.append_nil, Text.lines_nil, List.append_nil, ← fileText_eq_flatMap_fileLines]
    at happend

/-- The lines of records with an empty line between two of them. Printable records lose
nothing at the ends of their lines. -/
theorem lines_intercalate_text {rs : List Record} (h : ∀ r ∈ rs, r.Printable) :
    Text.lines (List.intercalate ['\n'] (rs.map Record.text))
      = List.intercalate [[]] (rs.map Record.lines) := by
  have hreturn : ∀ l ∈ fileLines rs, Text.dropReturn l = id l :=
    (forall_mem_intercalate_iff (by simp [Text.dropReturn])).2
      (List.forall_mem_map.2 fun r hr l hl => ((h r hr).line l hl).2)
  have hlines := lines_fileText fun r hr l hl => ((h r hr).line l hl).1
  rwa [List.map_congr_left hreturn, List.map_id] at hlines

end Record

/-! ### The blocks of a text -/

/-- Texts that are all taken for lines of one form are numbered one by one. It is used for
the match keys of a record and for its properties. -/
theorem Line.ofTexts_map {α : Type} {as : List α} {spell : α → Text} {line : α → Line}
    (h : ∀ a ∈ as, ofText (spell a) = line a) (count : Nat) :
    ofTexts count (as.map spell) = as.mapIdx fun i a => ⟨count + 1 + i, line a⟩ := by
  induction as generalizing count with
  | nil => rfl
  | cons a as ih =>
      have ih := ih (fun b hb => h b (List.mem_cons_of_mem _ hb)) (count + 1)
      rw [List.map_cons, ofTexts, ih, h a List.mem_cons_self, List.mapIdx_cons]
      simp only [Nat.add_zero, Nat.add_right_comm, Nat.add_assoc, Nat.add_comm 1]

/-- Reading items off lines that are numbered one by one leaves them so. The numbers come
from the lines. -/
theorem filterMap_mapIdx {α β γ : Type} {as : List α} {f : Nat → α → β} {g : β → Option γ}
    {h : Nat → α → γ} (hfg : ∀ i, ∀ a ∈ as, g (f i a) = some (h i a)) :
    (as.mapIdx f).filterMap g = as.mapIdx h := by
  induction as generalizing f h with
  | nil => rfl
  | cons a as ih =>
      have ih := ih fun i b hb => hfg (i + 1) b (List.mem_cons_of_mem _ hb)
      rw [List.mapIdx_cons, List.filterMap_cons_some (hfg 0 a List.mem_cons_self), ih,
        List.mapIdx_cons]

namespace Record

/-- The block of a record whose text comes after `count` lines. -/
def paragraph (count : Nat) (r : Record) : Paragraph :=
  .record (Line.ofTexts count r.keyLines)
    (Line.ofTexts (count + r.keys.length) r.propertyLines)

/-- The lines of the block of a record are the lines of the record, with their numbers. So
the tree that is built from the record is the one of its lines. -/
theorem lines_paragraph (count : Nat) (r : Record) :
    (paragraph count r).lines = Line.ofTexts count r.lines := by
  rw [paragraph, Paragraph.lines, lines, Line.ofTexts_append, keyLines, List.length_map]

/-- The lines of the match keys of a record are taken for these match keys. Their old
numbers do not come into it. -/
theorem WellFormed.ofTexts_keyLines {r : Record} (h : r.WellFormed) (count : Nat) :
    Line.ofTexts count r.keyLines
      = r.keys.mapIdx fun i k => ⟨count + 1 + i, .key k.item⟩ :=
  Line.ofTexts_map (fun k hk => Line.ofText_eq_key_iff.2 ⟨rfl, h.wellFormed_key k hk⟩) count

/-- The lines of the properties of a record are taken for these properties. Their old
numbers do not come into it either. -/
theorem WellFormed.ofTexts_propertyLines {r : Record} (h : r.WellFormed) (count : Nat) :
    Line.ofTexts count r.propertyLines
      = r.properties.mapIdx fun i p => ⟨count + 1 + i, .property p.item⟩ :=
  Line.ofTexts_map
    (fun p hp => Line.ofText_eq_property_iff.2 ⟨rfl, h.wellFormed_property p hp⟩) count

/-- The lines of the match keys of a record are all of one kind. They make up a header of
the grammar. -/
theorem WellFormed.kinds_keyLines {r : Record} (h : r.WellFormed) (count : Nat) :
    Paragraph.kinds (Line.ofTexts count r.keyLines) = r.keys.map fun _ => .key := by
  rw [Paragraph.kinds_ofTexts, keyLines, List.map_map]
  refine List.map_congr_left fun k hk => ?_
  have hline := Line.ofText_eq_key_iff.2 ⟨rfl, h.wellFormed_key k hk⟩
  exact congrArg Line.kind hline

/-- The lines of the properties of a record are all of one kind. They make up a body of the
grammar. -/
theorem WellFormed.kinds_propertyLines {r : Record} (h : r.WellFormed) (count : Nat) :
    Paragraph.kinds (Line.ofTexts count r.propertyLines)
      = r.properties.map fun _ => .property := by
  rw [Paragraph.kinds_ofTexts, propertyLines, List.map_map]
  refine List.map_congr_left fun p hp => ?_
  have hline := Line.ofText_eq_property_iff.2 ⟨rfl, h.wellFormed_property p hp⟩
  exact congrArg Line.kind hline

/-- The lines of a record are a record of the grammar: match keys and then properties,
without a comment. -/
theorem WellFormed.valid_paragraph {r : Record} (h : r.WellFormed) (count : Nat) :
    (r.paragraph count).Valid := by
  obtain ⟨k, ks, hkeys⟩ := List.exists_cons_of_ne_nil h.keys_ne_nil
  obtain ⟨p, ps, hproperties⟩ := List.exists_cons_of_ne_nil h.properties_ne_nil
  refine ⟨?_, ?_, ?_⟩
  · rw [h.kinds_keyLines, hkeys, Grammar.mem_header_iff]
    exact ⟨by simp, by simp⟩
  · rw [h.kinds_propertyLines, hproperties, List.map_cons, Grammar.mem_bodyRun_iff]
    exact ⟨_, _, rfl, Or.inr rfl, by simp⟩
  · rw [h.kinds_propertyLines, hproperties]
    simp

/-- The match keys of a record are read off its lines again, numbered from the first line
on. The lines of properties have none. -/
theorem WellFormed.keys_lines {r : Record} (h : r.WellFormed) (count : Nat) :
    Layout.keys (Line.ofTexts count r.lines)
      = r.keys.mapIdx fun i k => ⟨count + 1 + i, k.item⟩ := by
  have hkeys : Layout.keys (Line.ofTexts count r.keyLines)
      = r.keys.mapIdx fun i k => ⟨count + 1 + i, k.item⟩ := by
    rw [h.ofTexts_keyLines]
    exact filterMap_mapIdx fun _ _ _ => rfl
  have hnone : Layout.keys (Line.ofTexts (count + r.keyLines.length) r.propertyLines) = [] := by
    rw [Paragraph.keys_eq_nil_iff, h.kinds_propertyLines]
    simp
  rw [lines, Line.ofTexts_append, Layout.keys_append, hkeys, hnone, List.append_nil]

/-- The properties of a record are read off its lines again, and their numbers go on after
those of the match keys. -/
theorem WellFormed.properties_lines {r : Record} (h : r.WellFormed) (count : Nat) :
    Layout.properties (Line.ofTexts count r.lines)
      = r.properties.mapIdx fun i p => ⟨count + 1 + r.keys.length + i, p.item⟩ := by
  -- The lines of match keys come first and have no property among them.
  have hnone : Layout.properties (Line.ofTexts count r.keyLines) = [] := by
    rw [Paragraph.properties_eq_nil_iff, h.kinds_keyLines]
    simp
  have hproperties : Layout.properties
      (Line.ofTexts (count + r.keys.length) r.propertyLines)
      = r.properties.mapIdx fun i p => ⟨count + r.keys.length + 1 + i, p.item⟩ := by
    rw [h.ofTexts_propertyLines]
    exact filterMap_mapIdx fun _ _ _ => rfl
  rw [lines, Line.ofTexts_append, Layout.properties_append, hnone, List.nil_append, keyLines,
    List.length_map, hproperties, Nat.add_right_comm]

/-- The record of the lines of a record is that record at its place. It has the path of the
file that is read and the numbers of its lines there. -/
theorem WellFormed.ofBlock?_lines {path : Path} {r : Record} (h : r.WellFormed) (count : Nat) :
    Record.ofBlock? path (Line.ofTexts count r.lines) = some (r.place path (count + 1)) := by
  obtain ⟨k, ks, hcons⟩ := List.exists_cons_of_ne_nil h.keys_ne_nil
  have hkeys := h.keys_lines count
  rw [hcons, List.mapIdx_cons] at hkeys
  rw [Record.ofBlock?_of_keys_eq_cons hkeys, h.properties_lines, place, hcons,
    List.mapIdx_cons]

/-- The blocks of records of which the first comes after `count` lines. -/
def paragraphs (count : Nat) : List Record → List Paragraph
  | [] => []
  | r :: rs => r.paragraph count :: paragraphs (count + r.height + 1) rs

/-- Records written one after the other divide into their blocks. The induction is on the
records, and each but the last has an empty line after it. -/
theorem divides_of_wellFormed {rs : List Record} (h : ∀ r ∈ rs, r.WellFormed)
    (count : Nat) :
    Divides (Line.ofTexts count (List.intercalate [[]] (rs.map Record.lines)))
      (paragraphs count rs) := by
  induction rs generalizing count with
  | nil => exact .none
  | cons r rs ih =>
      have hr := (h r List.mem_cons_self).valid_paragraph count
      have ih := ih (fun q hq => h q (List.mem_cons_of_mem _ hq)) (count + r.height + 1)
      -- The last record has no empty line after it, so it is told from the others.
      cases rs with
      | nil =>
          rw [List.map_cons, List.map_nil, List.intercalate_singleton, ← lines_paragraph]
          exact .last hr
      | cons q rs =>
          have hlength : r.lines.length = r.height := by
            rw [lines, List.length_append, keyLines, propertyLines, List.length_map,
              List.length_map, height]
          rw [List.map_cons, List.map_cons, List.intercalate_cons_cons, ← List.map_cons,
            List.append_assoc, List.singleton_append, Line.ofTexts_append, Line.ofTexts,
            ← lines_paragraph, hlength]
          exact .cons hr ih

/-- Each block gives its record, at the place that the records before it leave. A record
takes as many lines as it has match keys and properties, and one more for the empty line. -/
theorem records_of_wellFormed {path : Path} {rs : List Record} (h : ∀ r ∈ rs, r.WellFormed)
    (count : Nat) :
    ((paragraphs count rs).filterMap fun p => Record.ofBlock? path p.lines)
      = rs.mapIdx fun i r =>
          r.place path (count + 1 + ((rs.take i).map fun q => q.height + 1).sum) := by
  induction rs generalizing count with
  | nil => rfl
  | cons r rs ih =>
      have ih := ih (fun q hq => h q (List.mem_cons_of_mem _ hq)) (count + r.height + 1)
      have hr : Record.ofBlock? path (r.paragraph count).lines
          = some (r.place path (count + 1)) := by
        rw [lines_paragraph]
        exact (h r List.mem_cons_self).ofBlock?_lines count
      rw [paragraphs, List.filterMap_cons, hr, ih, List.mapIdx_cons]
      -- The lines of `r` and the empty line after it are the first summand.
      refine congrArg _ (congrArg (List.mapIdx · rs) (funext₂ fun i q => ?_))
      rw [List.take_succ_cons, List.map_cons, List.sum_cons]
      exact congrArg (q.place path) (by omega)

/-- A text with the lines of some records, and an empty line between two of them, is read as
these records at their places. -/
theorem parse_of_lines_eq {path : Path} {t : Text} {rs : List Record}
    (h : ∀ r ∈ rs, r.WellFormed) (hlines : t.lines = fileLines rs) :
    Record.parse path t
      = .ok (rs.mapIdx fun i r =>
          r.place path (1 + ((rs.take i).map fun q => q.height + 1).sum)) := by
  have hdivides := divides_of_wellFormed h 0
  rw [← fileLines, ← hlines] at hdivides
  rw [parse_of_divides hdivides, records_of_wellFormed h]

/-- Printable records written one after the other divide into their blocks. It is
`divides_of_wellFormed` under the hypothesis that the writing of a file comes with. -/
theorem divides_intercalate_lines {rs : List Record} (h : ∀ r ∈ rs, r.Printable)
    (count : Nat) :
    Divides (Line.ofTexts count (List.intercalate [[]] (rs.map Record.lines)))
      (paragraphs count rs) :=
  divides_of_wellFormed (fun r hr => (h r hr).wellFormed) count

/-- The blocks of printable records give the records back, at the places that the records
before them leave. It is `records_of_wellFormed` for them. -/
theorem records_paragraphs {path : Path} {rs : List Record} (h : ∀ r ∈ rs, r.Printable)
    (count : Nat) :
    ((paragraphs count rs).filterMap fun p => Record.ofBlock? path p.lines)
      = rs.mapIdx fun i r =>
          r.place path (count + 1 + ((rs.take i).map fun q => q.height + 1).sum) :=
  records_of_wellFormed (fun r hr => (h r hr).wellFormed) count

/-- Reading undoes writing. Records written one after the other, with an empty line between
two of them, are read as the same records with the same match keys and properties. The
first one begins on the first line, each other one two lines after the end of the one before
it, and the lines of a record are numbered one by one. -/
theorem parse_intercalate_text (path : Path) (rs : List Record)
    (h : ∀ r ∈ rs, r.Printable) :
    Record.parse path (List.intercalate ['\n'] (rs.map Record.text))
      = .ok (rs.mapIdx fun i r =>
          r.place path (1 + ((rs.take i).map fun q => q.height + 1).sum)) := by
  have hdivides := divides_intercalate_lines h 0
  rw [← lines_intercalate_text h] at hdivides
  rw [parse_of_divides hdivides, records_paragraphs h]

/-- A pattern with a `#`, a value of blanks, and an empty comment beside an absent one. -/
theorem parse_intercalate_text_pair :
    Record.parse ⟨[]⟩ (List.intercalate ['\n']
        ([⟨⟨[]⟩, 7, [⟨9, ⟨.libinput, .name, ['#', ':']⟩⟩],
            [⟨9, ⟨['A'], [' '], none⟩⟩, ⟨8, ⟨['B'], ['=', ' '], some []⟩⟩]⟩,
          ⟨⟨[97]⟩, 7, [⟨9, ⟨.libinput, .mouse, ['x']⟩⟩], [⟨9, ⟨['A'], ['1'], none⟩⟩]⟩].map
          Record.text))
      = .ok
        [⟨⟨[]⟩, 1, [⟨1, ⟨.libinput, .name, ['#', ':']⟩⟩],
            [⟨2, ⟨['A'], [' '], none⟩⟩, ⟨3, ⟨['B'], ['=', ' '], some []⟩⟩]⟩,
          ⟨⟨[]⟩, 5, [⟨5, ⟨.libinput, .mouse, ['x']⟩⟩], [⟨6, ⟨['A'], ['1'], none⟩⟩]⟩] :=
  parse_intercalate_text ⟨[]⟩ _
    (List.forall_mem_cons.2 ⟨by decide, List.forall_mem_singleton.2 (by decide)⟩)

end Record

end Hwdb
