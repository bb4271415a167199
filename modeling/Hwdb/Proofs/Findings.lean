import Mathlib.Data.List.DropRight
import Hwdb.Findings
import Hwdb.Proofs.KeyIndex
import Hwdb.Proofs.Line
import Hwdb.Proofs.Setting

/-!
# `Hwdb.Proofs.Findings`: when there is something to report about records

A property that could stand in a line is interpreted as its tag, a `=` and its value
without the spaces at its end (`Property.bare_eq`). Its comment has no say. So its issue can
be read off the catalogue (`Property.issue?_eq`).

There is nothing to report about records exactly if all their match keys are different, no
record has a tag twice, and the catalogue admits every property
(`Findings.issues_eq_nil_iff`). What is reported is true of some property or of two
declarations (`of_mem_propertyIssuesAfter`, `Property.issue?_eq_some`,
`of_mem_repeatedKeyIssues`).
-/

set_option autoImplicit false

namespace Hwdb

open Reader (Stops)

namespace Property

/-! ### The interpreted form of a property -/

/-- The value without the spaces at its end. -/
def trimmedValue (p : Property) : Text :=
  p.value.rdropWhile (· == ' ')

/-- Letters and digits lie in one range of characters, far from all that is blank. It is how
the blank characters are ruled out without a look at each of them. -/
theorem toNat_of_isAlphanum {c : Char} (h : c.isAlphanum = true) :
    48 ≤ c.toNat ∧ c.toNat ≤ 122 := by
  have hupper : c.isUpper = true → 65 ≤ c.toNat ∧ c.toNat ≤ 90 := fun h =>
    of_decide_eq_true h
  have hlower : c.isLower = true → 97 ≤ c.toNat ∧ c.toNat ≤ 122 := fun h =>
    (Bool.and_eq_true_iff.1 h).imp of_decide_eq_true of_decide_eq_true
  have hdigit : c.isDigit = true → 48 ≤ c.toNat ∧ c.toNat ≤ 57 := Char.isDigit_iff_toNat.1
  -- The three ranges lie between `0` and `z`.
  rcases Bool.or_eq_true_iff.1 h with halpha | h
  · rcases Bool.or_eq_true_iff.1 halpha with h | h
    · have := hupper h
      omega
    · have := hlower h
      omega
  · have := hdigit h
    omega

/-- Of the characters of a value only the space is blank. So trimming a value takes spaces
away, and no other character that could matter. -/
theorem isBlank_of_isValueChar {c : Char} (h : Property.isValueChar c = true) :
    Text.isBlank c = (c == ' ') := by
  by_cases hspace : c = ' '
  · rw [hspace]
    decide
  · have hrange : 33 ≤ c.toNat ∧ c.toNat ≤ 126 := by
      rw [Property.isValueChar, Bool.or_eq_true] at h
      rcases h with halphanum | hother
      · have := toNat_of_isAlphanum halphanum
        omega
      · simp [hspace] at hother
        rcases hother with rfl | rfl | rfl | rfl | rfl | rfl | rfl <;> decide
    -- The space is the only blank character in this range, which the table skips.
    rw [beq_false_of_ne hspace]
    simp [Text.isBlank, Text.blankRanges]
    omega

/-- Trimming goes no further back than to a character that is to stay. Behind the `=` of a
property only its value can be trimmed. -/
theorem rdropWhile_append_cons {p q : Char → Bool} {s t : Text} {c : Char}
    (hc : p c = false) (ht : ∀ d ∈ t, p d = q d) :
    (s ++ c :: t).rdropWhile p = s ++ c :: t.rdropWhile q := by
  -- From the end: a character is dropped on both sides or on neither.
  induction t using List.reverseRecOn with
  | nil =>
      rw [List.rdropWhile_concat_neg _ _ _ (by rw [hc]; exact Bool.false_ne_true)]
      rfl
  | append_singleton t d ih =>
      have ih := ih fun e he => ht e (List.mem_append_left _ he)
      have hd : p d = q d := ht d (List.mem_append_right _ List.mem_cons_self)
      rw [← List.cons_append, ← List.append_assoc, List.rdropWhile_concat,
        List.rdropWhile_concat, hd]
      split
      · exact ih
      · rw [List.append_assoc, List.cons_append]

/-- What stands before the first `#` of a property is its tag, a `=` and its value, as none
of the three has a `#`. -/
theorem takeWhile_text {p : Property} (h : p.WellFormed) :
    p.text.takeWhile (· != '#') = p.tag ++ '=' :: p.value := by
  have hbefore : ∀ c ∈ p.tag ++ '=' :: p.value, (c != '#') = true := by
    intro c hc
    refine bne_iff_ne.2 fun hhash => ?_
    rw [hhash] at hc
    rcases List.mem_append.1 hc with hc | hc
    · exact absurd (h.isTag.isTagChar _ hc) (by decide)
    · rcases List.mem_cons.1 hc with hc | hc
      · cases hc
      · exact absurd (h.isValueChar _ hc) (by decide)
  -- The first `#` is that of the comment, if there is one at all.
  unfold Property.text
  cases p.comment with
  | some comment =>
      have hhash : Stops (· != '#') ('#' :: comment) := Reader.stops_cons.2 (by decide)
      exact Reader.takeWhile_append_of_stops hbefore hhash
  | none => exact Reader.takeWhile_append_of_stops hbefore (Reader.stops_nil _)

/-- A property is interpreted without its comment and the spaces at the end of its value.
What follows about the issues of properties goes by this equation. -/
theorem bare_eq {p : Property} (h : p.WellFormed) :
    p.bare = p.tag ++ '=' :: p.trimmedValue := by
  rw [bare, Text.withoutComment, takeWhile_text h]
  exact rdropWhile_append_cons (by decide) fun c hc =>
    isBlank_of_isValueChar (h.isValueChar c hc)

/-- Of the blank characters only the space can stand at the end of what is interpreted. In
this form the text of an issue can be held against the line itself. -/
theorem bare_eq_rdropWhile {p : Property} (h : p.WellFormed) :
    p.bare = (p.text.takeWhile (· != '#')).rdropWhile (· == ' ') := by
  rw [bare_eq h, takeWhile_text h]
  exact (rdropWhile_append_cons (by decide) fun _ _ => rfl).symm

/-- The catalogue is asked about the tag and the value without the spaces at its end, which
is `Setting.ofPair?` on the parts of the property. -/
theorem parse?_bare {p : Property} (h : p.WellFormed) :
    Setting.parse? p.bare = Setting.ofPair? p.tag p.trimmedValue := by
  have hequals : '=' ∉ p.tag := fun hmem =>
    absurd (h.isTag.isTagChar _ hmem) (by decide)
  rw [bare_eq h, Setting.parse?_append hequals]

/-! ### Issues -/

/-- An issue of a property by itself is of one of two kinds, and it is about the place of
the property. So it names no second place and no key. -/
theorem issue?_cases {site : Site} {p : Property} {issue : Issue}
    (h : p.issue? site = some issue) :
    (∃ text, issue = .unknownProperty site text) ∨
      ∃ tag d, issue = .invalidDimension site tag d := by
  unfold issue? at h
  split at h
  · cases h
  · split at h
    · cases h
    · exact Or.inr ⟨_, _, (Option.some.inj h).symm⟩
  · exact Or.inl ⟨_, (Option.some.inj h).symm⟩

/-- The issue of a property by itself is read off its setting: none in the catalogue, or a
dimension with a side of zero, or nothing to report. -/
theorem issue?_eq {site : Site} {p : Property} (h : p.WellFormed) :
    p.issue? site = match Setting.ofPair? p.tag p.trimmedValue with
      | some (.modelFlag _) => none
      | some (.hint _ d) =>
          if d.isPositive then none else some (.invalidDimension site p.tag d)
      | none => some (.unknownProperty site (p.tag ++ '=' :: p.trimmedValue)) := by
  rw [issue?, Setting.parse, parse?_bare h, bare_eq h]
  cases hs : Setting.ofPair? p.tag p.trimmedValue with
  | none => rfl
  | some s =>
      cases s with
      | modelFlag name => rfl
      | hint kind d =>
          have htag := (Setting.spells_hint_iff.1 (Setting.ofPair?_eq_some_iff.1 hs)).1
          rw [htag]

/-- A property has no issue of its own exactly if the catalogue admits it. Here the comment
and the spaces do not come into it any more. -/
theorem issue?_eq_none_iff {site : Site} {p : Property} (h : p.WellFormed) :
    p.issue? site = none ↔ Setting.Admits p.tag p.trimmedValue := by
  rw [Setting.admits_iff, issue?_eq h]
  simp only [← Setting.ofPair?_eq_some_iff]
  cases Setting.ofPair? p.tag p.trimmedValue with
  | none => simp
  | some s =>
      cases s with
      | modelFlag name => simp [Setting.dimension?]
      | hint kind d => simp [Setting.dimension?]

/-- An issue of a property by itself says that it is not in the catalogue, or that its value
is a dimension with a side of zero. -/
theorem issue?_eq_some {site : Site} {p : Property} {issue : Issue} (hp : p.WellFormed)
    (h : p.issue? site = some issue) :
    issue = .unknownProperty site p.bare ∨
      ∃ d width height, issue = .invalidDimension site p.tag d ∧
        p.trimmedValue = width ++ 'x' :: height ∧ Dimension.IsSide width d.width ∧
        Dimension.IsSide height d.height ∧ (d.width = 0 ∨ d.height = 0) := by
  rw [issue?_eq hp] at h
  -- Outside of the catalogue it is the property that is unknown. In it, only hints can be
  -- wrong.
  cases hs : Setting.ofPair? p.tag p.trimmedValue with
  | none =>
      rw [hs] at h
      rw [bare_eq hp]
      exact Or.inl (Option.some.inj h).symm
  | some s =>
      rw [hs] at h
      cases s with
      | modelFlag name => cases h
      | hint kind d =>
          obtain ⟨-, w, h', hvalue, hw, hh⟩ :=
            Setting.spells_hint_iff.1 (Setting.ofPair?_eq_some_iff.1 hs)
          have hissue : (if d.isPositive then none
              else some (Issue.invalidDimension site p.tag d)) = some issue := h
          split at hissue
          · cases hissue
          · next hpositive =>
              have hzero := Dimension.isPositive_eq_false_iff.1 (Bool.not_eq_true _ ▸ hpositive)
              exact Or.inr ⟨d, w, h', (Option.some.inj hissue).symm, hvalue, hw, hh, hzero⟩

end Property

/-- The check of properties takes the first one, with the tags seen before it, and goes on
with its tag among them. -/
theorem propertyIssuesAfter_cons (path : Path) (seen : List Text) (p : Numbered Property)
    (ps : List (Numbered Property)) :
    propertyIssuesAfter path seen (p :: ps)
      = (if p.item.tag ∈ seen then [.repeatedTag ⟨path, p.line⟩ p.item.tag] else [])
        ++ (p.item.issue? ⟨path, p.line⟩).toList
        ++ propertyIssuesAfter path (p.item.tag :: seen) ps := rfl

/-- Properties that come after others have nothing to report exactly if none has a tag of
those others, no two have the same tag, and none has an issue of its own. -/
theorem propertyIssuesAfter_eq_nil_iff {path : Path} {seen : List Text}
    {ps : List (Numbered Property)} :
    propertyIssuesAfter path seen ps = []
      ↔ (∀ p ∈ ps, p.item.tag ∉ seen) ∧ (ps.map fun p => p.item.tag).Nodup ∧
        ∀ p ∈ ps, p.item.issue? ⟨path, p.line⟩ = none := by
  induction ps generalizing seen with
  | nil =>
      show ([] : List Issue) = [] ↔ _
      simp
  | cons p ps ih =>
      have hagain : (if p.item.tag ∈ seen then [Issue.repeatedTag ⟨path, p.line⟩ p.item.tag]
          else []) = [] ↔ p.item.tag ∉ seen := by
        split
        · next hseen => simp [hseen]
        · next hseen => simp [hseen]
      rw [propertyIssuesAfter_cons, List.append_eq_nil_iff, List.append_eq_nil_iff, hagain, ih,
        Option.toList_eq_nil_iff, List.map_cons, List.nodup_cons, List.forall_mem_cons,
        List.forall_mem_cons]
      -- Later properties must not have the tag of `p`, which is among the seen ones for them.
      have hlater : (∀ q ∈ ps, q.item.tag ∉ p.item.tag :: seen)
          ↔ p.item.tag ∉ (ps.map fun q => q.item.tag) ∧ ∀ q ∈ ps, q.item.tag ∉ seen := by
        simp only [List.mem_cons, not_or, List.mem_map, not_exists, not_and]
        exact ⟨fun h => ⟨fun q hq => (h q hq).1, fun q hq => (h q hq).2⟩,
          fun h q hq => ⟨h.1 q hq, h.2 q hq⟩⟩
      rw [hlater]
      tauto

/-- An issue of properties that come after others is about one of them. Its tag is one of
those others' or of a property before it, or it is an issue of the property by itself. -/
theorem of_mem_propertyIssuesAfter {path : Path} {seen : List Text}
    {ps : List (Numbered Property)} {issue : Issue}
    (h : issue ∈ propertyIssuesAfter path seen ps) :
    ∃ before p after, ps = before ++ p :: after ∧
      ((issue = .repeatedTag ⟨path, p.line⟩ p.item.tag ∧
          (p.item.tag ∈ seen ∨ ∃ q ∈ before, q.item.tag = p.item.tag)) ∨
        p.item.issue? ⟨path, p.line⟩ = some issue) := by
  induction ps generalizing seen with
  | nil => cases h
  | cons p ps ih =>
      rw [propertyIssuesAfter_cons, List.mem_append, List.mem_append, Option.mem_toList] at h
      rcases h with (hagain | hown) | hlater
      · split at hagain
        · next hseen =>
            exact ⟨[], p, ps, rfl, Or.inl ⟨List.mem_singleton.1 hagain, Or.inl hseen⟩⟩
        · cases hagain
      · exact ⟨[], p, ps, rfl, Or.inr hown⟩
      · obtain ⟨before, q, after, rfl, hq⟩ := ih hlater
        refine ⟨p :: before, q, after, rfl, hq.imp (And.imp_right fun htag => ?_) id⟩
        -- For the later properties the tag of `p` is one of those seen.
        rcases htag with hseen | ⟨q', hq', htag⟩
        · rcases List.mem_cons.1 hseen with heq | hseen
          · exact Or.inr ⟨p, List.mem_cons_self, heq.symm⟩
          · exact Or.inl hseen
        · exact Or.inr ⟨q', List.mem_cons_of_mem _ hq', htag⟩

/-- A record has nothing to report about its properties exactly if their tags are different
and none has an issue of its own. -/
theorem Record.propertyIssues_eq_nil_iff {r : Record} :
    r.propertyIssues = []
      ↔ (r.properties.map fun p => p.item.tag).Nodup ∧
        ∀ p ∈ r.properties, p.item.issue? ⟨r.path, p.line⟩ = none := by
  rw [propertyIssues, propertyIssuesAfter_eq_nil_iff, and_iff_right]
  simp

/-- A repeated key is reported once less than it is declared: its first place is where each
of the reports points to. -/
theorem RepeatedKey.length_issues (k : RepeatedKey) :
    k.issues.length = k.sites.length - 1 := by
  unfold RepeatedKey.issues
  cases k.sites with
  | nil => rfl
  | cons first extra => simp

/-- There is nothing to report about match keys exactly if no two declarations have the same
key, in one file or in several. -/
theorem repeatedKeyIssues_eq_nil_iff {rs : List Record} :
    repeatedKeyIssues rs = []
      ↔ ((declarations rs).map Declaration.key).Nodup := by
  have hholds := KeyIndex.holds_ofRecords rs
  rw [← hholds.repeated_eq_nil_iff, repeatedKeyIssues, List.flatMap_eq_nil_iff]
  constructor
  · intro hnone
    rw [List.eq_nil_iff_forall_not_mem]
    intro k hk
    -- A key in the list has two places, and so it would have an issue.
    have hlength := k.length_issues
    rw [hnone k hk, List.length_nil] at hlength
    have hsites := (hholds.mem_repeated_iff.1 hk).2
    omega
  · intro hnil k hk
    rw [hnil] at hk
    cases hk

/-- An issue about a repeated key has a declaration of the key and, for the first place, an
earlier one. The two stand in the order of the declarations. -/
theorem of_mem_repeatedKeyIssues {rs : List Record} {issue : Issue}
    (h : issue ∈ repeatedKeyIssues rs) :
    ∃ d e : Declaration, [d, e].Sublist (declarations rs) ∧ d.key = e.key ∧
      issue = .repeatedKey e.key e.site d.site := by
  obtain ⟨k, hk, hissue⟩ := List.mem_flatMap.1 h
  have hsites := ((KeyIndex.holds_ofRecords rs).mem_repeated_iff.1 hk).1
  unfold RepeatedKey.issues at hissue
  cases hcases : k.sites with
  | nil =>
      rw [hcases] at hissue
      cases hissue
  | cons first extra =>
      rw [hcases] at hissue hsites
      obtain ⟨site, hsite, rfl⟩ := List.mem_map.1 hissue
      -- The two places are those of two declarations of the key, in the same order.
      have hplaces : [first, site].Sublist
          (KeyIndex.sitesOf k.text (declarations rs)) := by
        rw [← hsites]
        exact (List.singleton_sublist.2 hsite).cons_cons first
      obtain ⟨pair, hpair, hmap⟩ := List.sublist_map_iff.1 hplaces
      obtain ⟨d, rest, rfl, rfl, hrest⟩ := List.map_eq_cons_iff.1 hmap.symm
      obtain ⟨e, rfl, rfl⟩ := List.map_eq_singleton_iff.1 hrest
      have hkey : ∀ f ∈ [d, e], f.key = k.text := fun f hf =>
        of_decide_eq_true (List.mem_filter.1 (hpair.mem hf)).2
      have hd := hkey d (by simp)
      have he := hkey e (by simp)
      exact ⟨d, e, hpair.trans List.filter_sublist, hd.trans he.symm, by rw [he]⟩

/-- When there is nothing to report about records: the match keys of all of them are
different, and each record by itself is in order. -/
theorem Findings.issues_eq_nil_iff {rs : List Record} :
    (Findings.ofRecords rs).issues = []
      ↔ ((declarations rs).map Declaration.key).Nodup ∧
        ∀ r ∈ rs, (r.properties.map fun p => p.item.tag).Nodup ∧
          ∀ p ∈ r.properties, p.item.issue? ⟨r.path, p.line⟩ = none := by
  rw [Findings.ofRecords, List.append_eq_nil_iff, repeatedKeyIssues_eq_nil_iff,
    List.flatMap_eq_nil_iff]
  simp only [Record.propertyIssues_eq_nil_iff]

end Hwdb
