import Mathlib.Data.Finset.Card
import Mathlib.Data.List.Dedup
import Hwdb.Proofs.Places
import Hwdb.Proofs.Findings

/-!
# `Hwdb.Proofs.PropertyCheck`: what is reported about the properties of a record

Every property of a record is looked at, whatever came of those before it. What is reported
about it depends on the tags before it and on the property itself (`Property.issuesBehind`),
and the issues of a record are these of one property after the other
(`propertyIssuesAfter_eq_flatMap`). The issue of the property itself follows the catalogue
alone (`Property.Judged`).

A check can be cut behind any property: the issues of the first properties come first
(`propertyIssuesAfter_append`). So repeated tags can be counted one more property at a time
(`countP_isRepeatedTag_add`). `Record.Checked` says all of this about a record, and
`Record.propertyIssues_checked` that it is true of every record of a file.
-/

set_option autoImplicit false

namespace Hwdb

namespace Issue

/-- The place that an issue is about, if it is not about a whole file. -/
def site? : Issue → Option Site
  | structural _ _ | unreadable _ _ => none
  | unknownProperty site _ | repeatedTag site _ | repeatedKey _ site _
  | invalidDimension site _ _ => some site

/-- Whether an issue is about a tag that has been there before. -/
def isRepeatedTag : Issue → Bool
  | repeatedTag _ _ => true
  | _ => false

end Issue

namespace Property

/-! ### A property by itself -/

/-- Whether something is the issue that a property at a given place has by itself. -/
structure Judged (site : Site) (p : Property) (found : Option Issue) : Prop where
  /-- The property is not in the catalogue, -/
  eq_unknownProperty_iff :
    found = some (.unknownProperty site (p.tag ++ '=' :: p.trimmedValue))
      ↔ ∀ s, ¬ Setting.Spells p.tag p.trimmedValue s
  /-- or it is a hint that has a side of zero, -/
  eq_invalidDimension_iff : ∀ d, found = some (.invalidDimension site p.tag d)
    ↔ (∃ kind, Setting.Spells p.tag p.trimmedValue (.hint kind d)) ∧
      (d.width = 0 ∨ d.height = 0)
  /-- or it is a model flag or a hint that has none, -/
  eq_none_iff : found = none ↔ Setting.Admits p.tag p.trimmedValue
  /-- and there is nothing else to find. -/
  eq_of_eq_some : ∀ issue, found = some issue →
    issue = .unknownProperty site (p.tag ++ '=' :: p.trimmedValue) ∨
      ∃ d, issue = .invalidDimension site p.tag d

/-- The issue that a property has by itself is the one that it is judged to have: none if it
is admitted, a dimension with a side of zero if it is a hint with one, and else that it is
unknown. The property has to be one that a line can hold, or its comment could not be told
from its value. -/
theorem judged_issue? (site : Site) {p : Property} (h : p.WellFormed) :
    p.Judged site (p.issue? site) where
  eq_unknownProperty_iff := by
    simp only [← Setting.ofPair?_eq_some_iff]
    rw [issue?_eq h]
    -- The catalogue has nothing, a model flag, or a hint with a dimension.
    cases Setting.ofPair? p.tag p.trimmedValue with
    | none => simp
    | some s =>
        cases s with
        | modelFlag name => simp
        | hint kind d => cases d.isPositive <;> simp
  eq_invalidDimension_iff d := by
    simp only [← Setting.ofPair?_eq_some_iff]
    rw [issue?_eq h, ← Dimension.isPositive_eq_false_iff]
    cases Setting.ofPair? p.tag p.trimmedValue with
    | none => simp
    | some s =>
        cases s with
        | modelFlag name => simp
        | hint kind e =>
            -- Only the dimension that stands there can be the one that is reported.
            by_cases hde : e = d
            · subst hde
              cases hpositive : e.isPositive <;> simp [hpositive]
            · simp [hde]
  eq_none_iff := issue?_eq_none_iff h
  eq_of_eq_some issue hissue := by
    rw [← bare_eq h]
    refine (issue?_eq_some h hissue).imp_right ?_
    rintro ⟨d, -, -, hd, -⟩
    exact ⟨d, hd⟩

/-! ### A property behind others -/

/-- The tags of some properties. -/
def tags (ps : List (Numbered Property)) : List Text :=
  ps.map fun p => p.item.tag

/-- What is reported about a property that stands behind others in a record of the file. -/
def issuesBehind (path : Path) (earlier : List (Numbered Property)) (p : Numbered Property) :
    List Issue :=
  (if ∃ q ∈ earlier, q.item.tag = p.item.tag then [.repeatedTag ⟨path, p.line⟩ p.item.tag]
    else []) ++ (p.item.issue? ⟨path, p.line⟩).toList

/-- What is reported about a property behind others, as an equation: first that its tag has
been there, then what is wrong with it by itself. -/
theorem issuesBehind_eq (path : Path) (earlier : List (Numbered Property))
    (p : Numbered Property) :
    issuesBehind path earlier p
      = (if p.item.tag ∈ tags earlier then [.repeatedTag ⟨path, p.line⟩ p.item.tag] else [])
        ++ (p.item.issue? ⟨path, p.line⟩).toList := by
  simp only [issuesBehind, tags, List.mem_map]

/-- All that is reported about a property is about its own line. An earlier property with
the same tag is not named. -/
theorem site?_of_mem_issuesBehind {path : Path} {earlier : List (Numbered Property)}
    {p : Numbered Property} {issue : Issue} (h : issue ∈ issuesBehind path earlier p) :
    issue.site? = some ⟨path, p.line⟩ := by
  rcases List.mem_append.1 h with hagain | hown
  · split at hagain
    · rw [List.mem_singleton.1 hagain]
      rfl
    · cases hagain
  · rcases issue?_cases (Option.mem_toList.1 hown) with ⟨text, rfl⟩ | ⟨tag, d, rfl⟩ <;> rfl

/-- At most one report about a property is about its tag, and there is one exactly if the
tag has been there. -/
theorem countP_issuesBehind (path : Path) (earlier : List (Numbered Property))
    (p : Numbered Property) :
    (issuesBehind path earlier p).countP Issue.isRepeatedTag
      = if p.item.tag ∈ tags earlier then 1 else 0 := by
  have hown : (p.item.issue? ⟨path, p.line⟩).toList.countP Issue.isRepeatedTag = 0 := by
    refine List.countP_eq_zero.2 fun issue hissue => ?_
    rcases issue?_cases (Option.mem_toList.1 hissue) with ⟨text, rfl⟩ | ⟨tag, d, rfl⟩ <;>
      exact Bool.false_ne_true
  rw [issuesBehind_eq, List.countP_append, hown]
  split <;> rfl

end Property

/-! ### One property after the other -/

open Property (tags issuesBehind issuesBehind_eq)

/-- A check can be cut anywhere: what comes behind the cut goes by the tags in front of it,
and by nothing else. -/
theorem propertyIssuesAfter_append (path : Path) (seen : List Text)
    (ps qs : List (Numbered Property)) :
    propertyIssuesAfter path seen (ps ++ qs)
      = propertyIssuesAfter path seen ps
        ++ propertyIssuesAfter path ((tags ps).reverse ++ seen) qs := by
  induction ps generalizing seen with
  | nil => rfl
  | cons p ps ih =>
      have htags : (tags (p :: ps)).reverse ++ seen
          = (tags ps).reverse ++ p.item.tag :: seen := by
        rw [tags, List.map_cons, List.reverse_cons, List.append_assoc]
        rfl
      rw [List.cons_append, propertyIssuesAfter_cons, propertyIssuesAfter_cons, ih, htags]
      simp only [List.append_assoc]

/-- The issues of properties are those of one after the other, each of which comes behind
the ones in front of it. So the list of tags seen, which the check carries along, is no part
of its meaning. -/
theorem propertyIssuesAfter_eq_flatMap (path : Path) (before ps : List (Numbered Property)) :
    propertyIssuesAfter path (tags before).reverse ps
      = (ps.zip ps.inits).flatMap
        fun (p, earlier) => issuesBehind path (before ++ earlier) p := by
  induction ps generalizing before with
  | nil => rfl
  | cons p ps ih =>
      -- For the later properties, `p` is one more that stands in front.
      have htags : p.item.tag :: (tags before).reverse = (tags (before ++ [p])).reverse := by
        rw [tags, tags, List.map_append, List.reverse_append]
        rfl
      rw [propertyIssuesAfter_cons, htags, ih, List.inits_cons, List.zip_cons_cons,
        List.flatMap_cons, List.zip_map_right, List.flatMap_map]
      simp only [issuesBehind_eq, List.append_nil, List.mem_reverse, List.append_assoc]
      rfl

/-- One more property brings its own issues, and they come last. What has been reported
stays as it was. -/
theorem propertyIssuesAfter_concat (path : Path) (ps : List (Numbered Property))
    (p : Numbered Property) :
    propertyIssuesAfter path [] (ps ++ [p])
      = propertyIssuesAfter path [] ps ++ issuesBehind path ps p := by
  have hagain : p.item.tag ∈ (tags ps).reverse ++ [] ↔ p.item.tag ∈ tags ps := by
    rw [List.append_nil, List.mem_reverse]
  rw [propertyIssuesAfter_append, propertyIssuesAfter_cons, issuesBehind_eq]
  simp only [hagain]
  exact congrArg _ (List.append_nil _)

/-- The number of different tags grows with each tag that is new, and with no other. It is
the step of `countP_isRepeatedTag_add`. -/
theorem length_dedup_tags_concat (ps : List (Numbered Property)) (p : Numbered Property) :
    (tags (ps ++ [p])).dedup.length
      = (tags ps).dedup.length + if p.item.tag ∈ tags ps then 0 else 1 := by
  have hinsert : (tags (ps ++ [p])).toFinset = insert p.item.tag (tags ps).toFinset := by
    ext tag
    simp [tags]
  rw [← List.card_toFinset, ← List.card_toFinset, hinsert, Finset.card_insert_eq_ite]
  simp only [List.mem_toFinset]
  split <;> rfl

/-- Every property has a new tag, or it is reported for its tag: the two counts add up to
the number of properties. -/
theorem countP_isRepeatedTag_add (path : Path) (ps : List (Numbered Property)) :
    (propertyIssuesAfter path [] ps).countP Issue.isRepeatedTag + (tags ps).dedup.length
      = ps.length := by
  induction ps using List.reverseRecOn with
  | nil => rfl
  | append_singleton ps p ih =>
      rw [propertyIssuesAfter_concat, List.countP_append, Property.countP_issuesBehind,
        length_dedup_tags_concat, List.length_append, List.length_singleton, ← ih]
      split <;> omega

/-! ### The properties of a record -/

namespace Record

/-- The issues of a record are those of its properties, each behind the ones before it. At
the front of a record no tag has been there. -/
theorem propertyIssues_eq_flatMap (r : Record) :
    r.propertyIssues = (r.properties.zip r.properties.inits).flatMap
      fun (p, earlier) => issuesBehind r.path earlier p :=
  propertyIssuesAfter_eq_flatMap r.path [] r.properties

/-- Issues come in the order of the lines that they are about. The issues of one property
are about one line, and those of a later property about a later one. -/
theorem pairwise_site?_propertyIssues {r : Record}
    (h : r.properties.Pairwise fun p q => p.line < q.line) :
    (r.propertyIssues.filterMap Issue.site?).Pairwise fun s s' => s.line ≤ s'.line := by
  -- Each property is there once, with those in front of it, so the lines are in order here too.
  have hfirst : (r.properties.zip r.properties.inits).map Prod.fst = r.properties :=
    List.map_fst_zip (by simp)
  have horder : (r.properties.zip r.properties.inits).Pairwise
      fun x y => x.1.line < y.1.line := by
    rw [← hfirst, List.pairwise_map] at h
    exact h
  have hsite : ∀ (x : Numbered Property × List (Numbered Property)),
      ∀ s ∈ (issuesBehind r.path x.2 x.1).filterMap Issue.site?, s.line = x.1.line := by
    intro x s hs
    obtain ⟨issue, hissue, hs⟩ := List.mem_filterMap.1 hs
    rw [Property.site?_of_mem_issuesBehind hissue] at hs
    cases hs
    rfl
  rw [propertyIssues_eq_flatMap, List.filterMap_flatMap, List.pairwise_flatMap]
  constructor
  · intro x _
    refine List.pairwise_of_forall_mem_list fun s hs s' hs' => Nat.le_of_eq ?_
    rw [hsite x s hs, hsite x s' hs']
  · refine horder.imp fun {x y} hxy s hs s' hs' => ?_
    rw [hsite x s hs, hsite y s' hs']
    exact Nat.le_of_lt hxy

/-- What the issues of the properties of a record are. -/
structure Checked (r : Record) : Prop where
  /-- They are those of its properties one after the other: a tag that has been there before,
  and then the issue of the property by itself. -/
  propertyIssues_eq : r.propertyIssues = (r.properties.zip r.properties.inits).flatMap
    fun (p, earlier) => issuesBehind r.path earlier p
  /-- A property by itself is judged by the catalogue. -/
  judged : ∀ p ∈ r.properties,
    p.item.Judged ⟨r.path, p.line⟩ (p.item.issue? ⟨r.path, p.line⟩)
  /-- Every issue is about the line of a property, -/
  site?_eq : ∀ issue ∈ r.propertyIssues,
    ∃ p ∈ r.properties, issue.site? = some ⟨r.path, p.line⟩
  /-- and the issues come in the order of the lines. -/
  pairwise_line : (r.propertyIssues.filterMap Issue.site?).Pairwise
    fun s s' => s.line ≤ s'.line
  /-- All properties but the first one with their tag are reported for it. -/
  countP_add_eq : r.propertyIssues.countP Issue.isRepeatedTag
    + (tags r.properties).dedup.length = r.properties.length
  /-- Whatever stands behind some properties changes nothing about their issues. -/
  take : ∀ n, { r with properties := r.properties.take n }.propertyIssues <+: r.propertyIssues

/-- The properties of every record of a file are checked to the end, whatever is wrong with
them. The parts come from `propertyIssues_eq_flatMap`, from `judged_issue?` and from the
lines that the properties stood in. -/
theorem propertyIssues_checked {path : Path} {t : Text} {rs : List Record} {r : Record}
    (h : parse path t = .ok rs) (hr : r ∈ rs) : r.Checked where
  propertyIssues_eq := r.propertyIssues_eq_flatMap
  judged p hp := Property.judged_issue? _ (hasLine_property h hr hp).2
  site?_eq issue hissue := by
    rw [propertyIssues_eq_flatMap] at hissue
    obtain ⟨⟨p, earlier⟩, hp, hissue⟩ := List.mem_flatMap.1 hissue
    exact ⟨p, (List.of_mem_zip hp).1, Property.site?_of_mem_issuesBehind hissue⟩
  pairwise_line := pairwise_site?_propertyIssues (pairwise_properties h hr)
  countP_add_eq := countP_isRepeatedTag_add r.path r.properties
  take n := by
    have hcut := propertyIssuesAfter_append r.path [] (r.properties.take n) (r.properties.drop n)
    rw [List.take_append_drop] at hcut
    exact ⟨_, hcut.symm⟩

/-- A record with every kind of issue: an unknown property twice, once with nothing but spaces
for its value, a hint with a side of zero, and a model flag again. -/
theorem propertyIssues_checked_every_kind :
    ∃ (t : Text) (r : Record),
      t = ("libinput:name:x\n LIBINPUT_MODEL_A=1\n F=   \n F=a=2  # b\n"
        ++ " LIBINPUT_ATTR_SIZE_HINT=0x5 \n LIBINPUT_MODEL_A=1\n").toList ∧
      parse ⟨[97]⟩ t = .ok [r] ∧ r.Checked ∧
      r.propertyIssues = [.unknownProperty ⟨⟨[97]⟩, 3⟩ "F=".toList,
        .repeatedTag ⟨⟨[97]⟩, 4⟩ "F".toList, .unknownProperty ⟨⟨[97]⟩, 4⟩ "F=a=2".toList,
        .invalidDimension ⟨⟨[97]⟩, 5⟩ "LIBINPUT_ATTR_SIZE_HINT".toList ⟨0, 5⟩,
        .repeatedTag ⟨⟨[97]⟩, 6⟩ "LIBINPUT_MODEL_A".toList] := by
  have h : parse ⟨[97]⟩ ("libinput:name:x\n LIBINPUT_MODEL_A=1\n F=   \n F=a=2  # b\n"
        ++ " LIBINPUT_ATTR_SIZE_HINT=0x5 \n LIBINPUT_MODEL_A=1\n").toList
      = .ok [⟨⟨[97]⟩, 1, [⟨1, .libinput, .name, ['x']⟩],
          [⟨2, "LIBINPUT_MODEL_A".toList, ['1'], none⟩, ⟨3, ['F'], "   ".toList, none⟩,
            ⟨4, ['F'], "a=2  ".toList, some " b".toList⟩,
            ⟨5, "LIBINPUT_ATTR_SIZE_HINT".toList, "0x5 ".toList, none⟩,
            ⟨6, "LIBINPUT_MODEL_A".toList, ['1'], none⟩]⟩] := by
    decide +kernel
  exact ⟨_, _, rfl, h, propertyIssues_checked h List.mem_cons_self, by decide +kernel⟩

end Record

end Hwdb
