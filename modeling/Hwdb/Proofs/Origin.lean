import Hwdb.Proofs.Findings
import Hwdb.Proofs.Places
import Hwdb.Proofs.Run

/-!
# `Hwdb.Proofs.Origin`: every issue points at its line

An issue has sites: paths with line numbers. `Issue.PointsTo` says, for each kind of issue,
what stands there in the texts that a run was given, without a word about records. A key that
is declared again and its first declaration are lines of their own, the first one before the
other. A tag that stands twice does so with no blank line between. `Run.issues_pointsTo` says
that all issues of a run point at such lines.

The files of a run are told apart by their number, because two of them may have one path.
-/

set_option autoImplicit false

namespace Hwdb

/-! ### What stands at a site -/

section
variable (sources : List (Path × Text))

/-- The file with the number `i` has the path of the site, it can be read, and on the line of
the site it has the text `l`. -/
def StandsAt (i : Nat) (site : Site) (l : Text) : Prop :=
  ∃ t, sources[i]? = some (site.path, t) ∧ (∃ rs, Record.parse site.path t = .ok rs) ∧
    t.HasLine site.line l

/-- The line of the site is a property. -/
def PropertyAt (i : Nat) (site : Site) (p : Property) : Prop :=
  ∃ l, StandsAt sources i site l ∧ Line.ofText l = .property p

/-- What an issue of records says about the files is true of their lines. -/
inductive Issue.PointsTo : Issue → Prop
  /-- The key is a line of its own at both sites. The first of them is in an earlier file, or
  further up in the same one. -/
  | repeatedKey {key : Text} {site first : Site} {k : MatchKey} {i j : Nat} :
      Line.ofText key = .key k → StandsAt sources i site key → StandsAt sources j first key →
      (j < i ∨ j = i ∧ first.line < site.line) → PointsTo (.repeatedKey key site first)
  /-- The line is a property with the tag. Further up there is another one, and there is no
  blank line between them. -/
  | repeatedTag {site : Site} {p q : Property} {i m : Nat} :
      PropertyAt sources i site p → PropertyAt sources i ⟨site.path, m⟩ q → q.tag = p.tag →
      m < site.line →
      (∀ n, m < n → n < site.line → ¬ StandsAt sources i ⟨site.path, n⟩ []) →
      PointsTo (.repeatedTag site p.tag)
  /-- The line is a property. The text is the line without the space at its beginning, cut at
  the first `#` and without the spaces at the end of what is left. -/
  | unknownProperty {site : Site} {l : Text} {p : Property} {i : Nat} :
      StandsAt sources i site l → Line.ofText l = .property p →
      PointsTo (.unknownProperty site
        (((l.drop 1).takeWhile (· != '#')).rdropWhile (· == ' ')))
  /-- The line is a property with the tag. Its value denotes the dimension, which has a side
  of zero. -/
  | invalidDimension {site : Site} {p : Property} {w h : Text} {d : Dimension} {i : Nat} :
      PropertyAt sources i site p → p.trimmedValue = w ++ 'x' :: h →
      Dimension.IsSide w d.width → Dimension.IsSide h d.height → (d.width = 0 ∨ d.height = 0) →
      PointsTo (.invalidDimension site p.tag d)

end

/-! ### Records of a run -/

section
variable {sources : List (Path × Text)}

/-- In a file that can be read, any line stands at its site. The site has the path of the
file, so only the line is left to look at. -/
theorem standsAt_iff {i : Nat} {site : Site} {t l : Text} {rs : List Record}
    (hsource : sources[i]? = some (site.path, t)) (h : Record.parse site.path t = .ok rs) :
    StandsAt sources i site l ↔ t.HasLine site.line l := by
  constructor
  · rintro ⟨t', hsource', -, hl⟩
    rw [hsource, Option.some.injEq, Prod.mk.injEq] at hsource'
    rwa [hsource'.2]
  · intro hl
    exact ⟨t, hsource, ⟨rs, h⟩, hl⟩

/-- Every record of a run comes from one of its files. The number of the file says which
one, as several may have the same path. -/
theorem Run.exists_source_of_mem {r : Record} (hr : r ∈ (Run.ofTexts sources).records) :
    ∃ (i : Nat) (t : Text) (rs : List Record),
      sources[i]? = some (r.path, t) ∧ Record.parse r.path t = .ok rs ∧ r ∈ rs := by
  obtain ⟨⟨path, t⟩, hs, rs, hrs, hr⟩ := Run.mem_records_ofTexts.1 hr
  obtain ⟨i, hi⟩ := List.getElem?_of_mem hs
  obtain rfl : r.path = path := Record.path_of_mem hrs hr
  exact ⟨i, t, rs, hi, hrs, hr⟩

/-! ### Repeated keys -/

/-- Two elements that are picked one after the other come from two lists, or in their order
from one. With files for the lists, the earlier one of two declarations is in an earlier
file or further up in the same one. -/
theorem exists_of_pair_sublist_flatMap {α β : Type} {f : α → List β} {as : List α} {b c : β}
    (h : [b, c].Sublist (as.flatMap f)) :
    ∃ (j i : Nat) (a a' : α), as[j]? = some a ∧ as[i]? = some a' ∧ b ∈ f a ∧ c ∈ f a' ∧
      (j < i ∨ j = i ∧ [b, c].Sublist (f a)) := by
  induction as with
  | nil => cases h
  | cons a as ih =>
      rw [List.flatMap_cons] at h
      obtain ⟨first, second, hpair, hfirst, hsecond⟩ := List.sublist_append_iff.1 h
      -- How many of the two come from `a`?
      match first with
      | [] =>
          rw [List.nil_append] at hpair
          obtain ⟨j, i, a₁, a₂, hj, hi, hb, hc, horder⟩ := ih (hpair ▸ hsecond)
          exact ⟨j + 1, i + 1, a₁, a₂, hj, hi, hb, hc,
            horder.imp Nat.succ_lt_succ (And.imp_left (congrArg Nat.succ))⟩
      | [b'] =>
          obtain ⟨rfl, rfl⟩ : b = b' ∧ [c] = second := by simpa using hpair
          obtain ⟨a', ha', hc⟩ := List.mem_flatMap.1 (List.singleton_sublist.1 hsecond)
          obtain ⟨i, hi⟩ := List.getElem?_of_mem ha'
          exact ⟨0, i + 1, a, a', rfl, hi, List.singleton_sublist.1 hfirst, hc,
            Or.inl (Nat.succ_pos i)⟩
      | b' :: c' :: rest =>
          obtain ⟨rfl, rfl, rfl, -⟩ : b = b' ∧ c = c' ∧ rest = [] ∧ second = [] := by
            simpa using hpair
          exact ⟨0, 0, a, a, rfl, rfl, hfirst.mem (by simp), hfirst.mem (by simp),
            Or.inr ⟨rfl, hfirst⟩⟩

/-- A declaration has the site of the line that it is. The line is taken for a match key,
and its text is the key. -/
theorem standsAt_of_mem_declarations {i : Nat} {path : Path} {t : Text} {d : Declaration}
    (hsource : sources[i]? = some (path, t))
    (hd : d ∈ declarations (Reading.ofText path t).records) :
    StandsAt sources i d.site d.key ∧ ∃ k, Line.ofText d.key = .key k := by
  obtain ⟨r, hr, hd⟩ := List.mem_flatMap.1 hd
  obtain ⟨rs, hrs, hr⟩ := Reading.mem_records_ofText.1 hr
  obtain ⟨k, hk, rfl⟩ := List.mem_map.1 hd
  obtain ⟨hline, hwf⟩ := Record.hasLine_key hrs hr hk
  obtain rfl : r.path = path := Record.path_of_mem hrs hr
  exact ⟨⟨t, hsource, ⟨rs, hrs⟩, hline⟩, k.item, Line.ofText_eq_key_iff.2 ⟨rfl, hwf⟩⟩

/-- Later declarations of a file stand on later lines. So no two of them have one site. -/
theorem pairwise_declarations_ofText (path : Path) (t : Text) :
    (declarations (Reading.ofText path t).records).Pairwise
      fun d e => d.site.line < e.site.line := by
  cases hparse : Record.parse path t with
  | error e =>
      have hnone : (Reading.ofText path t).records = [] := by
        rw [Reading.ofText, hparse]
        rfl
      rw [hnone]
      exact .nil
  | ok rs =>
      -- The line of a declaration is that of its match key.
      have hlines : (declarations rs).map (fun d => d.site.line)
          = (rs.flatMap Record.keys).map Numbered.line := by
        simp only [declarations, List.map_flatMap, Record.declarations, List.map_map]
        rfl
      have horder := List.pairwise_map.2 (Record.pairwise_keys hparse)
      rw [← hlines] at horder
      rw [Reading.ofText_of_parse_eq_ok hparse]
      exact List.pairwise_map.1 horder

/-- An issue about a repeated key points at a line with that key, and its first place is an
earlier line with the same key, in the same file or in one before. -/
theorem pointsTo_of_mem_repeatedKeyIssues {issue : Issue}
    (h : issue ∈ repeatedKeyIssues (Run.ofTexts sources).records) : issue.PointsTo sources := by
  obtain ⟨d, e, hpair, hkey, rfl⟩ := of_mem_repeatedKeyIssues h
  rw [declarations, Run.records_ofTexts, List.flatMap_assoc] at hpair
  obtain ⟨j, i, ⟨path, t⟩, ⟨path', t'⟩, hj, hi, hd, he, horder⟩ :=
    exists_of_pair_sublist_flatMap hpair
  obtain ⟨hfirst, -⟩ := standsAt_of_mem_declarations hj hd
  obtain ⟨hsite, k, hk⟩ := standsAt_of_mem_declarations hi he
  rw [hkey] at hfirst
  refine .repeatedKey hk hsite hfirst (horder.imp id (And.imp_right fun hsame => ?_))
  exact List.pairwise_iff_forall_sublist.1 (pairwise_declarations_ofText path t) hsame

/-! ### Properties -/

/-- A property of a record has the site of the line that it is. The line is taken for that
property. -/
theorem standsAt_of_mem_properties {i : Nat} {t : Text} {rs : List Record} {r : Record}
    {p : Numbered Property} (hsource : sources[i]? = some (r.path, t))
    (h : Record.parse r.path t = .ok rs) (hr : r ∈ rs) (hp : p ∈ r.properties) :
    StandsAt sources i ⟨r.path, p.line⟩ (' ' :: p.item.text) ∧
      Line.ofText (' ' :: p.item.text) = .property p.item := by
  obtain ⟨hline, hwf⟩ := Record.hasLine_property h hr hp
  exact ⟨⟨t, hsource, ⟨rs, h⟩, hline⟩, Line.ofText_eq_property_iff.2 ⟨rfl, hwf⟩⟩

/-- An issue about a property points at the line of that property. If it is about a tag, an
earlier property of the same block has the tag, and no blank line comes between the two. -/
theorem pointsTo_of_mem_propertyIssues {r : Record} {issue : Issue}
    (hr : r ∈ (Run.ofTexts sources).records) (h : issue ∈ r.propertyIssues) :
    issue.PointsTo sources := by
  obtain ⟨i, t, rs, hsource, hrs, hr⟩ := Run.exists_source_of_mem hr
  obtain ⟨before, p, after, hsplit, hissue⟩ := of_mem_propertyIssuesAfter h
  have hp : p ∈ r.properties := by simp [hsplit]
  obtain ⟨hstands, hline⟩ := standsAt_of_mem_properties hsource hrs hr hp
  -- The tag has been there before, or the property has an issue by itself.
  rcases hissue with ⟨rfl, hseen⟩ | hown
  · -- No property is in front of those of the record, so the other one is among them.
    obtain ⟨q, hqbefore, htag⟩ := hseen.resolve_left List.not_mem_nil
    have hq : q ∈ r.properties := by simp [hsplit, hqbefore]
    have hqp : q.line < p.line := by
      have horder := Record.pairwise_properties hrs hr
      rw [hsplit] at horder
      exact (List.pairwise_append.1 horder).2.2 q hqbefore p List.mem_cons_self
    obtain ⟨hqstands, hqline⟩ := standsAt_of_mem_properties hsource hrs hr hq
    refine .repeatedTag ⟨_, hstands, hline⟩ ⟨_, hqstands, hqline⟩ htag hqp ?_
    intro n hqn hnp hblank
    exact Record.not_hasLine_nil_of_between hrs hr hq hp hqn hnp
      ((standsAt_iff hsource hrs).1 hblank)
  · have hwf := (Record.hasLine_property hrs hr hp).2
    rcases Property.issue?_eq_some hwf hown with rfl | ⟨d, w, h', rfl, hvalue, hw, hh, hzero⟩
    · rw [Property.bare_eq_rdropWhile hwf]
      exact .unknownProperty hstands hline
    · exact .invalidDimension ⟨_, hstands, hline⟩ hvalue hw hh hzero

end

/-! ### Runs -/

/-- Every issue of the records of a run points at its line, and every structural error names
a line of its file, which is the one that cannot be read. -/
theorem Run.issues_pointsTo (sources : List (Path × Text)) :
    (∀ issue ∈ (Run.ofTexts sources).finish.issues, issue.PointsTo sources) ∧
      ∀ (i : Nat) (f : FileReport) (path : Path) (e : StructuralError),
        (Run.ofTexts sources).finish.files[i]? = some f →
        f.error = some (.structural path e) →
        ∃ t, sources[i]? = some (path, t) ∧ Record.parse path t = .error e ∧
          1 ≤ e.line ∧ e.line ≤ t.lines.length := by
  constructor
  · intro issue h
    rcases List.mem_append.1 h with h | h
    · exact pointsTo_of_mem_repeatedKeyIssues h
    · obtain ⟨r, hr, h⟩ := List.mem_flatMap.1 h
      exact pointsTo_of_mem_propertyIssues hr h
  · intro i f path e hf herror
    have hfiles : (Run.ofTexts sources).finish.files = _ := Run.files_ofTexts sources
    rw [hfiles, List.getElem?_map, Option.map_eq_some_iff] at hf
    obtain ⟨⟨path', t⟩, hsource, rfl⟩ := hf
    -- A file that can be read has no error, so the error is that of the reading.
    cases hparse : Record.parse path' t with
    | error e' =>
        rw [Reading.ofText, hparse] at herror
        cases herror
        exact ⟨t, hsource, hparse, Record.line_le_of_parse_eq_error hparse⟩
    | ok rs =>
        rw [Reading.ofText_of_parse_eq_ok hparse] at herror
        cases herror

/-- A run with issues of all four kinds, the last file of which cannot be read. Each of the
four is among the issues of the report and points at its line. -/
theorem Run.issues_pointsTo_three :
    ∃ sources : List (Path × Text),
      let report := (Run.ofTexts sources).finish
      let repeatedKey := Issue.repeatedKey "libinput:name:x".toList ⟨⟨[98]⟩, 1⟩ ⟨⟨[97]⟩, 1⟩
      let invalidDimension :=
        Issue.invalidDimension ⟨⟨[97]⟩, 2⟩ "LIBINPUT_ATTR_SIZE_HINT".toList ⟨0, 5⟩
      let unknownProperty := Issue.unknownProperty ⟨⟨[97]⟩, 3⟩ "F=1".toList
      let repeatedTag := Issue.repeatedTag ⟨⟨[97]⟩, 5⟩ ['F']
      let error : StructuralError := ⟨1, .propertyBeforeKey, 0⟩
      sources = [(⟨[97]⟩, ("libinput:name:x\n LIBINPUT_ATTR_SIZE_HINT=0x5\n F=1 # c\n" ++
          "#\n F=1\n").toList),
        (⟨[98]⟩, "libinput:name:x\n LIBINPUT_MODEL_A=1\n".toList), (⟨[99]⟩, " A=1".toList)] ∧
      (repeatedKey ∈ report.issues ∧ repeatedKey.PointsTo sources) ∧
      (invalidDimension ∈ report.issues ∧ invalidDimension.PointsTo sources) ∧
      (unknownProperty ∈ report.issues ∧ unknownProperty.PointsTo sources) ∧
      (repeatedTag ∈ report.issues ∧ repeatedTag.PointsTo sources) ∧
      report.files[2]? = some ⟨.empty ⟨[99]⟩, some (.structural ⟨[99]⟩ error)⟩ ∧
      ∃ t, sources[2]? = some (⟨[99]⟩, t) ∧ Record.parse ⟨[99]⟩ t = .error error ∧
        1 ≤ error.line ∧ error.line ≤ t.lines.length := by
  let sources : List (Path × Text) :=
    [(⟨[97]⟩, ("libinput:name:x\n LIBINPUT_ATTR_SIZE_HINT=0x5\n F=1 # c\n" ++
        "#\n F=1\n").toList),
      (⟨[98]⟩, "libinput:name:x\n LIBINPUT_MODEL_A=1\n".toList), (⟨[99]⟩, " A=1".toList)]
  have hrun := issues_pointsTo sources
  have hissue : ∀ issue : Issue, issue ∈ (ofTexts sources).finish.issues →
      issue ∈ (ofTexts sources).finish.issues ∧ issue.PointsTo sources :=
    fun issue h => ⟨h, hrun.1 issue h⟩
  have hfile : (ofTexts sources).finish.files[2]?
      = some ⟨.empty ⟨[99]⟩, some (.structural ⟨[99]⟩ ⟨1, .propertyBeforeKey, 0⟩)⟩ := by
    decide +kernel
  exact ⟨sources, rfl, hissue _ (by decide +kernel), hissue _ (by decide +kernel),
    hissue _ (by decide +kernel), hissue _ (by decide +kernel), hfile,
    hrun.2 2 _ _ _ hfile rfl⟩

end Hwdb
