import Mathlib.Data.List.Dedup
import Mathlib.Data.List.Perm.Basic
import Hwdb.Proofs.RepeatedKeys
import Hwdb.Proofs.Run

/-!
# `Hwdb.Proofs.FileSequence`: which files come in a run, and in what order

A file that is added to a run takes nothing back. It can put issues between those that are
there, but these stay as they are and in their order (`Run.allIssues_sublist_append`).

The order of the files decides which declaration of a key is the first one, and nothing else
that matters. `Report.Rearranged` says what the reports of two runs share, and
`Run.rearranged_of_perm` that two runs of the same files share it.
-/

set_option autoImplicit false

namespace Hwdb

open KeyIndex (sitesOf)

/-! ### More files -/

/-- The issues of records are those about repeated keys and then those of each record. What
is proved about the two parts is put together with this. -/
theorem issues_ofRecords (rs : List Record) :
    (Findings.ofRecords rs).issues = repeatedKeyIssues rs ++ rs.flatMap Record.propertyIssues :=
  rfl

/-- The findings about some records are among those about more records, in the same order.
Both parts of the findings grow, so nothing has to change places. -/
theorem Findings.issues_sublist_append (rs more : List Record) :
    (ofRecords rs).issues.Sublist (ofRecords (rs ++ more)).issues := by
  rw [issues_ofRecords, issues_ofRecords, List.flatMap_append, ← List.append_assoc]
  exact ((repeatedKeyIssues_sublist_append rs more).append (List.Sublist.refl _)).trans
    (List.sublist_append_left _ _)

namespace Run

/-- Whatever a run takes in addition, it reports what it would have reported before. The
issues of single files come first in a report, and those of the new files go behind them. -/
theorem allIssues_sublist_addAll (run : Run) (readings : List Reading) :
    run.finish.allIssues.Sublist (run.addAll readings).finish.allIssues := by
  have hfiles : (run.addAll readings).finish.files = _ := files_addAll run readings
  have hissues : run.finish.issues.Sublist (run.addAll readings).finish.issues := by
    rw [finish, finish, records_addAll]
    exact Findings.issues_sublist_append run.records _
  rw [Report.allIssues, Report.allIssues, hfiles, List.filterMap_append]
  exact (List.sublist_append_left _ _).append hissues

/-- More files are added to a run of the first ones. So a run of some files is a beginning
of the run of these and more. -/
theorem ofTexts_append (sources more : List (Path × Text)) :
    ofTexts (sources ++ more)
      = (ofTexts sources).addAll (more.map fun s => Reading.ofText s.1 s.2) := by
  rw [ofTexts, List.foldl_append, addAll, List.foldl_map]
  rfl

/-- With more files, everything that was reported is still reported, in the same words and the
same order. So there are no fewer issues, and a run that would fail will fail. -/
theorem allIssues_sublist_append (sources more : List (Path × Text)) :
    (ofTexts sources).finish.allIssues.Sublist (ofTexts (sources ++ more)).finish.allIssues ∧
      (ofTexts sources).finish.errorCount ≤ (ofTexts (sources ++ more)).finish.errorCount ∧
      ((ofTexts sources).finish.failed = true →
        (ofTexts (sources ++ more)).finish.failed = true ∧
          (ofTexts (sources ++ more)).finish.exitCode = 1) := by
  have hissues : (ofTexts sources).finish.allIssues.Sublist
      (ofTexts (sources ++ more)).finish.allIssues := by
    rw [ofTexts_append]
    exact allIssues_sublist_addAll _ _
  refine ⟨hissues, hissues.length_le, fun hfailed => ?_⟩
  have hfailed : (ofTexts (sources ++ more)).finish.failed = true :=
    decide_eq_true (Nat.lt_of_lt_of_le (of_decide_eq_true hfailed) hissues.length_le)
  exact ⟨hfailed, by rw [Report.exitCode, if_pos hfailed]⟩

/-- A third file cannot be read, and the fourth repeats a key in front of the one that was
repeated before. -/
theorem allIssues_sublist_append_between :
    ∃ sources more : List (Path × Text),
      sources = [(⟨[97]⟩, "libinput:name:a\nlibinput:name:m\n F=1\n".toList),
        (⟨[98]⟩, "libinput:name:m\n LIBINPUT_MODEL_B=1\n".toList)] ∧
      more = [(⟨[99]⟩, "\n".toList),
        (⟨[100]⟩, "libinput:name:a\nlibinput:name:m\n LIBINPUT_MODEL_D=1\n".toList)] ∧
      (ofTexts sources).finish.allIssues
        = [.repeatedKey "libinput:name:m".toList ⟨⟨[98]⟩, 1⟩ ⟨⟨[97]⟩, 2⟩,
          .unknownProperty ⟨⟨[97]⟩, 3⟩ "F=1".toList] ∧
      (ofTexts (sources ++ more)).finish.allIssues
        = [.structural ⟨[99]⟩ ⟨1, .unexpectedBlank, 0⟩,
          .repeatedKey "libinput:name:a".toList ⟨⟨[100]⟩, 1⟩ ⟨⟨[97]⟩, 1⟩,
          .repeatedKey "libinput:name:m".toList ⟨⟨[98]⟩, 1⟩ ⟨⟨[97]⟩, 2⟩,
          .repeatedKey "libinput:name:m".toList ⟨⟨[100]⟩, 2⟩ ⟨⟨[97]⟩, 2⟩,
          .unknownProperty ⟨⟨[97]⟩, 3⟩ "F=1".toList] ∧
      (ofTexts (sources ++ more)).finish.exitCode = 1 := by
  refine ⟨_, _, rfl, rfl, ?_, ?_, ((allIssues_sublist_append _ _).2.2 ?_).2⟩ <;> decide +kernel

end Run

/-! ### Another order -/

namespace Issue

/-- Whether an issue is about a property. -/
def isAboutProperty : Issue → Bool
  | unknownProperty _ _ | repeatedTag _ _ | invalidDimension _ _ _ => true
  | _ => false

/-- The key that an issue reports as repeated. -/
def repeatedKey? : Issue → Option Text
  | repeatedKey key _ _ => some key
  | _ => none

/-- The first place and the place of an issue that reports a given key as repeated. -/
def places? (key : Text) : Issue → Option (Site × Site)
  | repeatedKey k site first => if k = key then some (first, site) else none
  | _ => none

/-- The places that some issues name for a key: each first place once, and the places that
the issues are about. -/
def keySites (key : Text) (issues : List Issue) : List Site :=
  ((issues.filterMap (places? key)).map Prod.fst).dedup
    ++ (issues.filterMap (places? key)).map Prod.snd

end Issue

/-- What two reports share that tell of the same files in another order. -/
structure Report.Rearranged (r s : Report) : Prop where
  /-- There are as many issues, -/
  errorCount_eq : r.errorCount = s.errorCount
  /-- so the verdict is the same. -/
  exitCode_eq : r.exitCode = s.exitCode
  /-- The same things are wrong with single files. -/
  fileErrors_perm :
    (r.files.filterMap FileReport.error).Perm (s.files.filterMap FileReport.error)
  /-- The same things are wrong with properties. -/
  propertyIssues_perm :
    (r.issues.filter Issue.isAboutProperty).Perm (s.issues.filter Issue.isAboutProperty)
  /-- The same keys are reported as repeated, in the same order, -/
  repeatedKeys_eq : r.issues.filterMap Issue.repeatedKey? = s.issues.filterMap Issue.repeatedKey?
  /-- each of them as often, -/
  countP_eq : ∀ key, r.issues.countP (fun issue => issue.repeatedKey? == some key)
    = s.issues.countP fun issue => issue.repeatedKey? == some key
  /-- and with the same places. -/
  keySites_perm : ∀ key, (Issue.keySites key r.issues).Perm (Issue.keySites key s.issues)

/-! #### Issues by their kind -/

/-- An issue about a property does not report a repeated key. The name that it quotes is
that of a tag or a value. -/
theorem Issue.repeatedKey?_eq_none {issue : Issue} (h : issue.isAboutProperty = true) :
    issue.repeatedKey? = none := by
  cases issue with
  | repeatedKey key site first => cases h
  | _ => rfl

/-- An issue about a property does not name the places of a key. It has one place only. -/
theorem Issue.places?_eq_none (key : Text) {issue : Issue} (h : issue.isAboutProperty = true) :
    issue.places? key = none := by
  cases issue with
  | repeatedKey k site first => cases h
  | _ => rfl

/-- A property by itself has no issue but one about it. Both kinds of it are about the
property. -/
theorem Property.isAboutProperty_of_issue? {site : Site} {p : Property} {issue : Issue}
    (h : p.issue? site = some issue) : issue.isAboutProperty = true := by
  rcases Property.issue?_cases h with ⟨text, rfl⟩ | ⟨tag, d, rfl⟩ <;> rfl

/-- What is reported about the properties of records is about properties. No match key comes
into the check of properties. -/
theorem isAboutProperty_of_mem_propertyIssues {rs : List Record} {issue : Issue}
    (h : issue ∈ rs.flatMap Record.propertyIssues) : issue.isAboutProperty = true := by
  obtain ⟨r, -, h⟩ := List.mem_flatMap.1 h
  obtain ⟨before, p, after, -, ⟨rfl, -⟩ | hown⟩ := of_mem_propertyIssuesAfter h
  · rfl
  · exact Property.isAboutProperty_of_issue? hown

/-- The issues about properties are those of the records one by one. This part of a report
changes its order with the files, and nothing else. -/
theorem filter_isAboutProperty_issues (rs : List Record) :
    (Findings.ofRecords rs).issues.filter Issue.isAboutProperty
      = rs.flatMap Record.propertyIssues := by
  have hkeys : (repeatedKeyIssues rs).filter Issue.isAboutProperty = [] := by
    rw [List.filter_eq_nil_iff]
    intro issue h
    obtain ⟨d, e, -, -, rfl⟩ := of_mem_repeatedKeyIssues h
    exact Bool.false_ne_true
  rw [issues_ofRecords, List.filter_append, hkeys, List.nil_append, List.filter_eq_self]
  exact fun issue => isAboutProperty_of_mem_propertyIssues

/-- What only issues about repeated keys have is what the repeated keys bring. With this the
other part of a report can be looked at by itself. -/
theorem filterMap_issues {β : Type} {f : Issue → Option β}
    (hf : ∀ issue : Issue, issue.isAboutProperty = true → f issue = none) (rs : List Record) :
    (Findings.ofRecords rs).issues.filterMap f
      = (repeatedKeys rs).flatMap fun key =>
          (keyIssues key (sitesOf key (declarations rs))).filterMap f := by
  have hproperties : (rs.flatMap Record.propertyIssues).filterMap f = [] := by
    rw [List.filterMap_eq_nil_iff]
    exact fun issue h => hf issue (isAboutProperty_of_mem_propertyIssues h)
  rw [issues_ofRecords, List.filterMap_append, hproperties, List.append_nil,
    repeatedKeyIssues_eq, List.filterMap_flatMap]

/-! #### The issues of one key -/

/-- Each issue of a key reports that key, once for each place but the first. So the number
of its places can be told from its issues. -/
theorem filterMap_repeatedKey?_keyIssues (key : Text) (sites : List Site) :
    (keyIssues key sites).filterMap Issue.repeatedKey?
      = List.replicate (sites.length - 1) key := by
  cases sites with
  | nil => rfl
  | cons first extra =>
      show (extra.map _).filterMap _ = List.replicate extra.length key
      rw [List.filterMap_map, ← List.map_const', ← List.filterMap_eq_map]
      rfl

/-- The issues of a key name no places of another one. An issue has the text of its key, and
two keys have different texts. -/
theorem filterMap_places?_keyIssues_of_ne {k key : Text} (h : k ≠ key) (sites : List Site) :
    (keyIssues k sites).filterMap (Issue.places? key) = [] := by
  cases sites with
  | nil => rfl
  | cons first extra =>
      show (extra.map _).filterMap _ = []
      rw [List.filterMap_map, List.filterMap_eq_nil_iff]
      exact fun site _ => if_neg h

/-- Each issue of a key names its first place and one of the others. The others come in the
order of the declarations. -/
theorem filterMap_places?_keyIssues (key : Text) (first : Site) (extra : List Site) :
    (keyIssues key (first :: extra)).filterMap (Issue.places? key)
      = extra.map fun site => (first, site) := by
  show (extra.map _).filterMap _ = _
  rw [List.filterMap_map, ← List.filterMap_eq_map]
  exact List.filterMap_congr fun site _ => if_pos rfl

/-- The issues of a key name all its places, if it has two of them. The first place is named
in each of them, and counts once. -/
theorem places_keyIssues {key : Text} {sites : List Site} (h : 1 < sites.length) :
    (((keyIssues key sites).filterMap (Issue.places? key)).map Prod.fst).dedup
      ++ ((keyIssues key sites).filterMap (Issue.places? key)).map Prod.snd = sites := by
  cases sites with
  | nil => cases h
  | cons first extra =>
      have hextra : extra.length ≠ 0 := by
        rw [List.length_cons] at h
        omega
      -- The first place is named once for each of the others, and there is one of these at
      -- least.
      have hfirst : (extra.map fun _ => first) = List.replicate extra.length first :=
        List.map_const'
      rw [filterMap_places?_keyIssues, List.map_map, List.map_map]
      show (extra.map fun _ => first).dedup ++ extra.map id = first :: extra
      rw [hfirst, List.replicate_dedup hextra, List.map_id, List.singleton_append]

/-- Issues with the name of a key are issues of that key. No two repeated keys have one
text, so the issues of the others can be passed over. -/
theorem filterMap_places?_issues (key : Text) (rs : List Record) :
    (Findings.ofRecords rs).issues.filterMap (Issue.places? key)
      = if key ∈ repeatedKeys rs then
          (keyIssues key (sitesOf key (declarations rs))).filterMap (Issue.places? key)
        else [] := by
  have hother : ∀ ks : List Text, key ∉ ks → (ks.flatMap fun k =>
      (keyIssues k (sitesOf k (declarations rs))).filterMap (Issue.places? key)) = [] := by
    intro ks hks
    rw [List.flatMap_eq_nil_iff]
    intro k hk
    refine filterMap_places?_keyIssues_of_ne (fun heq => hks ?_) _
    rwa [← heq]
  rw [filterMap_issues fun _ => Issue.places?_eq_none key]
  split
  · next hkey =>
      -- The key stands in the list once, and no other key brings an issue with its name.
      obtain ⟨before, after, hsplit⟩ := List.append_of_mem hkey
      have hnodup := nodup_repeatedKeys rs
      rw [hsplit, List.nodup_middle, List.nodup_cons, List.mem_append, not_or] at hnodup
      obtain ⟨⟨hbefore, hafter⟩, -⟩ := hnodup
      rw [hsplit, List.flatMap_append, List.flatMap_cons, hother before hbefore,
        hother after hafter, List.nil_append, List.append_nil]
  · next hkey => exact hother _ hkey

/-- The issues name all places of a key that is repeated, and none of any other key. So
the places that a report names for a key do not depend on how they are spread over its
issues. -/
theorem keySites_issues (key : Text) (rs : List Record) :
    Issue.keySites key (Findings.ofRecords rs).issues
      = if key ∈ repeatedKeys rs then sitesOf key (declarations rs) else [] := by
  rw [Issue.keySites, filterMap_places?_issues]
  split
  · next hkey => exact places_keyIssues (mem_repeatedKeys_iff.1 hkey)
  · rfl

/-! #### Runs -/

/-- Issues about repeated keys in another order of the records are as many as before. There
is one for each declaration but the first of its key, and neither number depends on the
order. -/
theorem length_repeatedKeyIssues_eq_of_perm {rs qs : List Record} (h : rs.Perm qs) :
    (repeatedKeyIssues rs).length = (repeatedKeyIssues qs).length := by
  rw [repeatedKeyIssues_eq, repeatedKeyIssues_eq, repeatedKeys_eq_of_perm h, List.length_flatMap,
    List.length_flatMap]
  refine congrArg List.sum (List.map_congr_left fun key _ => ?_)
  rw [length_keyIssues, length_keyIssues, (sitesOf_perm h key).length_eq]

/-- In another order of the records the same keys are reported, each of them as often. Even
their order is the same, which is that of their texts. -/
theorem filterMap_repeatedKey?_issues_eq_of_perm {rs qs : List Record} (h : rs.Perm qs) :
    (Findings.ofRecords rs).issues.filterMap Issue.repeatedKey?
      = (Findings.ofRecords qs).issues.filterMap Issue.repeatedKey? := by
  rw [filterMap_issues fun _ => Issue.repeatedKey?_eq_none,
    filterMap_issues fun _ => Issue.repeatedKey?_eq_none, repeatedKeys_eq_of_perm h]
  refine List.flatMap_congr fun key _ => ?_
  rw [filterMap_repeatedKey?_keyIssues, filterMap_repeatedKey?_keyIssues,
    (sitesOf_perm h key).length_eq]

/-- Runs that have the same records and the same errors of files, in whatever order, have
reports that tell of the same files. Nothing but these two enters into a report. -/
theorem Run.rearranged_finish {run run' : Run} (hrecords : run.records.Perm run'.records)
    (herrors : (run.files.filterMap FileReport.error).Perm
      (run'.files.filterMap FileReport.error)) :
    run.finish.Rearranged run'.finish := by
  have hproperties := hrecords.flatMap_right Record.propertyIssues
  have hkeys := filterMap_repeatedKey?_issues_eq_of_perm hrecords
  have hcount : run.finish.errorCount = run'.finish.errorCount := by
    -- The issues about keys change their order with the files, but not their number.
    have hissues : run.finish.issues.length = run'.finish.issues.length := by
      rw [finish, finish, issues_ofRecords, issues_ofRecords, List.length_append,
        List.length_append, length_repeatedKeyIssues_eq_of_perm hrecords, hproperties.length_eq]
    have hfiles : (run.finish.files.filterMap FileReport.error).length
        = (run'.finish.files.filterMap FileReport.error).length := herrors.length_eq
    rw [Report.errorCount, Report.errorCount, Report.allIssues, Report.allIssues,
      List.length_append, List.length_append, hissues, hfiles]
  exact
    { errorCount_eq := hcount
      exitCode_eq := by rw [Report.exitCode, Report.exitCode, Report.failed, Report.failed, hcount]
      fileErrors_perm := herrors
      propertyIssues_perm := by
        rw [finish, finish, filter_isAboutProperty_issues, filter_isAboutProperty_issues]
        exact hproperties
      repeatedKeys_eq := hkeys
      countP_eq := by
        intro key
        have hcounted := congrArg (List.count key) hkeys
        rw [List.count_filterMap, List.count_filterMap] at hcounted
        exact hcounted
      keySites_perm := by
        intro key
        rw [finish, finish, keySites_issues, keySites_issues, repeatedKeys_eq_of_perm hrecords]
        split
        · exact sitesOf_perm hrecords key
        · exact List.Perm.refl _ }

/-- Whatever order the files of a run are taken in, the verdict and the number of issues are
the same. The same things are wrong with files and with properties, and the same keys are
reported as repeated, with the same places. -/
theorem Run.rearranged_of_perm {sources sources' : List (Path × Text)}
    (h : sources.Perm sources') :
    (ofTexts sources).finish.Rearranged (ofTexts sources').finish := by
  refine rearranged_finish ?_ ?_
  · rw [records_ofTexts, records_ofTexts]
    exact h.flatMap_right _
  · rw [files_ofTexts, files_ofTexts]
    exact (h.map _).filterMap _

/-- Three files backwards, of which the last one cannot be read. Now the other declaration is
the first one. -/
theorem Run.rearranged_of_perm_reversed :
    ∃ sources : List (Path × Text),
      sources = [(⟨[97]⟩, "libinput:name:x\n LIBINPUT_ATTR_SIZE_HINT=0x5\n".toList),
        (⟨[98]⟩, "libinput:name:x\n F=1\n F=1\n".toList), (⟨[99]⟩, " A=1".toList)] ∧
      sources.Perm sources.reverse ∧
      (ofTexts sources).finish.Rearranged (ofTexts sources.reverse).finish ∧
      .repeatedKey "libinput:name:x".toList ⟨⟨[98]⟩, 1⟩ ⟨⟨[97]⟩, 1⟩
        ∈ (ofTexts sources).finish.issues ∧
      .repeatedKey "libinput:name:x".toList ⟨⟨[97]⟩, 1⟩ ⟨⟨[98]⟩, 1⟩
        ∈ (ofTexts sources.reverse).finish.issues := by
  refine ⟨_, rfl, (List.reverse_perm _).symm, rearranged_of_perm (List.reverse_perm _).symm,
    ?_, ?_⟩ <;> decide +kernel

end Hwdb
