import Hwdb.Proofs.Document
import Hwdb.Proofs.Relabelling
import Hwdb.Proofs.RepeatedKeys
import Hwdb.Proofs.Run

/-!
# `Hwdb.Proofs.PathLabels`: a path is a label

Nothing is decided by a path. Each type with a path in it has a function that puts `f p` in
the place of every path `p`, for records, issues, reports and runs. Every step of a check
commutes with it:

* reading a file (`Record.parse_mapPath`), which is a `Relabelling`;
* the issues about match keys (`repeatedKeyIssues_mapPath`): keys are told apart by their
  texts, and the places of a key keep their order;
* the issues about properties (`Record.propertyIssues_mapPath`).

So the whole run does (`Run.ofTexts_mapPaths`). `f` may give several files one path. They are
still several files, and a key that two of them declare is repeated as it was before.
-/

set_option autoImplicit false

namespace Hwdb

variable (f : Path → Path)

/-! ### Other paths -/

/-- The same line of another file. -/
def Site.mapPath (s : Site) : Site :=
  { s with path := f s.path }

/-- The same record of another file. -/
def Record.mapPath (r : Record) : Record :=
  { r with path := f r.path }

/-- The issue with other paths. -/
def Issue.mapPaths : Issue → Issue
  | structural path error => structural (f path) error
  | unreadable path reason => unreadable (f path) reason
  | unknownProperty site text => unknownProperty (site.mapPath f) text
  | repeatedTag site tag => repeatedTag (site.mapPath f) tag
  | repeatedKey key site first => repeatedKey key (site.mapPath f) (first.mapPath f)
  | invalidDimension site tag dimension => invalidDimension (site.mapPath f) tag dimension

/-- The counts of another file. -/
def FileSummary.mapPath (s : FileSummary) : FileSummary :=
  { s with path := f s.path }

/-- The report of another file. -/
def FileReport.mapPaths (r : FileReport) : FileReport :=
  { summary := r.summary.mapPath f, error := r.error.map (Issue.mapPaths f) }

/-- What another file adds to a run. -/
def Reading.mapPaths (reading : Reading) : Reading :=
  { report := reading.report.mapPaths f, records := reading.records.map (Record.mapPath f) }

/-- The report with other paths. -/
def Report.mapPaths (r : Report) : Report :=
  { files := r.files.map (FileReport.mapPaths f), issues := r.issues.map (Issue.mapPaths f) }

/-- The run with other paths. -/
def Run.mapPaths (run : Run) : Run :=
  { records := run.records.map (Record.mapPath f)
    files := run.files.map (FileReport.mapPaths f) }

/-- No path of an issue is left out. An issue about a repeated key has two of them. -/
theorem Issue.paths_mapPaths (i : Issue) : (i.mapPaths f).paths = i.paths.map f := by
  cases i <;> rfl

/-- No path of the report of a file is left out. There is the one of the summary, and those
of the error if there is one. -/
theorem FileReport.paths_mapPaths (r : FileReport) :
    (r.mapPaths f).paths = r.paths.map f := by
  obtain ⟨summary, error⟩ := r
  cases error with
  | none => rfl
  | some i => simp [paths, mapPaths, FileSummary.mapPath, Issue.paths_mapPaths]

/-- No path of a report is left out, so what has been given other paths has no old path in
it. -/
theorem Report.paths_mapPaths (r : Report) : (r.mapPaths f).paths = r.paths.map f := by
  simp only [paths, mapPaths, List.flatMap_map, List.map_append, List.map_flatMap,
    FileReport.paths_mapPaths, Issue.paths_mapPaths]

/-! ### Reading a file -/

/-- Other paths and no other labels. -/
def Relabelling.paths : Relabelling :=
  { path := f }

/-- The labels of a record are its path and its numbers, and only the path is another one
here. So a relabelling that gives other paths is what `Record.mapPath` says. -/
theorem Relabelling.record_paths (r : Record) : (paths f).record r = r.mapPath f := by
  have hkeys : r.keys.map (paths f).key = r.keys := List.map_id r.keys
  have hproperties : r.properties.map (paths f).numberedProperty = r.properties :=
    List.map_id r.properties
  rw [record, hkeys, hproperties]
  rfl

/-- A file is read under another path as it is under its own, with the same error if there
is one. An error has no path, so there is nothing to change in it. -/
theorem Record.parse_mapPath (path : Path) (t : Text) :
    Record.parse (f path) t = (Record.parse path t).map (List.map (Record.mapPath f)) := by
  have hnumbers : ∀ i ≤ (t.lines.map Line.ofText).length,
      (Relabelling.paths f).number (0 + i) = 0 + i := fun i _ => rfl
  -- Only the path is another one, so the lines and their numbers stay as they are.
  have hread := (Relabelling.paths f).complete_assembly hnumbers (.start path)
  rw [Relabelling.map_line_eq_self _ rfl] at hread
  have hstart : (Relabelling.paths f).assembly (.start path) = .start (f path) := rfl
  rw [hstart, ← parse_eq_complete, ← parse_eq_complete] at hread
  rw [hread]
  cases Record.parse path t with
  | error e => rfl
  | ok rs => exact congrArg Except.ok (List.map_congr_left fun r _ => Relabelling.record_paths f r)

/-- The counts of a file do not look at the paths of its records. They count records, match
keys and properties. -/
theorem FileSummary.ofRecords_mapPath (path : Path) (rs : List Record) :
    ofRecords (f path) (rs.map (Record.mapPath f)) = (ofRecords path rs).mapPath f := by
  simp [ofRecords, mapPath, Record.mapPath, List.flatMap_map]

/-- What a file adds to a run under another path. It is the same report and the same
records, with the other path in them. -/
theorem Reading.ofText_mapPaths (path : Path) (t : Text) :
    ofText (f path) t = (ofText path t).mapPaths f := by
  rw [ofText, ofText, Record.parse_mapPath]
  cases Record.parse path t with
  | error e => rfl
  | ok rs =>
      show Reading.mk ⟨.ofRecords (f path) (rs.map (Record.mapPath f)), none⟩ _ = _
      rw [FileSummary.ofRecords_mapPath]
      rfl

/-! ### Match keys -/

open KeyIndex (sitesOf)

/-- The declaration in another file. -/
def Declaration.mapPath (d : Declaration) : Declaration :=
  { d with site := d.site.mapPath f }

/-- The records of other files declare the same keys in other places. The text of a key has
no path in it. -/
theorem declarations_mapPath (rs : List Record) :
    declarations (rs.map (Record.mapPath f))
      = (declarations rs).map (Declaration.mapPath f) := by
  have hrecord : ∀ r : Record, (r.mapPath f).declarations
      = r.declarations.map (Declaration.mapPath f) := by
    intro r
    simp [Record.declarations, Record.mapPath, Declaration.mapPath, Site.mapPath]
  simp only [declarations, List.flatMap_map, List.map_flatMap, hrecord]

/-- A key has its places in the same order. Two of them may have become one, and are listed
twice then. -/
theorem sitesOf_mapPath (key : Text) (rs : List Record) :
    sitesOf key (declarations (rs.map (Record.mapPath f)))
      = (sitesOf key (declarations rs)).map (Site.mapPath f) := by
  rw [declarations_mapPath, sitesOf, sitesOf, List.filter_map, List.map_map, List.map_map]
  rfl

/-- A key with two places has two of them also if both are the same line of one path. Places
are counted, and not compared. -/
theorem repeatedKeys_mapPath (rs : List Record) :
    repeatedKeys (rs.map (Record.mapPath f)) = repeatedKeys rs := by
  refine (pairwise_repeatedKeys _).eq_of_mem_iff (pairwise_repeatedKeys rs) fun key => ?_
  rw [mem_repeatedKeys_iff, mem_repeatedKeys_iff, sitesOf_mapPath, List.length_map]

/-- The issues of a key name the other places, and are as many. The first place is still the
first one. -/
theorem keyIssues_mapPath (key : Text) (sites : List Site) :
    keyIssues key (sites.map (Site.mapPath f)) = (keyIssues key sites).map (Issue.mapPaths f) := by
  cases sites with
  | nil => rfl
  | cons first extra => simp [keyIssues, RepeatedKey.issues, Issue.mapPaths]

/-- Issues about repeated keys are the same, with other paths. The order of the keys is that
of their texts, so it is the same. -/
theorem repeatedKeyIssues_mapPath (rs : List Record) :
    repeatedKeyIssues (rs.map (Record.mapPath f))
      = (repeatedKeyIssues rs).map (Issue.mapPaths f) := by
  simp only [repeatedKeyIssues_eq, repeatedKeys_mapPath, sitesOf_mapPath, keyIssues_mapPath,
    List.map_flatMap]

/-! ### Properties -/

/-- The issue of a property by itself has the path of its place and no other. What is wrong
with a property is decided by its tag and its value. -/
theorem Property.issue?_mapPath (site : Site) (p : Property) :
    p.issue? (site.mapPath f) = (p.issue? site).map (Issue.mapPaths f) := by
  unfold Property.issue?
  cases Setting.parse p.bare with
  | error e => rfl
  | ok s =>
      cases s with
      | modelFlag name => rfl
      | hint kind d =>
          show (if d.isPositive then none else _) = Option.map _ (if d.isPositive then none else _)
          cases d.isPositive <;> rfl

/-- Properties are checked in the same way in another file. The tags seen before have no
path. The induction is on the properties. -/
theorem propertyIssuesAfter_mapPath (path : Path) (seen : List Text)
    (ps : List (Numbered Property)) :
    propertyIssuesAfter (f path) seen ps
      = (propertyIssuesAfter path seen ps).map (Issue.mapPaths f) := by
  -- The tags that have been seen have no path, so they are the same further on.
  induction ps generalizing seen with
  | nil => rfl
  | cons p ps ih =>
      have hown : p.item.issue? ⟨f path, p.line⟩
          = (p.item.issue? ⟨path, p.line⟩).map (Issue.mapPaths f) :=
        p.item.issue?_mapPath f ⟨path, p.line⟩
      have hagain : (if p.item.tag ∈ seen then [Issue.repeatedTag ⟨f path, p.line⟩ p.item.tag]
          else []) = (if p.item.tag ∈ seen then [Issue.repeatedTag ⟨path, p.line⟩ p.item.tag]
          else []).map (Issue.mapPaths f) := by
        split <;> rfl
      rw [propertyIssuesAfter_cons, propertyIssuesAfter_cons, ih, hown, hagain,
        Option.toList_map, List.map_append, List.map_append]

/-- The properties of a record of another file are checked in the same way. Both parts of a
finding then commute with the change of paths. -/
theorem Record.propertyIssues_mapPath (r : Record) :
    (r.mapPath f).propertyIssues = r.propertyIssues.map (Issue.mapPaths f) :=
  propertyIssuesAfter_mapPath f r.path [] r.properties

/-- The issues of records of other files are the same issues with other paths, in the same
order. -/
theorem Findings.issues_mapPath (rs : List Record) :
    (ofRecords (rs.map (Record.mapPath f))).issues
      = (ofRecords rs).issues.map (Issue.mapPaths f) := by
  simp only [ofRecords, repeatedKeyIssues_mapPath, List.flatMap_map,
    Record.propertyIssues_mapPath, List.map_append, List.map_flatMap]

/-! ### Runs -/

/-- Whether there is something to report does not depend on paths. The new report has as
many issues as the old one. -/
theorem Report.exitCode_mapPaths (r : Report) : (r.mapPaths f).exitCode = r.exitCode := by
  have hissues : (r.mapPaths f).allIssues = r.allIssues.map (Issue.mapPaths f) := by
    simp only [allIssues, mapPaths, List.filterMap_map, List.map_append, List.map_filterMap]
    rfl
  rw [exitCode, failed, errorCount, hissues, List.length_map]
  rfl

namespace Run

/-- The report of a run of other files is the report of the run with other paths. The issues
are found in its records, and are the same with other paths. -/
theorem finish_mapPaths (run : Run) : (run.mapPaths f).finish = run.finish.mapPaths f := by
  rw [finish, mapPaths, Findings.issues_mapPath]
  rfl

/-- A run takes in the same from files under other paths. Each file adds the same, under its
new path. -/
theorem ofTexts_map_path (sources : List (Path × Text)) :
    ofTexts (sources.map (Prod.map f id)) = (ofTexts sources).mapPaths f := by
  have hreading : ∀ s : Path × Text, Reading.ofText (Prod.map f id s).1 (Prod.map f id s).2
      = (Reading.ofText s.1 s.2).mapPaths f := by
    intro s
    exact Reading.ofText_mapPaths f s.1 s.2
  have hrecords : (ofTexts (sources.map (Prod.map f id))).records
      = (ofTexts sources).records.map (Record.mapPath f) := by
    rw [records_ofTexts, records_ofTexts, List.flatMap_map, List.map_flatMap]
    simp only [hreading]
    rfl
  have hfiles : (ofTexts (sources.map (Prod.map f id))).files
      = (ofTexts sources).files.map (FileReport.mapPaths f) := by
    rw [files_ofTexts, files_ofTexts, List.map_map, List.map_map]
    exact List.map_congr_left fun s _ => congrArg Reading.report (hreading s)
  rw [mapPaths, ← hrecords, ← hfiles]

/-- Every file of a run is given another path, and some of them perhaps the same one. Then
there are the same records, the same reports of the files and the same issues, in the same
order and with nothing changed but the paths in them. The paths that the outcome names are the
new ones in the places of the old ones, and the exit code is the same. -/
theorem ofTexts_mapPaths (sources : List (Path × Text)) :
    ofTexts (sources.map (Prod.map f id)) = (ofTexts sources).mapPaths f ∧
      (ofTexts (sources.map (Prod.map f id))).finish = (ofTexts sources).finish.mapPaths f ∧
      (ofTexts (sources.map (Prod.map f id))).finish.paths
        = (ofTexts sources).finish.paths.map f ∧
      (ofTexts (sources.map (Prod.map f id))).finish.exitCode
        = (ofTexts sources).finish.exitCode := by
  have hrun := ofTexts_map_path f sources
  have hfinish : (ofTexts (sources.map (Prod.map f id))).finish
      = (ofTexts sources).finish.mapPaths f := by
    rw [hrun, finish_mapPaths]
  have hpaths : (ofTexts (sources.map (Prod.map f id))).finish.paths
      = (ofTexts sources).finish.paths.map f := by
    rw [hfinish, Report.paths_mapPaths]
  have hexit : (ofTexts (sources.map (Prod.map f id))).finish.exitCode
      = (ofTexts sources).finish.exitCode := by
    rw [hfinish, Report.exitCode_mapPaths]
  exact ⟨hrun, hfinish, hpaths, hexit⟩

/-- Two files under one path declare one key on the same line, which is reported with the one
place twice. -/
example :
    let sources : List (Path × Text) :=
      [(⟨[97]⟩, "libinput:name:x\n LIBINPUT_MODEL_A=1\n".toList),
        (⟨[98]⟩, "libinput:name:x\n LIBINPUT_MODEL_B=1\n".toList)]
    (ofTexts (sources.map (Prod.map (fun _ => ⟨[99]⟩) id))).finish
      = { files := [⟨⟨⟨[99]⟩, 1, 1, 1⟩, none⟩, ⟨⟨⟨[99]⟩, 1, 1, 1⟩, none⟩]
          issues := [.repeatedKey "libinput:name:x".toList ⟨⟨[99]⟩, 1⟩ ⟨⟨[99]⟩, 1⟩] } := by
  decide +kernel

end Run

end Hwdb
