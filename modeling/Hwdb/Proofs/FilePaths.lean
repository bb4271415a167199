import Hwdb.Proofs.Accounts
import Hwdb.Proofs.Document
import Hwdb.Proofs.Findings
import Hwdb.Proofs.Places

/-!
# `Hwdb.Proofs.FilePaths`: a report names its files

What a file adds to a run has the path of the file, and no other: its report
(`Reading.eq_of_mem_paths`) and its records (`Reading.path_of_mem`). The issues of records
take their paths from the records (`Findings.exists_of_mem_paths`). So the paths in a report
are those of the files that were checked (`Report.mem_paths_ofFiles_iff`), in its files and in
its issues, and there is a document of it exactly if all of them are texts
(`Report.exists_json_ofFiles_iff`).

A file with a path that is no text is never looked for (`Reading.ofFile_of_text?_eq_none`).
-/

set_option autoImplicit false

namespace Hwdb

/-! ### Files on a disk -/

namespace Run

/-- The run of files on a disk. -/
def ofFiles (disk : Disk) (files : List Path) : Run :=
  files.foldl (addFile disk) empty

/-- A run of files adds what each of them comes to. It makes all that is proved about
`addAll` a fact about files on a disk. -/
theorem ofFiles_eq_addAll (disk : Disk) (files : List Path) :
    ofFiles disk files = empty.addAll (files.map (Reading.ofFile disk)) := by
  rw [addAll, List.foldl_map]
  rfl

/-- The records of a run are those of its files, one file after the other. A file that
cannot be read has none. -/
theorem records_ofFiles (disk : Disk) (files : List Path) :
    (ofFiles disk files).records = files.flatMap fun p => (Reading.ofFile disk p).records := by
  rw [ofFiles_eq_addAll, records_addAll, List.flatMap_map]
  rfl

/-- A run reports on each of its files, in their order. There is a report for a file that
cannot be read, too. -/
theorem files_ofFiles (disk : Disk) (files : List Path) :
    (ofFiles disk files).files = files.map fun p => (Reading.ofFile disk p).report := by
  rw [ofFiles_eq_addAll, files_addAll, List.map_map]
  rfl

end Run

/-- What is reported about files on a disk. -/
def Report.ofFiles (disk : Disk) (files : List Path) : Report :=
  (Run.ofFiles disk files).finish

/-- The report has the reports of the files, in their order. This is the list that both
formats show. -/
theorem Report.files_ofFiles (disk : Disk) (files : List Path) :
    (ofFiles disk files).files = files.map fun p => (Reading.ofFile disk p).report :=
  Run.files_ofFiles disk files

/-- The issues of the report are those of the records of all files together. So a key that
two files declare is found as well. -/
theorem Report.issues_ofFiles (disk : Disk) (files : List Path) :
    (ofFiles disk files).issues = (Findings.ofRecords
      (files.flatMap fun p => (Reading.ofFile disk p).records)).issues := by
  rw [ofFiles, Run.finish, Run.records_ofFiles]

/-! ### The paths in what a file adds -/

namespace Reading

/-- A file whose path is no text cannot be read, because there might be a `~` in front. The
disk is not even asked for it. -/
theorem ofFile_of_text?_eq_none (disk : Disk) {p : Path} (h : p.text? = none) :
    ofFile disk p = .failed p (.unreadable p (ReadFailure.pathNotUtf8 p).message) := by
  have hexpand : p.expandHome? disk.home = none := by
    unfold Path.expandHome?
    rw [h]
  have hread : disk.readExpanded p = .error (.pathNotUtf8 p) := by
    rw [Disk.readExpanded, hexpand]
  rw [ofFile, hread]

/-- A file gives its records, or nothing but an issue about itself. The issue says that
there is no text, or that the text cannot be read. -/
theorem ofFile_cases (disk : Disk) (p : Path) :
    (∃ issue : Issue, issue.paths = [p] ∧ ofFile disk p = .failed p issue) ∨
    ∃ t rs, Record.parse p t = .ok rs ∧
      ofFile disk p = { report := ⟨.ofRecords p rs, none⟩, records := rs } := by
  rcases Call.reading_cases (.file disk p) with ⟨e, -, -, hreading⟩ | ⟨t, e, -, -, -, hreading⟩
    | ⟨t, rs, -, hparse, -, hreading⟩
  · exact Or.inl ⟨_, rfl, hreading⟩
  · exact Or.inl ⟨_, rfl, hreading⟩
  · exact Or.inr ⟨t, rs, hparse, hreading⟩

/-- The summary of a file has its path, as it was given, and not with the `~` replaced. -/
theorem path_summary_ofFile (disk : Disk) (p : Path) :
    (ofFile disk p).report.summary.path = p :=
  (Call.reported_reading (.file disk p)).path_eq

/-- The report of a file names only the file. The summary has its path, and so has the
error. -/
theorem eq_of_mem_paths {disk : Disk} {p q : Path} (h : q ∈ (ofFile disk p).report.paths) :
    q = p := by
  rcases ofFile_cases disk p with ⟨issue, hpaths, hfile⟩ | ⟨t, rs, -, hfile⟩
  · rw [hfile] at h
    rcases List.mem_cons.1 h with hq | hq
    · exact hq
    · simpa [failed, hpaths] using hq
  · rw [hfile] at h
    exact List.mem_singleton.1 h

/-- The records of a file have its path. Therefore the issues of its records name it, and no
other file. -/
theorem path_of_mem {disk : Disk} {p : Path} {r : Record} (h : r ∈ (ofFile disk p).records) :
    r.path = p := by
  rcases ofFile_cases disk p with ⟨issue, -, hfile⟩ | ⟨t, rs, hparse, hfile⟩
  · rw [hfile] at h
    cases h
  · rw [hfile] at h
    exact Record.path_of_mem hparse h

end Reading

/-! ### The paths in issues of records -/

/-- An issue of a property by itself names the path that the property has. Neither kind of
issue names a second place. -/
theorem Property.paths_of_issue? {site : Site} {p : Property} {issue : Issue}
    (h : p.issue? site = some issue) : issue.paths = [site.path] := by
  rcases Property.issue?_cases h with ⟨text, rfl⟩ | ⟨tag, d, rfl⟩ <;> rfl

/-- An issue of a property names the path of its record. -/
theorem Record.paths_of_mem_propertyIssues {r : Record} {issue : Issue}
    (h : issue ∈ r.propertyIssues) : issue.paths = [r.path] := by
  obtain ⟨before, p, after, -, ⟨rfl, -⟩ | hown⟩ := of_mem_propertyIssuesAfter h
  · rfl
  · exact Property.paths_of_issue? hown

/-- A declaration has the path of its record. All match keys of a record are in one file. -/
theorem exists_of_mem_declarations {rs : List Record} {d : Declaration}
    (h : d ∈ declarations rs) : ∃ r ∈ rs, r.path = d.site.path := by
  obtain ⟨r, hr, hd⟩ := List.mem_flatMap.1 h
  obtain ⟨k, -, rfl⟩ := List.mem_map.1 hd
  exact ⟨r, hr, rfl⟩

/-- The issues of records name paths of records, those about repeated keys also the path of
the first declaration. -/
theorem Findings.exists_of_mem_paths {rs : List Record} {issue : Issue} {q : Path}
    (h : issue ∈ (Findings.ofRecords rs).issues) (hq : q ∈ issue.paths) :
    ∃ r ∈ rs, r.path = q := by
  rcases List.mem_append.1 h with hkeys | hproperties
  · obtain ⟨d, e, hde, -, rfl⟩ := of_mem_repeatedKeyIssues hkeys
    rcases List.mem_pair.1 hq with rfl | rfl
    · exact exists_of_mem_declarations (hde.mem (by simp))
    · exact exists_of_mem_declarations (hde.mem (by simp))
  · obtain ⟨r, hr, hissue⟩ := List.mem_flatMap.1 hproperties
    rw [Record.paths_of_mem_propertyIssues hissue, List.mem_singleton] at hq
    exact ⟨r, hr, hq.symm⟩

/-! ### The paths in a report -/

namespace Report

variable {disk : Disk} {files : List Path} {q : Path}

/-- Every path in an issue of the records is that of a file. The records of a file have its
path, and issues name paths of records. -/
theorem mem_of_mem_paths_issues {issue : Issue} (h : issue ∈ (ofFiles disk files).issues)
    (hq : q ∈ issue.paths) : q ∈ files := by
  rw [issues_ofFiles] at h
  obtain ⟨r, hr, rfl⟩ := Findings.exists_of_mem_paths h hq
  obtain ⟨p, hp, hr⟩ := List.mem_flatMap.1 hr
  rw [Reading.path_of_mem hr]
  exact hp

/-- A report names the files that were checked, all of them and no others. Whether there is
a document is therefore a question about the files alone. -/
theorem mem_paths_ofFiles_iff : q ∈ (ofFiles disk files).paths ↔ q ∈ files := by
  rw [paths, List.mem_append, files_ofFiles, List.flatMap_map]
  constructor
  · rintro (hfile | hissue)
    · obtain ⟨p, hp, hq⟩ := List.mem_flatMap.1 hfile
      rw [Reading.eq_of_mem_paths hq]
      exact hp
    · obtain ⟨issue, hissue, hq⟩ := List.mem_flatMap.1 hissue
      exact mem_of_mem_paths_issues hissue hq
  · intro hq
    -- No file goes unnamed, since each has a summary with its path.
    have hsummary : q ∈ (Reading.ofFile disk q).report.paths :=
      List.mem_cons.2 (Or.inl (Reading.path_summary_ofFile disk q).symm)
    exact Or.inl (List.mem_flatMap.2 ⟨q, hq, hsummary⟩)

/-- Every path in an issue, of a file or of the records, is that of a file. The issues of
single files name these, and the others name files of records. -/
theorem mem_of_mem_paths_allIssues {issue : Issue}
    (h : issue ∈ (ofFiles disk files).allIssues) (hq : q ∈ issue.paths) : q ∈ files := by
  rcases List.mem_append.1 h with hfile | hissue
  · obtain ⟨f, hf, herror⟩ := List.mem_filterMap.1 hfile
    refine mem_paths_ofFiles_iff.1 (List.mem_append_left _ (List.mem_flatMap.2 ⟨f, hf, ?_⟩))
    rw [FileReport.paths, herror]
    exact List.mem_cons_of_mem _ (List.mem_flatMap.2 ⟨issue, by simp, hq⟩)
  · exact mem_of_mem_paths_issues hissue hq

/-- There is a document of files on a disk exactly if their paths are texts. It does not
matter whether the files can be read. -/
theorem exists_json_ofFiles_iff :
    (∃ t, (ofFiles disk files).json = .ok t) ↔ ∀ p ∈ files, p.text? ≠ none := by
  rw [exists_json_iff]
  simp only [mem_paths_ofFiles_iff]

/-- If there is no document, the reason is a file whose path is no text. There is no other
reason for a check to have no document. -/
theorem exists_of_json_ofFiles_eq_error {e : DocumentError}
    (h : (ofFiles disk files).json = .error e) : ∃ p ∈ files, p.text? = none := by
  by_contra hnone
  push Not at hnone
  obtain ⟨t, ht⟩ := exists_json_ofFiles_iff.2 hnone
  rw [h] at ht
  cases ht

/-- A file whose path is no text is something to report. It is reported as a file that
cannot be read, so the check fails in the text format, too. -/
theorem allIssues_ofFiles_ne_nil {p : Path} (hp : p ∈ files) (h : p.text? = none) :
    (ofFiles disk files).allIssues ≠ [] := by
  have herror : Issue.unreadable p (ReadFailure.pathNotUtf8 p).message
      ∈ (ofFiles disk files).files.filterMap FileReport.error := by
    rw [files_ofFiles, List.filterMap_map]
    refine List.mem_filterMap.2 ⟨p, hp, ?_⟩
    rw [Function.comp_apply, Reading.ofFile_of_text?_eq_none disk h]
    rfl
  exact List.ne_nil_of_mem (List.mem_append_left _ herror)

end Report

end Hwdb
