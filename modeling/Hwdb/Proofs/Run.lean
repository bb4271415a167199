import Hwdb.Proofs.Assembly
import Hwdb.Run

/-!
# `Hwdb.Proofs.Run`: a run is the sum of its files

A run keeps what each file adds to it, one after the other (`Run.records_addAll`,
`Run.files_addAll`). So there is nothing to report at its end exactly if every file could
be read and there is nothing to report about the records of all files together
(`Run.exitCode_finish_ofTexts_eq_zero_iff`).
-/

set_option autoImplicit false

namespace Hwdb

namespace Run

/-- The run with some more files. -/
def addAll (run : Run) (readings : List Reading) : Run :=
  readings.foldl add run

/-- The run of files with given texts. -/
def ofTexts (sources : List (Path × Text)) : Run :=
  sources.foldl (fun run s => run.addText s.1 s.2) empty

/-- A run with more files has their records after its own. The records of a run are never
taken back. -/
theorem records_addAll (run : Run) (readings : List Reading) :
    (run.addAll readings).records = run.records ++ readings.flatMap Reading.records := by
  induction readings generalizing run with
  | nil => exact (List.append_nil _).symm
  | cons reading readings ih =>
      have hstep := ih (run.add reading)
      rw [List.flatMap_cons, ← List.append_assoc]
      exact hstep

/-- A run with more files has their reports after its own. There is one for each of them,
readable or not. -/
theorem files_addAll (run : Run) (readings : List Reading) :
    (run.addAll readings).files = run.files ++ readings.map Reading.report := by
  induction readings generalizing run with
  | nil => exact (List.append_nil _).symm
  | cons reading readings ih =>
      have hstep := ih (run.add reading)
      rw [List.map_cons, List.append_cons]
      exact hstep

/-- Files with given texts are taken like any others, so `records_addAll` and `files_addAll`
are about them, too. -/
theorem ofTexts_eq_addAll (sources : List (Path × Text)) :
    ofTexts sources = empty.addAll (sources.map fun s => Reading.ofText s.1 s.2) := by
  rw [addAll, List.foldl_map]
  rfl

/-- The records of a run are those of its files, one file after the other. A file with a
fault adds none, so its complete records do not count. -/
theorem records_ofTexts (sources : List (Path × Text)) :
    (ofTexts sources).records
      = sources.flatMap fun s => (Reading.ofText s.1 s.2).records := by
  rw [ofTexts_eq_addAll, records_addAll, List.flatMap_map]
  rfl

/-- A run has a report for each of its files, in their order. The report of a file does not
depend on the other files. -/
theorem files_ofTexts (sources : List (Path × Text)) :
    (ofTexts sources).files = sources.map fun s => (Reading.ofText s.1 s.2).report := by
  rw [ofTexts_eq_addAll, files_addAll, List.map_map]
  rfl

end Run

namespace Reading

/-- A file that can be read adds its records, and its report counts them and has no
error. -/
theorem ofText_of_parse_eq_ok {path : Path} {t : Text} {rs : List Record}
    (h : Record.parse path t = .ok rs) :
    ofText path t
      = { report := { summary := .ofRecords path rs, error := none }, records := rs } := by
  rw [ofText, h]

/-- A file has an error exactly if its text cannot be read. There is no other error here,
since the text is given. -/
theorem error_ofText_eq_none_iff {path : Path} {t : Text} :
    (ofText path t).report.error = none ↔ ∃ rs, Record.parse path t = .ok rs := by
  unfold ofText
  cases Record.parse path t with
  | error e =>
      constructor
      · intro h
        cases h
      · intro ⟨rs, h⟩
        cases h
  | ok rs => exact ⟨fun _ => ⟨rs, rfl⟩, fun _ => rfl⟩

/-- A file adds the records that its text is read as. If it cannot be read, there are
none. -/
theorem mem_records_ofText {path : Path} {t : Text} {r : Record} :
    r ∈ (ofText path t).records ↔ ∃ rs, Record.parse path t = .ok rs ∧ r ∈ rs := by
  unfold ofText
  cases Record.parse path t with
  | error e =>
      constructor
      · intro h
        cases h
      · rintro ⟨rs, h, -⟩
        cases h
  | ok rs =>
      constructor
      · intro h
        exact ⟨rs, rfl, h⟩
      · intro ⟨rs', h, hr⟩
        cases h
        exact hr

end Reading

/-- The records of a run are those of its files that can be read. Each of them can be looked
up in its file. -/
theorem Run.mem_records_ofTexts {sources : List (Path × Text)} {r : Record} :
    r ∈ (Run.ofTexts sources).records
      ↔ ∃ s ∈ sources, ∃ rs, Record.parse s.1 s.2 = .ok rs ∧ r ∈ rs := by
  rw [Run.records_ofTexts, List.mem_flatMap]
  simp only [Reading.mem_records_ofText]

/-- The exit code is zero or one. There is no third outcome of a check. -/
theorem Report.exitCode_eq_one_iff {r : Report} : r.exitCode = 1 ↔ ¬ r.exitCode = 0 := by
  rw [Report.exitCode]
  cases r.failed <;> decide

/-- A run succeeds exactly if each of its files can be read and its records, taken together,
have no issue. The two parts are the two kinds of issues in a report. -/
theorem Run.exitCode_finish_ofTexts_eq_zero_iff {sources : List (Path × Text)} :
    (Run.ofTexts sources).finish.exitCode = 0
      ↔ (∀ s ∈ sources, ∃ rs, Record.parse s.1 s.2 = .ok rs) ∧
        (Findings.ofRecords (Run.ofTexts sources).records).issues = [] := by
  have hfiles : (Run.ofTexts sources).files.filterMap FileReport.error = []
      ↔ ∀ s ∈ sources, ∃ rs, Record.parse s.1 s.2 = .ok rs := by
    rw [Run.files_ofTexts, List.filterMap_eq_nil_iff, List.forall_mem_map]
    simp only [Reading.error_ofText_eq_none_iff]
  rw [Report.exitCode_eq_zero_iff, Report.allIssues, List.append_eq_nil_iff, ← hfiles]
  rfl

end Hwdb
