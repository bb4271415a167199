import Hwdb.Command
import Hwdb.Proofs.CommandLine
import Hwdb.Proofs.FilePaths

/-!
# `Hwdb.Proofs.Command`: both formats show one report

In the text format lines are shown while files are still being read. Each step adds one file
to the run and its lines to those that were shown, so at the end the run is that of all files
and the lines are those of its report (`Command.run_foldl_next`, `Command.shown_foldl_next`,
`Command.checkAsText_eq`). In the JSON format nothing is shown before the report is complete,
and nothing at all if it has no document.

A report lacks a document only if a path is no text. But then the file with that path is
something to report, so the exit code is one in either format (`Command.exitCode_check`). If
all paths are texts, both formats show the same report (`Command.formats_agree`).
-/

set_option autoImplicit false

namespace Hwdb

/-- The exit code is one exactly if there is something to report: faults of files, issues of
properties and repeated keys weigh the same. -/
theorem Report.exitCode_eq (r : Report) : r.exitCode = if r.allIssues = [] then 0 else 1 := by
  split
  · next hnone => exact exitCode_eq_zero_iff.2 hnone
  · next hsome => exact exitCode_eq_one_iff.2 (mt exitCode_eq_zero_iff.1 hsome)

namespace Command

/-! ### Files in the text format -/

/-- What is shown on the way has no influence on the run. So the report of the text format
is that of `Report.ofFiles`. -/
theorem run_foldl_next (disk : Disk) (quiet colored : Bool) (files : List Path) (p : Progress) :
    (files.foldl (Progress.next disk quiet colored) p).run
      = files.foldl (Run.addFile disk) p.run :=
  (List.foldl_hom Progress.run fun _ _ => rfl).symm

/-- What is shown on the way are the lines of each file, one file after the other, and they
do not depend on the files before. -/
theorem shown_foldl_next (disk : Disk) (quiet colored : Bool) (files : List Path)
    (p : Progress) :
    (files.foldl (Progress.next disk quiet colored) p).shown
      = p.shown ++ files.flatMap fun path =>
          fileLines quiet colored (Reading.ofFile disk path).report := by
  induction files generalizing p with
  | nil => exact (List.append_nil _).symm
  | cons path files ih =>
      have hstep := ih (p.next disk quiet colored path)
      rw [List.flatMap_cons, ← List.append_assoc]
      exact hstep

/-- The text format shows the lines of the report: those of the files, in their order, and
those of the issues of records. -/
theorem checkAsText_eq (disk : Disk) (colored : Bool) (options : Options) :
    let report := Report.ofFiles disk options.files
    checkAsText disk colored options
      = { exitCode := report.exitCode
          output := unlines (report.files.flatMap (fileLines options.quiet colored)
            ++ report.issues.map (issueLine colored))
          footer := if report.failed then some (footer colored report.errorCount) else none
          complaint := [] } := by
  intro report
  have hshown : (options.files.foldl (Progress.next disk options.quiet colored)
      { run := .empty, shown := [] }).shown
      = report.files.flatMap (fileLines options.quiet colored) := by
    rw [shown_foldl_next, Report.files_ofFiles, List.flatMap_map]
    rfl
  rw [checkAsText, hshown, run_foldl_next]
  rfl

/-! ### Reports in the JSON format -/

/-- The JSON format shows the document of the report and nothing else, and the exit code is
that of the report. -/
theorem checkAsJson_of_json_eq_ok {disk : Disk} {options : Options} {document : Text}
    (h : (Report.ofFiles disk options.files).json = .ok document) :
    checkAsJson disk options
      = { exitCode := (Report.ofFiles disk options.files).exitCode, output := document ++ ['\n']
          footer := none, complaint := [] } := by
  have hline : unlines [document] = document ++ ['\n'] := List.flatMap_singleton _ _
  have hreport : (options.files.foldl (Run.addFile disk) .empty).finish.json = .ok document := h
  rw [checkAsJson, hreport, ← hline]
  rfl

/-- Without a document it shows nothing, and the check fails. The reason goes to the error
output, with the failure of the writer below it. -/
theorem checkAsJson_of_json_eq_error {disk : Disk} {options : Options} {e : DocumentError}
    (h : (Report.ofFiles disk options.files).json = .error e) :
    checkAsJson disk options
      = { exitCode := 1, output := [], footer := none
          complaint := failureLines e } := by
  have hreport : (options.files.foldl (Run.addFile disk) .empty).finish.json = .error e := h
  rw [checkAsJson, hreport]

/-! ### Both formats -/

/-- A check in the text format. Colours are used if they are wanted and not switched off. -/
theorem execute_of_text (disk : Disk) (wantsColor : Bool) {options : Options}
    (h : options.format = .text) :
    execute disk wantsColor (.check options)
      = checkAsText disk (wantsColor && !options.noColor) options := by
  simp only [execute, h]

/-- A check in the JSON format, which has no use for colours. Nor is there a use for `-q`,
which the document does not depend on. -/
theorem execute_of_json (disk : Disk) (wantsColor : Bool) {options : Options}
    (h : options.format = .json) :
    execute disk wantsColor (.check options) = checkAsJson disk options := by
  simp only [execute, h]

/-- The exit code is that of the report, in either format. Where there is no document, the
check fails by itself, but then a path is no text, and the report has an issue. -/
theorem exitCode_execute_check (disk : Disk) (wantsColor : Bool) (options : Options) :
    (execute disk wantsColor (.check options)).exitCode
      = (Report.ofFiles disk options.files).exitCode := by
  cases hformat : options.format with
  | text => rw [execute_of_text disk wantsColor hformat, checkAsText_eq]
  | json =>
      rw [execute_of_json disk wantsColor hformat]
      cases hjson : (Report.ofFiles disk options.files).json with
      | ok document => rw [checkAsJson_of_json_eq_ok hjson]
      | error e =>
          -- Without a document there is a file that could not even be looked for.
          obtain ⟨p, hp, hnone⟩ := Report.exists_of_json_ofFiles_eq_error hjson
          rw [checkAsJson_of_json_eq_error hjson, Report.exitCode_eq,
            if_neg (Report.allIssues_ofFiles_ne_nil hp hnone)]

/-- Whatever else the command line says about the report, and whatever is on the disk, the
exit code tells whether there are issues. It does so too when there is no document and nothing
is shown, because only a path that is no text can be the reason: all paths in issues are those
of files, and a file with such a path has been reported as unreadable. -/
theorem exitCode_check (disk : Disk) {files : List Path} (hfiles : files ≠ [])
    (hpaths : ∀ p ∈ files, p.bytes ≠ []) :
    let report := Report.ofFiles disk files
    (∀ options : Options, options.files = files →
      Request.ofArguments options.arguments = .check options ∧
        ∀ wantsColor, (execute disk wantsColor (.check options)).exitCode
          = if report.allIssues = [] then 0 else 1) ∧
      (∀ issue ∈ report.allIssues, ∀ q ∈ issue.paths, q ∈ files) ∧
      report.files = files.map (fun p => (Reading.ofFile disk p).report) ∧
      (∀ p ∈ files, p.text? = none → Reading.ofFile disk p
        = .failed p (.unreadable p (ReadFailure.pathNotUtf8 p).message)) ∧
      ∀ e, report.json = .error e →
        (∃ p ∈ files, p.text? = none) ∧
          ∀ options : Options, options.files = files → ∀ wantsColor,
            let asText := execute disk wantsColor (.check { options with format := .text })
            let asJson := execute disk wantsColor (.check { options with format := .json })
            asJson.output = [] ∧ asJson.exitCode = 1 ∧ asText.exitCode = 1 := by
  intro report
  refine ⟨?_, fun issue hissue q hq => Report.mem_of_mem_paths_allIssues hissue hq,
    Report.files_ofFiles disk files, fun p _ hp => Reading.ofFile_of_text?_eq_none disk hp, ?_⟩
  · rintro options rfl
    refine ⟨Request.ofArguments_arguments hfiles hpaths, fun wantsColor => ?_⟩
    rw [exitCode_execute_check, Report.exitCode_eq]
  · intro e he
    obtain ⟨p, hp, hnone⟩ := Report.exists_of_json_ofFiles_eq_error he
    refine ⟨⟨p, hp, hnone⟩, ?_⟩
    rintro options rfl wantsColor asText asJson
    -- The file whose path is no text was not read, so the report has an issue already.
    have hexit : report.exitCode = 1 := by
      rw [Report.exitCode_eq, if_neg (Report.allIssues_ofFiles_ne_nil hp hnone)]
    have hjson : asJson = _ :=
      (execute_of_json disk wantsColor rfl).trans (checkAsJson_of_json_eq_error he)
    exact ⟨congrArg Outcome.output hjson, (exitCode_execute_check _ _ _).trans hexit,
      (exitCode_execute_check _ _ _).trans hexit⟩

/-- Nothing is wrong with the first file. The second has a path that is no text, so the JSON
format shows nothing, and the exit code is one in both formats. -/
theorem exitCode_check_undecodable :
    ∃ (disk : Disk) (options : Options),
      options = { files := [⟨[97]⟩, ⟨[126, 255]⟩], format := .json, quiet := true
                  noColor := false, verbosity := 2 } ∧
      (options.files ≠ [] ∧ ∀ p ∈ options.files, p.bytes ≠ []) ∧
      (Report.ofFiles disk [⟨[97]⟩]).allIssues = [] ∧
      (execute disk false (.check options)).output = [] ∧
      (execute disk false (.check options)).exitCode = 1 ∧
      (execute disk false (.check { options with format := .text })).exitCode = 1 := by
  let disk : Disk :=
    { home := none
      bytes := fun _ => .ok (Text.utf8 "libinput:name:a\n LIBINPUT_MODEL_A=1\n".toList) }
  have hfiles : [(⟨[97]⟩ : Path), ⟨[126, 255]⟩] ≠ [] ∧
      ∀ p ∈ [(⟨[97]⟩ : Path), ⟨[126, 255]⟩], p.bytes ≠ [] := by decide
  have hjson : (Report.ofFiles disk [⟨[97]⟩, ⟨[126, 255]⟩]).json = .error .pathNotUtf8 := by
    decide +kernel
  -- The disk could read any file, but it is not asked for the second one.
  have hcheck := exitCode_check disk hfiles.1 hfiles.2
  have hshown := (hcheck.2.2.2.2 _ hjson).2
    { files := [⟨[97]⟩, ⟨[126, 255]⟩], format := .json, quiet := true, noColor := false
      verbosity := 2 } rfl false
  exact ⟨disk, _, rfl, hfiles, by decide +kernel, hshown⟩

/-! ### The same report -/

/-- Without summaries the lines of the files are those of their issues. With the issues of
the records behind them, these are all issues of the report. -/
theorem flatMap_fileLines_quiet (colored : Bool) (files : List FileReport) :
    files.flatMap (fileLines true colored)
      = (files.filterMap FileReport.error).map (issueLine colored) := by
  rw [List.filterMap_eq_flatMap_toList, List.map_flatMap]
  rfl

/-- If all paths are texts and no colours are used, both formats show the same report, and no
other: the JSON format as a document that no other report has, the text format by the lines
of its files, in the order of the arguments, and the messages of its other issues. Without
summaries these are the messages of all issues. The footer is there if there are issues, and
counts them. -/
theorem formats_agree (disk : Disk) (options : Options) (wantsColor : Bool)
    (hpaths : ∀ p ∈ options.files, p.text? ≠ none)
    (hcolor : (wantsColor && !options.noColor) = false) :
    let report := Report.ofFiles disk options.files
    let asText := execute disk wantsColor (.check { options with format := .text })
    let asJson := execute disk wantsColor (.check { options with format := .json })
    (∃ document, report.json = .ok document ∧
        (∀ other : Report, other.json = .ok document → other = report) ∧
        asJson = { exitCode := report.exitCode, output := document ++ ['\n'], footer := none
                   complaint := [] }) ∧
      report.files.map (fun f => f.summary.path) = options.files ∧
      asText.output = unlines (report.files.flatMap (fun f =>
          (if options.quiet then [] else [f.summary.text]) ++ f.error.toList.map Issue.message)
        ++ report.issues.map Issue.message) ∧
      (options.quiet = true →
        asText.output = report.allIssues.flatMap fun issue => issue.message ++ ['\n']) ∧
      asText.footer = (if report.allIssues = [] then none
        else some ("✗ ".toList ++ Decimal.write report.allIssues.length
          ++ (if report.allIssues.length = 1 then " error found" else " errors found").toList)) ∧
      asText.exitCode = report.exitCode ∧ asText.complaint = [] := by
  intro report asText asJson
  have htext : asText = _ := (execute_of_text disk wantsColor rfl).trans (checkAsText_eq _ _ _)
  rw [hcolor] at htext
  -- As all paths are texts, there is a document, and so only one report that it shows.
  obtain ⟨document, hdocument⟩ := Report.exists_json_ofFiles_iff.2 hpaths
  rw [htext]
  refine ⟨⟨document, hdocument, fun other h => Report.eq_of_json_eq_ok h hdocument, ?_⟩, ?_, rfl,
    fun hquiet => ?_, ?_, rfl, rfl⟩
  · exact (execute_of_json disk wantsColor rfl).trans (checkAsJson_of_json_eq_ok hdocument)
  · rw [Report.files_ofFiles, List.map_map]
    exact List.map_id'' (Reading.path_summary_ofFile disk) _
  · -- Without summaries the lines of the files and of the issues join into one list.
    show unlines _ = _
    rw [hquiet, flatMap_fileLines_quiet, ← List.map_append, unlines, List.flatMap_map]
    rfl
  · by_cases hnone : report.allIssues = []
    · rw [if_pos hnone, if_neg (Bool.not_eq_true _ ▸ Report.failed_eq_false_iff.2 hnone)]
    · have hfailed : report.failed = true :=
        (Bool.not_eq_false _).mp (mt Report.failed_eq_false_iff.1 hnone)
      rw [if_neg hnone, if_pos hfailed]
      rfl

/-- The first file is missing, and the second has a property that is not in the catalogue. -/
theorem formats_agree_missing :
    ∃ (disk : Disk) (options : Options),
      options = { files := [⟨[97]⟩, ⟨[98]⟩], format := .text, quiet := false
                  noColor := true, verbosity := 0 } ∧
      (∀ p ∈ options.files, p.text? ≠ none) ∧
      (execute disk true (.check options)).output
        = ("a: 0 match groups, 0 matches, 0 properties\n" ++
          "Cannot read a: No such file or directory (os error 2)\n" ++
          "b: 1 match groups, 1 matches, 1 properties\n" ++
          "b:2: Failed to parse: 'F=1'\n").toList ∧
      (execute disk true (.check options)).footer = some "✗ 2 errors found".toList ∧
      ∃ document, (Report.ofFiles disk options.files).json = .ok document := by
  let disk : Disk :=
    { home := none
      bytes := fun p =>
        if p = ⟨[98]⟩ then .ok (Text.utf8 "libinput:name:b\n F=1\n".toList)
        else .error .missing }
  have hpaths : ∀ p ∈ [(⟨[97]⟩ : Path), ⟨[98]⟩], p.text? ≠ none := by decide +kernel
  obtain ⟨⟨document, hdocument, -⟩, -, hshown, -, hfooter, -⟩ := formats_agree disk
    { files := [⟨[97]⟩, ⟨[98]⟩], format := .text, quiet := false, noColor := true, verbosity := 0 }
    true hpaths rfl
  refine ⟨disk, _, rfl, hpaths, hshown.trans ?_, hfooter.trans ?_, document, hdocument⟩ <;>
    decide +kernel

end Command

end Hwdb
