import Mathlib.Algebra.GroupWithZero.Nat
import Mathlib.Data.List.Forall2
import Mathlib.Data.List.Induction
import Hwdb.Proofs.Run

/-!
# `Hwdb.Proofs.Accounts`: a run keeps account of its files

A `Call` hands one more file to a run, as a text or as a path on a disk. It comes to records
only if there is a text and the text can be read (`Call.records?`).

`Run.Accounts` says how a run stands after some calls: there is one report for each of them,
the run has the records of those calls that came to any, and the reports count these records.
A call keeps this, whatever comes of it (`Run.Accounts.perform`), so it is true after any
calls (`Run.accounts_ofCalls`). A call that fails leaves no trace but its report, and the
issues at the end are those of the other calls (`Run.accounts_finish_ofCalls`).
-/

set_option autoImplicit false

namespace Hwdb

/-! ### Calls -/

/-- A call that hands a file to a run. -/
inductive Call
  /-- The file has the given text. -/
  | text (path : Path) (t : Text)
  /-- The file is on a disk, which is given as it is at the time of the call. -/
  | file (disk : Disk) (path : Path)

namespace Call

/-- The path as it was given. -/
def path : Call → Path
  | text path _ => path
  | file _ path => path

/-- The text of the file, or why there is none. -/
def content : Call → Except ReadFailure Text
  | text _ t => .ok t
  | file disk path => disk.readExpanded path

/-- The records of the file, if there is a text and it can be read. -/
def records? (c : Call) : Option (List Record) :=
  c.content.toOption.bind fun t => (Record.parse c.path t).toOption

/-- What the call adds to a run. -/
def reading : Call → Reading
  | text path t => .ofText path t
  | file disk path => .ofFile disk path

/-- A file on a disk is taken like one with the text that the disk has for it, so a call is
its path and its content, whichever kind of call it is. -/
theorem reading_eq (c : Call) :
    c.reading = match c.content with
      | .ok t => .ofText c.path t
      | .error e => .failed c.path (.unreadable c.path e.message) := by
  cases c with
  | text path t => rfl
  | file disk path => rfl

/-- What can come of a call: there is no text, or the text cannot be read, or it has
records. Only the last adds anything to a run but its report. -/
theorem reading_cases (c : Call) :
    (∃ e, c.content = .error e ∧ c.records? = none ∧
      c.reading = .failed c.path (.unreadable c.path e.message)) ∨
    (∃ t e, c.content = .ok t ∧ Record.parse c.path t = .error e ∧ c.records? = none ∧
      c.reading = .failed c.path (.structural c.path e)) ∨
    ∃ t rs, c.content = .ok t ∧ Record.parse c.path t = .ok rs ∧ c.records? = some rs ∧
      c.reading = { report := ⟨.ofRecords c.path rs, none⟩, records := rs } := by
  have hreading := c.reading_eq
  cases hcontent : c.content with
  | error e =>
      rw [hcontent] at hreading
      refine Or.inl ⟨e, rfl, ?_, hreading⟩
      rw [records?, hcontent]
      rfl
  | ok t =>
      rw [hcontent] at hreading
      have hrecords : c.records? = (Record.parse c.path t).toOption := by
        rw [records?, hcontent]
        rfl
      cases hparse : Record.parse c.path t with
      | error e =>
          rw [hparse] at hrecords
          refine Or.inr (Or.inl ⟨t, e, rfl, hparse, hrecords, hreading.trans ?_⟩)
          simp only [Reading.ofText, hparse]
      | ok rs =>
          rw [hparse] at hrecords
          exact Or.inr (Or.inr ⟨t, rs, rfl, hparse, hrecords,
            hreading.trans (Reading.ofText_of_parse_eq_ok hparse)⟩)

/-- A report is the report of a call. -/
structure Reported (c : Call) (f : FileReport) : Prop where
  /-- It has the path that was given, also where this is not the path of the file. -/
  path_eq : f.summary.path = c.path
  /-- It has an error exactly if the call came to no records. -/
  error_iff : f.error.isSome ↔ c.records? = none
  /-- If there was no text, it says why. -/
  unreadable : ∀ e, c.content = .error e → f.error = some (.unreadable c.path e.message)
  /-- If the text could not be read, it says where. -/
  structural : ∀ t e, c.content = .ok t → Record.parse c.path t = .error e →
    f.error = some (.structural c.path e)
  /-- With an error it counts nothing. -/
  counts_eq_zero : f.error.isSome →
    f.summary.records = 0 ∧ f.summary.keys = 0 ∧ f.summary.properties = 0

/-- A call is reported as it should be. The cases are those of `reading_cases`, and in each
of them all parts of the report are known. -/
theorem reported_reading (c : Call) : c.Reported c.reading.report := by
  rcases c.reading_cases with ⟨e, hcontent, hrecords, hreading⟩
    | ⟨t, e, hcontent, hparse, hrecords, hreading⟩
    | ⟨t, rs, hcontent, hparse, hrecords, hreading⟩
  · rw [hreading]
    exact
      { path_eq := rfl
        error_iff := by simp [Reading.failed, hrecords]
        unreadable := by simp [Reading.failed, hcontent]
        structural := by simp [hcontent]
        counts_eq_zero := fun _ => ⟨rfl, rfl, rfl⟩ }
  · rw [hreading]
    exact
      { path_eq := rfl
        error_iff := by simp [Reading.failed, hrecords]
        unreadable := by simp [hcontent]
        structural := by
          intro t' e' hcontent' hparse'
          obtain rfl : t = t' := Except.ok.inj (hcontent.symm.trans hcontent')
          obtain rfl : e = e' := Except.error.inj (hparse.symm.trans hparse')
          rfl
        counts_eq_zero := fun _ => ⟨rfl, rfl, rfl⟩ }
  · rw [hreading]
    exact
      { path_eq := rfl
        error_iff := by simp [hrecords]
        unreadable := by simp [hcontent]
        structural := by
          intro t' e' hcontent' hparse'
          obtain rfl : t = t' := Except.ok.inj (hcontent.symm.trans hcontent')
          rw [hparse] at hparse'
          cases hparse'
        counts_eq_zero := by simp }

/-- A call adds the records that it came to, and none if it failed. So a failed call leaves
the records of a run as they were. -/
theorem records_reading (c : Call) : c.reading.records = c.records?.getD [] := by
  rcases c.reading_cases with ⟨e, -, hrecords, hreading⟩ | ⟨t, e, -, -, hrecords, hreading⟩
    | ⟨t, rs, -, -, hrecords, hreading⟩ <;> rw [hreading, hrecords] <;> rfl

/-- The report of a call counts what the call adds. A failed call adds no record, and its
report counts none. -/
theorem summary_reading (c : Call) :
    c.reading.report.summary = .ofRecords c.path c.reading.records := by
  rcases c.reading_cases with ⟨e, -, -, hreading⟩ | ⟨t, e, -, -, -, hreading⟩
    | ⟨t, rs, -, -, -, hreading⟩ <;> rw [hreading] <;> rfl

end Call

/-! ### Runs -/

namespace Run

/-- The run after one more call. -/
def perform (run : Run) : Call → Run
  | .text path t => run.addText path t
  | .file disk path => addFile disk run path

/-- The run of some calls. -/
def ofCalls (calls : List Call) : Run :=
  calls.foldl perform empty

/-- To perform a call is to add what it came to. What is proved about a run that adds
readings is proved about calls with this. -/
theorem perform_eq (run : Run) (c : Call) : run.perform c = run.add c.reading := by
  cases c with
  | text path t => rfl
  | file disk path => rfl

/-- One more call is performed after the others. -/
theorem ofCalls_concat (calls : List Call) (c : Call) :
    ofCalls (calls ++ [c]) = (ofCalls calls).perform c :=
  List.foldl_concat perform empty c calls

/-- How a run stands after some calls. -/
structure Accounts (run : Run) (calls : List Call) : Prop where
  /-- There is one report for each call, in the order of the calls. -/
  reported : List.Forall₂ Call.Reported calls run.files
  /-- The records are those of the calls that came to any, in the order of the calls. -/
  records_eq : run.records = (calls.filterMap Call.records?).flatten
  /-- The reports together count the records, -/
  sum_records : (run.files.map fun f => f.summary.records).sum = run.records.length
  /-- the match keys in them -/
  sum_keys : (run.files.map fun f => f.summary.keys).sum
    = (run.records.flatMap Record.keys).length
  /-- and the properties. -/
  sum_properties : (run.files.map fun f => f.summary.properties).sum
    = (run.records.flatMap Record.properties).length

/-- Without a call there is no report and no record. It is the start of
`accounts_ofCalls`. -/
theorem accounts_empty : empty.Accounts [] :=
  ⟨.nil, rfl, rfl, rfl, rfl⟩

/-- What the reports count of the records, they still count after one more call. It is
stated for any count that adds up over lists of records, as the three counts of a report
do. -/
theorem sum_files_perform {run : Run} (count : FileSummary → Nat) (size : List Record → Nat)
    (hcount : ∀ path rs, count (.ofRecords path rs) = size rs)
    (hsize : ∀ rs qs, size (rs ++ qs) = size rs + size qs)
    (h : (run.files.map fun f => count f.summary).sum = size run.records) (c : Call) :
    ((run.perform c).files.map fun f => count f.summary).sum = size (run.perform c).records := by
  have hadded : count c.reading.report.summary = size c.reading.records := by
    rw [c.summary_reading, hcount]
  rw [perform_eq]
  calc ((run.add c.reading).files.map fun f => count f.summary).sum
      = (run.files.map fun f => count f.summary).sum + count c.reading.report.summary := by
        rw [add, List.map_append, List.sum_append, List.map_singleton, List.sum_singleton]
    _ = size (run.add c.reading).records := by rw [h, hadded, add, hsize]

/-- One more call keeps the accounts. It is the step of `accounts_ofCalls`. -/
theorem Accounts.perform {run : Run} {calls : List Call} (h : run.Accounts calls) (c : Call) :
    (run.perform c).Accounts (calls ++ [c]) where
  reported := by
    rw [perform_eq]
    exact List.rel_append h.reported (.cons c.reported_reading .nil)
  records_eq := by
    rw [perform_eq, add, c.records_reading, h.records_eq, List.filterMap_append,
      List.flatten_append]
    cases hcall : c.records? <;> simp [hcall]
  -- The three sums are one argument, each for what it counts.
  sum_records := by
    refine sum_files_perform FileSummary.records List.length (fun _ _ => rfl) ?_ h.sum_records c
    intro rs qs
    exact List.length_append
  sum_keys := by
    refine sum_files_perform FileSummary.keys (fun rs => (rs.flatMap Record.keys).length)
      (fun _ _ => rfl) ?_ h.sum_keys c
    intro rs qs
    rw [List.flatMap_append, List.length_append]
  sum_properties := by
    refine sum_files_perform FileSummary.properties
      (fun rs => (rs.flatMap Record.properties).length) (fun _ _ => rfl) ?_ h.sum_properties c
    intro rs qs
    rw [List.flatMap_append, List.length_append]

/-- The accounts are right after any calls, by induction on the calls from the last one. The
calls are free: any of them may fail, and a file may come twice. -/
theorem accounts_ofCalls (calls : List Call) : (ofCalls calls).Accounts calls := by
  induction calls using List.reverseRecOn with
  | nil => exact accounts_empty
  | append_singleton calls c ih =>
      rw [ofCalls_concat]
      exact ih.perform c

/-- Calls that come to no records could as well be left out, as far as records go. Since
issues are found in the records, the issues stay the same as well. -/
theorem records_ofCalls_filter (calls : List Call) :
    (ofCalls (calls.filter fun c => c.records?.isSome)).records = (ofCalls calls).records := by
  rw [(accounts_ofCalls _).records_eq, (accounts_ofCalls calls).records_eq,
    List.filterMap_filter]
  refine congrArg List.flatten (List.filterMap_congr fun c _ => ?_)
  cases c.records? <;> rfl

/-- A run keeps account of its files: after any calls there is one report for each, and the
records are those of the calls that came to any. So a call that fails leaves the records as
they were, the issues at the end are those of the other calls' records, and without the calls
that fail they would be the same. -/
theorem accounts_finish_ofCalls (calls : List Call) :
    (ofCalls calls).Accounts calls ∧
      (∀ c, ((ofCalls calls).perform c).records
        = (ofCalls calls).records ++ c.records?.getD []) ∧
      (ofCalls calls).finish.issues
        = (Findings.ofRecords (calls.filterMap Call.records?).flatten).issues ∧
      (ofCalls (calls.filter fun c => c.records?.isSome)).finish.issues
        = (ofCalls calls).finish.issues := by
  refine ⟨accounts_ofCalls calls, fun c => ?_, ?_, ?_⟩
  · rw [perform_eq, ← c.records_reading]
    rfl
  · rw [finish, (accounts_ofCalls calls).records_eq]
  · rw [finish, finish, records_ofCalls_filter]

/-- A file that is missing and one with a fault behind its first record leave the third
alone, which declares the same key. -/
example :
    (ofCalls [.file ⟨none, fun _ => .error .missing⟩ ⟨[97]⟩,
        .text ⟨[98]⟩ "libinput:name:a\n A=1\n\n\n".toList,
        .text ⟨[99]⟩ "libinput:name:a\n LIBINPUT_MODEL_A=1".toList]).finish
      = { files :=
            [⟨.empty ⟨[97]⟩, some (.unreadable ⟨[97]⟩ ReadFailure.missing.message)⟩,
              ⟨.empty ⟨[98]⟩, some (.structural ⟨[98]⟩ ⟨4, .unexpectedBlank, 1⟩)⟩,
              ⟨⟨⟨[99]⟩, 1, 1, 1⟩, none⟩]
          issues := [] } := by
  decide +kernel

end Run

end Hwdb
