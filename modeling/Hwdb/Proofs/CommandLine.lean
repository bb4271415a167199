import Hwdb.Command.Options
import Hwdb.Proofs.Steps

/-!
# `Hwdb.Proofs.CommandLine`: which checks can be asked for

`Options.arguments` writes a check as a command line: the options first, then `--`, and then
the files. Reading takes one argument after the other, and the first lemmas say what each of
these does to a draft that is ready for it. The draft after the last file is that of the check
(`Request.ofArguments_arguments`).

The other way round, no argument adds anything to the files but itself, and then it is not
empty (`OptionsDraft.leaves_take`). So the checks that have files, and no empty path among
them, are all that a command line can ask for (`Request.exists_ofArguments_iff`).
-/

set_option autoImplicit false

namespace Hwdb

/-- A path that was made of a text is shown as that text. So an argument that was made of an
option is recognised as that option. -/
theorem Path.display_ofText (t : Text) : (Path.ofText t).display = t := by
  rw [display, show (ofText t).text? = some t from Utf8.text?_utf8 t]
  rfl

/-! ### A check as a command line -/

/-- The option that asks for a format. -/
def Format.option : Format → Text
  | text => "--format=text".toList
  | json => "--format=json".toList

/-- A command line for a check, with its files at the end. -/
def Options.arguments (o : Options) : List Path :=
  .ofText o.format.option :: ((if o.quiet then [.ofText "-q".toList] else [])
    ++ ((if o.noColor then [.ofText "--no-color".toList] else [])
    ++ (List.replicate o.verbosity (.ofText "-v".toList) ++ .ofText "--".toList :: o.files)))

namespace OptionsDraft

/-! ### Taking options and files -/

/-- Whether the next argument can be an option. -/
structure Ready (d : OptionsDraft) : Prop where
  /-- No argument was `--`. -/
  filesOnly_eq : d.filesOnly = false
  /-- The last option has its value. -/
  awaitsFormat_eq : d.awaitsFormat = false

section
variable {d : OptionsDraft}

/-- The option for a format is taken if there has been none, and sets it. This and the five
lemmas below are the arguments that `Options.arguments` is made of. -/
theorem take_format (h : d.Ready) (hformat : d.format = none) (f : Format) :
    d.take (.ofText f.option) = .ok { d with format := some f } := by
  obtain ⟨files, _, quiet, noColor, verbosity, _, _⟩ := d
  obtain ⟨rfl, rfl⟩ := h
  cases hformat
  rw [take, Path.display_ofText]
  cases f <;> rfl

/-- The option `-q` is taken if it has not been there, and suppresses the summaries. -/
theorem take_quiet (h : d.Ready) (hquiet : d.quiet = false) :
    d.take (.ofText "-q".toList) = .ok { d with quiet := true } := by
  obtain ⟨files, format, _, noColor, verbosity, _, _⟩ := d
  obtain ⟨rfl, rfl⟩ := h
  cases hquiet
  rw [take, Path.display_ofText]
  rfl

/-- The option `--no-color` is taken if it has not been there, and switches colours off. -/
theorem take_noColor (h : d.Ready) (hcolor : d.noColor = false) :
    d.take (.ofText "--no-color".toList) = .ok { d with noColor := true } := by
  obtain ⟨files, format, quiet, _, verbosity, _, _⟩ := d
  obtain ⟨rfl, rfl⟩ := h
  cases hcolor
  rw [take, Path.display_ofText]
  rfl

/-- The option `-v` is taken any number of times, and counts. It is the only option that may
be repeated. -/
theorem take_verbose (h : d.Ready) :
    d.take (.ofText "-v".toList) = .ok { d with verbosity := d.verbosity + 1 } := by
  obtain ⟨files, format, quiet, noColor, verbosity, _, _⟩ := d
  obtain ⟨rfl, rfl⟩ := h
  rw [take, Path.display_ofText]
  rfl

/-- The argument `--` is taken as the end of the options. What comes after it is read as
files, even if it begins with a dash. -/
theorem take_end (h : d.Ready) :
    d.take (.ofText "--".toList) = .ok { d with filesOnly := true } := by
  obtain ⟨files, format, quiet, noColor, verbosity, _, _⟩ := d
  obtain ⟨rfl, rfl⟩ := h
  rw [take, Path.display_ofText]
  rfl

/-- After `--` every argument is a file, also one that looks like an option. Only the empty
one is refused. -/
theorem take_file (h : d.filesOnly = true) {p : Path} (hp : p.bytes ≠ []) :
    d.take p = .ok { d with files := d.files ++ [p] } := by
  rw [take, if_pos h, takeFile, if_neg (by simpa using hp)]

/-- One argument is taken, and the reading goes on. It is how a command line is read from
the front. -/
theorem foldlM_cons_of_take {d' : OptionsDraft} {p : Path} (h : d.take p = .ok d')
    (arguments : List Path) : (p :: arguments).foldlM take d = arguments.foldlM take d' := by
  rw [List.foldlM_cons, h]
  rfl

/-- Some arguments are taken, and the reading goes on. The parts of a command line can be
read one part after the other. -/
theorem foldlM_append_of_foldlM {d' : OptionsDraft} {before : List Path}
    (h : before.foldlM take d = .ok d') (arguments : List Path) :
    (before ++ arguments).foldlM take d = arguments.foldlM take d' := by
  rw [List.foldlM_append, h]
  rfl

/-- An option that may be left out: whether it is there or not, the reading goes on with
what the option says. -/
theorem foldlM_switch {a : Path} (next : Bool → OptionsDraft)
    (h : (next false).take a = .ok (next true)) (b : Bool) :
    (if b then [a] else []).foldlM take (next false) = .ok (next b) := by
  cases b with
  | false => rfl
  | true => exact foldlM_cons_of_take h []

/-- The option `-v` some number of times. The induction is on their number. -/
theorem foldlM_verbose (h : d.Ready) (n : Nat) :
    (List.replicate n (Path.ofText "-v".toList)).foldlM take d
      = .ok { d with verbosity := d.verbosity + n } := by
  obtain ⟨files, format, quiet, noColor, verbosity, _, _⟩ := d
  obtain ⟨rfl, rfl⟩ := h
  induction n generalizing verbosity with
  | zero => rfl
  | succ n ih =>
      rw [List.replicate_succ, foldlM_cons_of_take (take_verbose ⟨rfl, rfl⟩),
        Nat.add_comm n 1, ← Nat.add_assoc]
      exact ih (verbosity + 1)

/-- The files at the end of a command line are taken in their order. They come behind `--`,
so none of them is taken for an option. -/
theorem foldlM_files (h : d.filesOnly = true) {paths : List Path}
    (hpaths : ∀ p ∈ paths, p.bytes ≠ []) :
    paths.foldlM take d = .ok { d with files := d.files ++ paths } := by
  obtain ⟨files, format, quiet, noColor, verbosity, awaitsFormat, _⟩ := d
  cases h
  -- On the files to come: each goes behind those that are there.
  induction paths generalizing files with
  | nil =>
      rw [List.append_nil]
      rfl
  | cons p paths ih =>
      obtain ⟨hp, hpaths⟩ := List.forall_mem_cons.1 hpaths
      rw [foldlM_cons_of_take (take_file rfl hp), ih hpaths, List.append_assoc]
      rfl

end

/-! ### What becomes of the files -/

/-- What a step of the reading may come to: a draft with the given files, or something else
than a check. -/
def Leaves (files : List Path) : Except Request OptionsDraft → Prop
  | .ok d => d.files = files
  | .error request => ∀ o, request ≠ .check o

/-- If a step leaves some files, and the next one leaves the files that it finds, both
together leave those files. All the steps of an option are put together with this. -/
theorem Leaves.bind {files : List Path} {x : Except Request OptionsDraft}
    {f : OptionsDraft → Except Request OptionsDraft} (hx : Leaves files x)
    (hf : ∀ d : OptionsDraft, Leaves d.files (f d)) : Leaves files (x >>= f) := by
  cases x with
  | error request => exact hx
  | ok d => exact hx ▸ hf d

/-- The name of a format is no file. If it is unknown, or a format was given before, the
reading ends with a complaint. -/
theorem leaves_takeFormat (d : OptionsDraft) (name : Text) :
    Leaves d.files (d.takeFormat name) := by
  unfold takeFormat
  split
  · nofun
  · nofun
  · rfl

/-- The option `-q` is no file. The second one ends the reading. -/
theorem leaves_takeQuiet (d : OptionsDraft) : Leaves d.files d.takeQuiet := by
  unfold takeQuiet
  split
  · nofun
  · rfl

/-- The option `--no-color` is no file. The second one ends the reading, too. -/
theorem leaves_takeNoColor (d : OptionsDraft) : Leaves d.files d.takeNoColor := by
  unfold takeNoColor
  split
  · nofun
  · rfl

/-- The option `-v` is no file, however often it comes. -/
theorem leaves_takeVerbose (d : OptionsDraft) : Leaves d.files d.takeVerbose :=
  rfl

/-- Letters are options, and each of them leaves the files to the next. The induction is on
the letters, as one of them may take all the others as its value. -/
theorem leaves_takeLetters (d : OptionsDraft) (letters : List Char) :
    Leaves d.files (d.takeLetters letters) := by
  fun_induction takeLetters d letters with
  | case1 | case2 => rfl
  | case3 | case4 => exact leaves_takeFormat _ _
  | case5 | case6 | case9 => nofun
  | case7 d letters ih => exact (leaves_takeQuiet d).bind ih
  | case8 d letters ih => exact (leaves_takeVerbose d).bind ih

/-- A long option without a value is no file, whatever its name. An unknown name ends the
reading, and so do the requests for help and for the version. -/
theorem leaves_takeNamed (d : OptionsDraft) (name : Text) : Leaves d.files (d.takeNamed name) := by
  unfold takeNamed
  split_ifs
  · rfl
  · exact leaves_takeQuiet d
  · exact leaves_takeNoColor d
  · exact leaves_takeVerbose d
  all_goals nofun

/-- A long option is no file, with a value or without one. The value of an option is read
from the same argument or from the next, and neither adds a file. -/
theorem leaves_takeLong (d : OptionsDraft) (option : Text) :
    Leaves d.files (d.takeLong option) := by
  rw [takeLong]
  split
  · exact leaves_takeNamed d _
  · split_ifs
    · exact leaves_takeFormat d _
    all_goals nofun

/-- A file is refused if it is empty, and else it comes after the files that are there. -/
theorem leaves_takeFile (d : OptionsDraft) (p : Path) :
    Leaves d.files (d.takeFile p) ∨ p.bytes ≠ [] ∧ Leaves (d.files ++ [p]) (d.takeFile p) := by
  unfold takeFile
  split
  · exact Or.inl nofun
  · next hbytes => exact Or.inr ⟨by simpa using hbytes, rfl⟩

/-- An argument leaves the files as they are or, if it is not empty, becomes one. Whether an
argument is an option, the value of one, or a file, is decided by its text and by the
arguments before it. -/
theorem leaves_take (d : OptionsDraft) (p : Path) :
    Leaves d.files (d.take p) ∨ p.bytes ≠ [] ∧ Leaves (d.files ++ [p]) (d.take p) := by
  unfold take
  split_ifs
  · exact leaves_takeFile d p
  · exact Or.inl (leaves_takeFormat d _)
  · split
    · exact Or.inl rfl
    · exact Or.inl (leaves_takeLong d _)
    · exact Or.inl (leaves_takeLetters d _)
    · exact leaves_takeFile d p

/-- However many arguments there are, no file has an empty path: each argument is read by
`leaves_take`, and the files only grow. -/
theorem leaves_foldlM (d : OptionsDraft) (arguments : List Path)
    (hd : ∀ p ∈ d.files, p.bytes ≠ []) :
    ∃ files, (∀ p ∈ files, p.bytes ≠ []) ∧ Leaves files (arguments.foldlM take d) := by
  induction arguments generalizing d with
  | nil => exact ⟨d.files, hd, rfl⟩
  | cons argument arguments ih =>
      -- The argument adds at most itself to the files, and an empty one is never added.
      have hnext : ∃ files, (∀ p ∈ files, p.bytes ≠ []) ∧ Leaves files (d.take argument) := by
        rcases leaves_take d argument with htake | ⟨hbytes, htake⟩
        · exact ⟨d.files, hd, htake⟩
        · refine ⟨d.files ++ [argument], List.forall_mem_append.2 ⟨hd, ?_⟩, htake⟩
          exact List.forall_mem_singleton.2 hbytes
      obtain ⟨files, hfiles, htake⟩ := hnext
      rw [List.foldlM_cons]
      -- A step that asks for something else ends the reading, and else it goes on.
      cases hresult : d.take argument with
      | error request =>
          rw [hresult] at htake
          exact ⟨files, hfiles, htake⟩
      | ok e =>
          rw [hresult] at htake
          exact ih e (htake ▸ hfiles)

end OptionsDraft

open OptionsDraft

/-- A command line for a check asks for this check. The arguments are taken one after the
other, in the order in which they are written. -/
theorem Request.ofArguments_arguments {o : Options} (hfiles : o.files ≠ [])
    (hpaths : ∀ p ∈ o.files, p.bytes ≠ []) : ofArguments o.arguments = .check o := by
  have hquiet := foldlM_switch (fun quiet => { start with format := some o.format, quiet })
    (take_quiet ⟨rfl, rfl⟩ rfl) o.quiet
  have hcolor := foldlM_switch
    (fun noColor => { start with format := some o.format, quiet := o.quiet, noColor })
    (take_noColor ⟨rfl, rfl⟩ rfl) o.noColor
  -- The arguments one after the other, each of which finds the draft that it needs.
  have hdraft : o.arguments.foldlM take start
      = .ok { files := o.files, format := some o.format, quiet := o.quiet
              noColor := o.noColor, verbosity := o.verbosity
              awaitsFormat := false, filesOnly := true } := by
    rw [Options.arguments, foldlM_cons_of_take (take_format ⟨rfl, rfl⟩ rfl o.format)]
    refine (foldlM_append_of_foldlM hquiet _).trans ?_
    refine (foldlM_append_of_foldlM hcolor _).trans ?_
    refine (foldlM_append_of_foldlM (foldlM_verbose ⟨rfl, rfl⟩ o.verbosity) _).trans ?_
    rw [foldlM_cons_of_take (take_end ⟨rfl, rfl⟩), foldlM_files rfl hpaths]
    simp [start]
  rw [ofArguments, hdraft]
  -- The draft is finished: its format is there, and it has a file.
  show finish _ = _
  rw [finish, if_neg Bool.false_ne_true, if_neg (by simpa using hfiles)]
  rfl

/-- The files of a check that a command line asks for: there is one, and none has an empty
path. -/
theorem Request.files_of_ofArguments {arguments : List Path} {o : Options}
    (h : ofArguments arguments = .check o) : o.files ≠ [] ∧ ∀ p ∈ o.files, p.bytes ≠ [] := by
  obtain ⟨files, hpaths, hleaves⟩ :=
    leaves_foldlM start arguments fun _ hp => absurd hp List.not_mem_nil
  unfold ofArguments at h
  split at h
  · next draft hdraft =>
      rw [hdraft] at hleaves
      unfold finish at h
      -- Of the ways to finish a draft, one only is a check.
      split_ifs at h with hawaits hfiles
      cases h
      cases hleaves
      exact ⟨by simpa using hfiles, hpaths⟩
  · next request hrequest =>
      rw [hrequest] at hleaves
      exact absurd h (hleaves o)

/-- A command line can ask for a check of any files, as long as there is one and none has an
empty path. So what is proved about checks of such files is proved about all checks that a
user can ask for. -/
theorem Request.exists_ofArguments_iff {o : Options} :
    (∃ arguments, ofArguments arguments = .check o)
      ↔ o.files ≠ [] ∧ ∀ p ∈ o.files, p.bytes ≠ [] :=
  ⟨fun ⟨_, h⟩ => files_of_ofArguments h,
    fun ⟨hfiles, hpaths⟩ => ⟨o.arguments, ofArguments_arguments hfiles hpaths⟩⟩

end Hwdb
