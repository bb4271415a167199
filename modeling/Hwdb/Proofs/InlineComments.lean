import Mathlib.Data.List.Forall2
import Hwdb.Document
import Hwdb.Proofs.Findings
import Hwdb.Proofs.Places
import Hwdb.Proofs.Relabelling
import Hwdb.Proofs.Run

/-!
# `Hwdb.Proofs.InlineComments`: comments and spaces behind a value change nothing

The `core` of a property is its tag and its value without the spaces at its end. Reading a
property splits a comment off, and interpreting it takes away what follows the first `#` of
its written form. The two agree: a property and its core are interpreted alike
(`Property.bare_core`).

So files that agree up to cores, which `Text.AgreesWith` says line by line, are read as
records with the same cores or with the same error (`Record.reading_cores_eq`). Nothing in a
report tells such records apart, and runs of such files have the same report
(`Run.finish_eq_of_agreesWith`).
-/

set_option autoImplicit false

namespace Hwdb

/-! ### Properties -/

/-- What is left is left when the comment and the blanks are taken away again. So a property
and its core are interpreted alike. -/
theorem Text.withoutComment_withoutComment (t : Text) :
    withoutComment (withoutComment t) = withoutComment t := by
  have htrim : withoutComment t = (t.takeWhile (· != '#')).rdropWhile isBlank := rfl
  have hbefore : ∀ c ∈ withoutComment t, (c != '#') = true := by
    intro c hc
    rw [htrim] at hc
    have hchar := List.mem_takeWhile_imp ((List.rdropWhile_prefix isBlank _).mem hc)
    exact hchar
  rw [withoutComment, List.takeWhile_eq_self_iff.2 hbefore, htrim]
  exact List.rdropWhile_idempotent _ _

namespace Property

/-- The property without its comment and the spaces at the end of its value. -/
def core (p : Property) : Property :=
  { tag := p.tag, value := p.trimmedValue, comment := none }

/-- The core of a property is interpreted as the property is: what is dropped is what is not
interpreted. The tag and the trimmed value are all that is left of either. -/
theorem bare_core {p : Property} (h : p.WellFormed) : p.core.bare = p.bare := by
  have htext : p.core.text = p.bare := by
    rw [bare_eq h]
    exact List.append_nil _
  rw [bare, htext, bare, Text.withoutComment_withoutComment]

/-- The core of a property has the same issue by itself. The issue quotes what is
interpreted, and the comment is no part of that. -/
theorem issue?_core {p : Property} (h : p.WellFormed) (site : Site) :
    p.core.issue? site = p.issue? site := by
  rw [issue?, issue?, bare_core h]

end Property

/-! ### Lines and texts -/

namespace Text

/-- Both are the same line, or both are properties with the same tag and with values that are
the same up to spaces at the end. -/
def SameLine (s t : Text) : Prop :=
  s = t ∨ ∃ p q, Line.ofText s = .property p ∧ Line.ofText t = .property q ∧
    p.tag = q.tag ∧ p.trimmedValue = q.trimmedValue

/-- Two lines are the same in terms of what they are read as. Trimming is what makes values
agree up to spaces at their ends. -/
theorem sameLine_iff {s t : Text} :
    s.SameLine t ↔ s = t ∨ ∃ p ∈ (Line.ofText s).property?, ∃ q ∈ (Line.ofText t).property?,
      p.tag = q.tag ∧ p.trimmedValue = q.trimmedValue := by
  simp only [SameLine, Option.mem_def, Line.property?_eq_some_iff]
  exact or_congr Iff.rfl
    ⟨fun ⟨p, q, hp, hq, h⟩ => ⟨p, hp, q, hq, h⟩, fun ⟨p, hp, q, hq, h⟩ => ⟨p, q, hp, hq, h⟩⟩

instance (s t : Text) : Decidable (s.SameLine t) :=
  decidable_of_iff _ sameLine_iff.symm

/-- Two texts have as many lines, and each line of the one is the same as the one in its
place of the other. -/
def AgreesWith (s t : Text) : Prop :=
  List.Forall₂ SameLine s.lines t.lines

instance (s t : Text) : Decidable (s.AgreesWith t) :=
  inferInstanceAs (Decidable (List.Forall₂ SameLine s.lines t.lines))

end Text

/-- Every property is replaced by its core. -/
def Relabelling.cores : Relabelling :=
  { property := Property.core }

open Relabelling (cores)

/-- Lines that are the same have the same core, which is why a run cannot tell them apart. A
line that is no property is the same text, and so of the same kind. -/
theorem Text.SameLine.cores_eq {s t : Text} (h : s.SameLine t) :
    cores.line (Line.ofText s) = cores.line (Line.ofText t) := by
  rcases h with rfl | ⟨p, q, hp, hq, htag, hvalue⟩
  · rfl
  · rw [hp, hq]
    show Line.property p.core = .property q.core
    rw [Property.core, Property.core, htag, hvalue]

/-- Lists whose members correspond have the same images. The lines of two texts that agree
are such lists. -/
theorem map_eq_map_of_forall₂ {α β γ : Type} {f : α → γ} {g : β → γ} {as : List α} {bs : List β}
    (h : List.Forall₂ (fun a b => f a = g b) as bs) : as.map f = bs.map g := by
  have himages : List.Forall₂ Eq (as.map f) (bs.map g) :=
    List.forall₂_map_left_iff.2 (List.forall₂_map_right_iff.2 h)
  rwa [List.forall₂_eq_eq_eq] at himages

/-- Texts that agree are read as the same records up to cores, or with the same error.
Faults quote lines, but none of them quotes a property that can be read. -/
theorem Record.reading_cores_eq (path : Path) {s t : Text} (h : s.AgreesWith t) :
    cores.reading (Record.parse path s) = cores.reading (Record.parse path t) := by
  -- A file is read up to cores from the cores of its lines, whatever text they are from.
  have hread : ∀ u : Text, cores.reading (Record.parse path u)
      = Assembly.complete 0 ((u.lines.map Line.ofText).map cores.line)
          (cores.assembly (.start path)) := fun u => by
    rw [Record.parse_eq_complete]
    exact (cores.complete_assembly (fun i _ => rfl) _).symm
  have hlines : (s.lines.map Line.ofText).map cores.line
      = (t.lines.map Line.ofText).map cores.line := by
    rw [List.map_map, List.map_map]
    exact map_eq_map_of_forall₂ (h.imp fun _ _ hline => hline.cores_eq)
  rw [hread, hread, hlines]

/-! ### Records -/

/-- Up to cores, a record keeps its path, its line and its match keys. These are what its
match keys are checked by. -/
theorem Record.cores_eq (r : Record) :
    cores.record r = { r with properties := r.properties.map cores.numberedProperty } := by
  have hkeys : r.keys.map cores.key = r.keys := List.map_id r.keys
  rw [Relabelling.record, hkeys]
  rfl

/-- Properties have the same issues as their cores, whatever tags have been there before
them. Tags are no part of what is dropped, so the same ones are repeated. -/
theorem propertyIssuesAfter_cores (path : Path) (seen : List Text)
    {ps : List (Numbered Property)} (h : ∀ p ∈ ps, p.item.WellFormed) :
    propertyIssuesAfter path seen (ps.map cores.numberedProperty)
      = propertyIssuesAfter path seen ps := by
  -- A core keeps its tag, so the tags that have been seen are the same further on.
  induction ps generalizing seen with
  | nil => rfl
  | cons p ps ih =>
      have ih := ih (p.item.tag :: seen) fun q hq => h q (List.mem_cons_of_mem _ hq)
      have hown := p.item.issue?_core (h p List.mem_cons_self) ⟨path, p.line⟩
      rw [propertyIssuesAfter_cons, ← ih, ← hown]
      rfl

namespace Findings

/-- The cores of records have the same issues: their match keys are the same, and those of
their properties are checked alike. -/
theorem issues_cores {rs : List Record} (h : ∀ r ∈ rs, ∀ p ∈ r.properties, p.item.WellFormed) :
    (ofRecords (rs.map cores.record)).issues = (ofRecords rs).issues := by
  -- The index is made from paths, numbers and match keys, which cores leave as they are.
  have hindex : KeyIndex.ofRecords (rs.map cores.record) = KeyIndex.ofRecords rs := by
    have hadd : ∀ (index : KeyIndex) (r : Record),
        index.add (cores.record r) = index.add r := fun index r => by
      rw [Record.cores_eq]
      rfl
    rw [KeyIndex.ofRecords, List.foldl_map]
    simp only [hadd]
    rfl
  have hproperties : (rs.map cores.record).flatMap Record.propertyIssues
      = rs.flatMap Record.propertyIssues := by
    rw [List.flatMap_map]
    refine List.flatMap_congr fun r hr => ?_
    exact propertyIssuesAfter_cores r.path [] (h r hr)
  rw [ofRecords, ofRecords, repeatedKeyIssues, hindex, hproperties]
  rfl

end Findings

/-- The counts of a file do not change, as nothing is dropped but parts of properties. A
property without a comment is still one property. -/
theorem FileSummary.ofRecords_cores (path : Path) (rs : List Record) :
    ofRecords path (rs.map cores.record) = ofRecords path rs := by
  simp [ofRecords, List.flatMap_map, List.length_flatMap, Record.cores_eq]

/-! ### Runs -/

namespace Reading

/-- What a file adds, with the cores of its properties. -/
def cores (reading : Reading) : Reading :=
  { reading with records := reading.records.map Relabelling.cores.record }

/-- What a file adds up to cores is what its text is read as up to cores. The report of a
file does not show its properties, so only the records change. -/
theorem cores_ofText (path : Path) (t : Text) :
    (ofText path t).cores
      = match Relabelling.cores.reading (Record.parse path t) with
        | .ok rs =>
            { report := { summary := .ofRecords path rs, error := none }, records := rs }
        | .error e => failed path (.structural path e) := by
  unfold ofText
  cases Record.parse path t with
  | error e => rfl
  | ok rs =>
      show _ = Reading.mk ⟨FileSummary.ofRecords path (rs.map Relabelling.cores.record), none⟩ _
      rw [FileSummary.ofRecords_cores]
      rfl

/-- Two texts that agree add the same to a run, up to cores. Hence the reports of the two
files are the same, errors included. -/
theorem cores_ofText_eq (path : Path) {s t : Text} (h : s.AgreesWith t) :
    (ofText path s).cores = (ofText path t).cores := by
  rw [cores_ofText, Record.reading_cores_eq path h, cores_ofText]

end Reading

/-- The issues of a run can be found from the cores of its records. All properties of its
records stood in lines, so they are well formed and have cores. -/
theorem Run.issues_finish_cores (sources : List (Path × Text)) :
    (Findings.ofRecords ((ofTexts sources).records.map cores.record)).issues
      = (ofTexts sources).finish.issues := by
  refine Findings.issues_cores fun r hr p hp => ?_
  obtain ⟨s, -, rs, hparse, hrs⟩ := mem_records_ofTexts.1 hr
  exact (Record.hasLine_property hparse hrs hp).2

/-- Runs of files with the same paths, whose texts agree up to comments behind values and
spaces before them, have the same report. -/
theorem Run.finish_eq_of_agreesWith {sources sources' : List (Path × Text)}
    (h : List.Forall₂ (fun s s' => s.1 = s'.1 ∧ s.2.AgreesWith s'.2) sources sources') :
    (ofTexts sources).finish.files = (ofTexts sources').finish.files ∧
      (ofTexts sources).finish.issues = (ofTexts sources').finish.issues ∧
      (ofTexts sources).finish.json = (ofTexts sources').finish.json := by
  -- File by file the two runs take in the same up to cores.
  have hreading : List.Forall₂ (fun s s' : Path × Text =>
      (Reading.ofText s.1 s.2).cores = (Reading.ofText s'.1 s'.2).cores) sources sources' := by
    refine h.imp fun s s' hs => ?_
    rw [hs.1]
    exact Reading.cores_ofText_eq s'.1 hs.2
  have hfiles : (ofTexts sources).finish.files = (ofTexts sources').finish.files := by
    rw [finish, finish, files_ofTexts, files_ofTexts]
    exact map_eq_map_of_forall₂ (hreading.imp fun _ _ hs => congrArg Reading.report hs)
  have hrecords : (ofTexts sources).records.map cores.record
      = (ofTexts sources').records.map cores.record := by
    rw [records_ofTexts, records_ofTexts, List.map_flatMap, List.map_flatMap]
    have hlists := map_eq_map_of_forall₂ (hreading.imp fun _ _ hs => congrArg Reading.records hs)
    exact congrArg List.flatten hlists
  have hissues : (ofTexts sources).finish.issues = (ofTexts sources').finish.issues := by
    rw [← issues_finish_cores, hrecords, issues_finish_cores]
  have hreport : (ofTexts sources).finish = (ofTexts sources').finish := by
    rw [Report.mk.injEq]
    exact ⟨hfiles, hissues⟩
  exact ⟨hfiles, hissues, by rw [hreport]⟩

/-- Comments come and go, with all kinds of characters in them, in a file that can be read and
in one that cannot. -/
theorem Run.finish_eq_of_agreesWith_comments :
    ∃ sources sources' : List (Path × Text),
      sources = [(⟨[97]⟩,
          "libinput:name:x\n LIBINPUT_ATTR_SIZE_HINT=0x5  #=\r#\r\n F=  #a\n F= \n".toList),
        (⟨[98]⟩, "libinput:name:y\n B=1#\nlibinput:name:z\n".toList)] ∧
      sources' = [(⟨[97]⟩,
          "libinput:name:x\n LIBINPUT_ATTR_SIZE_HINT=0x5\n F= \n F=   #\t#b=1\n".toList),
        (⟨[98]⟩, "libinput:name:y\n B=1   # =#\r\nlibinput:name:z".toList)] ∧
      List.Forall₂ (fun s s' => s.1 = s'.1 ∧ s.2.AgreesWith s'.2) sources sources' ∧
      ((ofTexts sources).finish.files = (ofTexts sources').finish.files ∧
        (ofTexts sources).finish.issues = (ofTexts sources').finish.issues ∧
        (ofTexts sources).finish.json = (ofTexts sources').finish.json) ∧
      (ofTexts sources').finish.files
        = [⟨⟨⟨[97]⟩, 1, 1, 3⟩, none⟩,
          ⟨⟨⟨[98]⟩, 0, 0, 0⟩,
            some (.structural ⟨[98]⟩ ⟨3, .missingSeparator "libinput:name:z".toList, 0⟩)⟩] ∧
      (ofTexts sources').finish.issues
        = [.invalidDimension ⟨⟨[97]⟩, 2⟩ "LIBINPUT_ATTR_SIZE_HINT".toList ⟨0, 5⟩,
          .unknownProperty ⟨⟨[97]⟩, 3⟩ "F=".toList, .repeatedTag ⟨⟨[97]⟩, 4⟩ "F".toList,
          .unknownProperty ⟨⟨[97]⟩, 4⟩ "F=".toList] := by
  refine ⟨_, _, rfl, rfl, ?_, finish_eq_of_agreesWith ?_, ?_, ?_⟩ <;> decide +kernel

end Hwdb
