import Hwdb.Document
import Hwdb.Proofs.Json
import Hwdb.Proofs.Steps

/-!
# `Hwdb.Proofs.Document`: a report and its document

A document is there exactly if every path that it would show is a text
(`Report.exists_json_iff`). Then it shows everything: a type is `Faithful` when two of its
values with the same document are equal, and the types of a report are, from the paths up
to the report (`Report.faithful_document`). Together with `Json.text_injective`, which tells
documents from their written forms, this makes the report the only one that could have been
written like that (`Report.json_determines`).
-/

set_option autoImplicit false

namespace Hwdb

/-- Different values have different documents. -/
def Faithful {α : Type} (document : α → Except DocumentError Json) : Prop :=
  ∀ ⦃a b : α⦄ ⦃j : Json⦄, document a = .ok j → document b = .ok j → a = b

/-- Lists with one list of documents are one list, if that is so for their elements. The
documents of a list stand in its order, so the elements are told one by one. -/
theorem Faithful.mapM {α : Type} {document : α → Except DocumentError Json}
    (h : Faithful document) {as bs : List α} {js : List Json}
    (has : as.mapM document = .ok js) (hbs : bs.mapM document = .ok js) : as = bs := by
  rw [Except.mapM_eq_ok_iff] at has hbs
  induction has generalizing bs with
  | nil =>
      cases hbs
      rfl
  | cons ha _ ih =>
      cases hbs with
      | cons hb hbs => rw [h ha hb, ih hbs]

/-- What may be absent is told from what is there if that has never the null value, which is
how the absent one is written. -/
theorem Faithful.option {α : Type} {document : α → Except DocumentError Json}
    (h : Faithful document) (hnull : ∀ a, document a ≠ .ok .null) :
    Faithful (documentOfOption document) := by
  intro a b j ha hb
  -- An absent value and a present one cannot meet: the absent one is null.
  cases a with
  | none =>
      cases b with
      | none => rfl
      | some b =>
          cases ha
          exact absurd hb (hnull b)
  | some a =>
      cases b with
      | none =>
          cases hb
          exact absurd ha (hnull a)
      | some b => rw [h ha hb]

/-! ### The parts of a report -/

/-- A path has a document if it is a text, which the document shows. A path with other bytes
has none, and there is nothing in its place. -/
theorem Path.document_eq_ok_iff {p : Path} {j : Json} :
    p.document = .ok j ↔ ∃ t, p.text? = some t ∧ j = .string t := by
  unfold Path.document
  cases p.text? with
  | none => simp
  | some t => simp [eq_comm]

/-- Paths with one document are one path: the text that is shown has the bytes of the path.
Nothing is replaced in it, since only a text is shown at all. -/
theorem Path.faithful_document : Faithful Path.document := by
  intro p q j hp hq
  obtain ⟨t, ht, rfl⟩ := Path.document_eq_ok_iff.1 hp
  obtain ⟨u, hu, heq⟩ := Path.document_eq_ok_iff.1 hq
  obtain rfl : t = u := Json.string.inj heq
  have hbytes := (Utf8.utf8_of_text?_eq_some ht).symm.trans (Utf8.utf8_of_text?_eq_some hu)
  cases p
  cases q
  exact congrArg Path.mk hbytes

/-- A dimension can be told from its document, as both sides are in it. -/
theorem Dimension.document_injective : Function.Injective Dimension.document := by
  intro d e h
  have h : d.width = e.width ∧ d.height = e.height := by
    simpa [Dimension.document, Json.ofMembers, UInt32.toNat_inj] using h
  cases d
  cases e
  simpa using h

/-- The kind of a fault is in its document, and so is what it quotes. A fault that quotes
nothing is shown as its kind alone. -/
theorem Fault.document_injective : Function.Injective Fault.document := by
  intro f g h
  cases f <;> cases g <;> simp_all [Fault.document, Json.ofMembers, Json.word]

/-- A structural error can be told from its document: its line, its fault and the number of
complete records. -/
theorem StructuralError.document_injective : Function.Injective StructuralError.document := by
  intro d e h
  have h : d.line = e.line ∧ d.fault = e.fault ∧ d.completeRecords = e.completeRecords := by
    simpa [StructuralError.document, Json.ofMembers, Fault.document_injective.eq_iff] using h
  cases d
  cases e
  simpa using h

/-- The name of the kind of an issue. -/
def Issue.kind : Issue → String
  | structural _ _ => "structural"
  | unreadable _ _ => "unreadable"
  | unknownProperty _ _ => "property_parse"
  | repeatedTag _ _ => "duplicate_property"
  | repeatedKey _ _ _ => "duplicate_match"
  | invalidDimension _ _ _ => "invalid_dimension"

/-- The document of an issue begins with its kind. No other member has to be looked at to
tell what the rest of the document means. -/
theorem Issue.exists_of_document_eq_ok {i : Issue} {j : Json} (h : i.document = .ok j) :
    ∃ members, j = .object (("kind".toList, .word i.kind) :: members) := by
  -- A repeated key has two paths to show, any other issue one.
  cases i with
  | repeatedKey key site first =>
      obtain ⟨_, -, h⟩ := Except.bind_eq_ok_iff.1 h
      obtain ⟨_, -, h⟩ := Except.bind_eq_ok_iff.1 h
      cases h
      exact ⟨_, rfl⟩
  | _ =>
      obtain ⟨_, -, h⟩ := Except.bind_eq_ok_iff.1 h
      cases h
      exact ⟨_, rfl⟩

/-- Issues with one document are of one kind, so in `Issue.faithful_document` only issues of
the same kind have to be compared. -/
theorem Issue.kind_eq_of_document_eq {i k : Issue} {j : Json} (hi : i.document = .ok j)
    (hk : k.document = .ok j) : i.kind = k.kind := by
  obtain ⟨_, rfl⟩ := Issue.exists_of_document_eq_ok hi
  obtain ⟨_, heq⟩ := Issue.exists_of_document_eq_ok hk
  have hword : i.kind.toList = k.kind.toList := by
    simp only [Json.word, Json.object.injEq, List.cons.injEq, Prod.mk.injEq,
      Json.string.injEq] at heq
    exact heq.1.2
  exact String.toList_injective hword

/-- A site is its path and its line, which the document of an issue shows as two members.
Those members stand apart, and with this lemma they are put together again. -/
theorem Site.eq_of_document_eq {s s' : Site} {j : Json} (hs : s.path.document = .ok j)
    (hs' : s'.path.document = .ok j) (hline : s'.line = s.line) : s = s' := by
  have hpath := Path.faithful_document hs hs'
  cases s
  cases s'
  cases hpath
  cases hline
  rfl

/-- Issues with one document are one issue. The kind comes first; then each part of the
issues is read off the member that shows it. -/
theorem Issue.faithful_document : Faithful Issue.document := by
  intro i k j hi hk
  -- Two issues of different kinds have different documents, so the kinds are compared first.
  have hkind := Issue.kind_eq_of_document_eq hi hk
  cases i with
  | structural path e =>
      cases k with
      | structural path' e' =>
          obtain ⟨p, hp, hi⟩ := Except.bind_eq_ok_iff.1 hi
          obtain ⟨p', hp', hk⟩ := Except.bind_eq_ok_iff.1 hk
          cases hi
          obtain ⟨rfl, he⟩ : p' = p ∧ e'.document = e.document := by
            simpa [Json.ofMembers] using Except.ok.inj hk
          rw [Path.faithful_document hp hp', StructuralError.document_injective he]
      | _ => simp [Issue.kind] at hkind
  | unreadable path reason =>
      cases k with
      | unreadable path' reason' =>
          obtain ⟨p, hp, hi⟩ := Except.bind_eq_ok_iff.1 hi
          obtain ⟨p', hp', hk⟩ := Except.bind_eq_ok_iff.1 hk
          cases hi
          obtain ⟨rfl, rfl⟩ : p' = p ∧ reason' = reason := by
            simpa [Json.ofMembers] using Except.ok.inj hk
          rw [Path.faithful_document hp hp']
      | _ => simp [Issue.kind] at hkind
  | unknownProperty site text =>
      cases k with
      | unknownProperty site' text' =>
          obtain ⟨p, hp, hi⟩ := Except.bind_eq_ok_iff.1 hi
          obtain ⟨p', hp', hk⟩ := Except.bind_eq_ok_iff.1 hk
          cases hi
          obtain ⟨rfl, hline, rfl⟩ : p' = p ∧ site'.line = site.line ∧ text' = text := by
            simpa [Json.ofMembers] using Except.ok.inj hk
          rw [Site.eq_of_document_eq hp hp' hline]
      | _ => simp [Issue.kind] at hkind
  | repeatedTag site tag =>
      cases k with
      | repeatedTag site' tag' =>
          obtain ⟨p, hp, hi⟩ := Except.bind_eq_ok_iff.1 hi
          obtain ⟨p', hp', hk⟩ := Except.bind_eq_ok_iff.1 hk
          cases hi
          obtain ⟨rfl, hline, rfl⟩ : p' = p ∧ site'.line = site.line ∧ tag' = tag := by
            simpa [Json.ofMembers] using Except.ok.inj hk
          rw [Site.eq_of_document_eq hp hp' hline]
      | _ => simp [Issue.kind] at hkind
  | repeatedKey key site first =>
      cases k with
      | repeatedKey key' site' first' =>
          obtain ⟨p, hp, hi⟩ := Except.bind_eq_ok_iff.1 hi
          obtain ⟨q, hq, hi⟩ := Except.bind_eq_ok_iff.1 hi
          obtain ⟨p', hp', hk⟩ := Except.bind_eq_ok_iff.1 hk
          obtain ⟨q', hq', hk⟩ := Except.bind_eq_ok_iff.1 hk
          cases hi
          obtain ⟨rfl, rfl, hsite, rfl, hfirst⟩ : key' = key ∧ p' = p ∧
              site'.line = site.line ∧ q' = q ∧ first'.line = first.line := by
            simpa [Json.ofMembers] using Except.ok.inj hk
          rw [Site.eq_of_document_eq hp hp' hsite, Site.eq_of_document_eq hq hq' hfirst]
      | _ => simp [Issue.kind] at hkind
  | invalidDimension site tag dimension =>
      cases k with
      | invalidDimension site' tag' dimension' =>
          obtain ⟨p, hp, hi⟩ := Except.bind_eq_ok_iff.1 hi
          obtain ⟨p', hp', hk⟩ := Except.bind_eq_ok_iff.1 hk
          cases hi
          obtain ⟨rfl, hline, rfl, hdimension⟩ : p' = p ∧ site'.line = site.line ∧
              tag' = tag ∧ dimension'.document = dimension.document := by
            simpa [Json.ofMembers] using Except.ok.inj hk
          rw [Site.eq_of_document_eq hp hp' hline, Dimension.document_injective hdimension]
      | _ => simp [Issue.kind] at hkind

/-- Summaries with one document are one summary. Its path and its three counts are members
of their own. -/
theorem FileSummary.faithful_document : Faithful FileSummary.document := by
  intro s s' j hs hs'
  obtain ⟨p, hp, hs⟩ := Except.bind_eq_ok_iff.1 hs
  obtain ⟨p', hp', hs'⟩ := Except.bind_eq_ok_iff.1 hs'
  cases hs
  obtain ⟨rfl, hrecords, hkeys, hproperties⟩ : p' = p ∧ s'.records = s.records ∧
      s'.keys = s.keys ∧ s'.properties = s.properties := by
    simpa [Json.ofMembers] using Except.ok.inj hs'
  have hpath := Path.faithful_document hp hp'
  cases s
  cases s'
  simp_all

/-- The document of an issue is an object, and so is told from that of an absent issue. -/
theorem Issue.document_ne_null (i : Issue) : i.document ≠ .ok .null := by
  intro h
  obtain ⟨_, heq⟩ := Issue.exists_of_document_eq_ok h
  cases heq

/-- Reports of files with one document are one report: the summary, and the error or that
there is none. An absent error is null, and no issue is. -/
theorem FileReport.faithful_document : Faithful FileReport.document := by
  intro r r' j hr hr'
  obtain ⟨s, hs, hr⟩ := Except.bind_eq_ok_iff.1 hr
  obtain ⟨e, he, hr⟩ := Except.bind_eq_ok_iff.1 hr
  obtain ⟨s', hs', hr'⟩ := Except.bind_eq_ok_iff.1 hr'
  obtain ⟨e', he', hr'⟩ := Except.bind_eq_ok_iff.1 hr'
  cases hr
  obtain ⟨rfl, rfl⟩ : s' = s ∧ e' = e := by
    simpa [Json.ofMembers] using Except.ok.inj hr'
  -- Each member is faithful by itself, and the two are all that a report of a file has.
  have hsummary := FileSummary.faithful_document hs hs'
  have herror := Issue.faithful_document.option Issue.document_ne_null he he'
  cases r
  cases r'
  simp_all

/-- Reports with one document are one report. It remains to tell a document from its written
form, which `Json.text_injective` does. -/
theorem Report.faithful_document : Faithful Report.document := by
  intro r r' j hr hr'
  obtain ⟨fs, hfs, hr⟩ := Except.bind_eq_ok_iff.1 hr
  obtain ⟨is, his, hr⟩ := Except.bind_eq_ok_iff.1 hr
  obtain ⟨fs', hfs', hr'⟩ := Except.bind_eq_ok_iff.1 hr'
  obtain ⟨is', his', hr'⟩ := Except.bind_eq_ok_iff.1 hr'
  cases hr
  obtain ⟨rfl, rfl⟩ : fs' = fs ∧ is' = is := by
    simpa [Json.ofMembers] using Except.ok.inj hr'
  have hfiles := FileReport.faithful_document.mapM hfs hfs'
  have hissues := Issue.faithful_document.mapM his his'
  cases r
  cases r'
  simp_all

/-! ### Which documents there are -/

/-- The paths that an issue names. -/
def Issue.paths : Issue → List Path
  | structural path _ => [path]
  | unreadable path _ => [path]
  | unknownProperty site _ => [site.path]
  | repeatedTag site _ => [site.path]
  | repeatedKey _ site first => [site.path, first.path]
  | invalidDimension site _ _ => [site.path]

/-- The paths that a report of a file names. -/
def FileReport.paths (r : FileReport) : List Path :=
  r.summary.path :: r.error.toList.flatMap Issue.paths

/-- The paths that a report names. -/
def Report.paths (r : Report) : List Path :=
  r.files.flatMap FileReport.paths ++ r.issues.flatMap Issue.paths

/-- A path has a document exactly if it is a text. This is the only way in which the writing
of a document can fail. -/
theorem Path.exists_document_iff {p : Path} :
    (∃ j, p.document = .ok j) ↔ p.text? ≠ none := by
  unfold Path.document
  cases p.text? <;> simp

/-- An issue has a document exactly if the paths that it names are texts. Nothing else in it
can be in the way. -/
theorem Issue.exists_document_iff {i : Issue} :
    (∃ j, i.document = .ok j) ↔ ∀ p ∈ i.paths, p.text? ≠ none := by
  cases i with
  | repeatedKey key site first =>
      rw [Issue.document, Except.exists_bind_eq_ok_iff fun _ =>
        Except.exists_bind_eq_ok_iff fun _ => Except.exists_pure_eq_ok _]
      simp [Path.exists_document_iff, Issue.paths]
  | _ =>
      rw [Issue.document, Except.exists_bind_eq_ok_iff fun _ => Except.exists_pure_eq_ok _]
      simp [Path.exists_document_iff, Issue.paths]

/-- A summary has a document exactly if its path is a text. Its counts always have one. -/
theorem FileSummary.exists_document_iff {s : FileSummary} :
    (∃ j, s.document = .ok j) ↔ s.path.text? ≠ none := by
  rw [FileSummary.document, Except.exists_bind_eq_ok_iff fun _ => Except.exists_pure_eq_ok _,
    and_true, Path.exists_document_iff]

/-- The report of a file has a document exactly if the paths in it are texts, that of its
summary and those of its error. -/
theorem FileReport.exists_document_iff {r : FileReport} :
    (∃ j, r.document = .ok j) ↔ ∀ p ∈ r.paths, p.text? ≠ none := by
  rw [FileReport.document, Except.exists_bind_eq_ok_iff fun _ =>
    Except.exists_bind_eq_ok_iff fun _ => Except.exists_pure_eq_ok _,
    FileSummary.exists_document_iff, FileReport.paths, List.forall_mem_cons]
  cases r.error with
  | none => simp [documentOfOption]
  | some i => simp [documentOfOption, Issue.exists_document_iff]

/-- A report has a document exactly if all paths in it are texts: one that is none is enough
for there to be no document at all. -/
theorem Report.exists_document_iff {r : Report} :
    (∃ j, r.document = .ok j) ↔ ∀ p ∈ r.paths, p.text? ≠ none := by
  rw [Report.document, Except.exists_bind_eq_ok_iff fun _ =>
    Except.exists_bind_eq_ok_iff fun _ => Except.exists_pure_eq_ok _,
    Except.exists_mapM_eq_ok_iff, Except.exists_mapM_eq_ok_iff]
  simp only [FileReport.exists_document_iff, Issue.exists_document_iff, Report.paths,
    List.forall_mem_append, List.forall_mem_flatMap, and_true]

/-- The written document of a report is there exactly if all paths in it are texts. Writing
a document as text never fails. -/
theorem Report.exists_json_iff {r : Report} :
    (∃ t, r.json = .ok t) ↔ ∀ p ∈ r.paths, p.text? ≠ none := by
  rw [← Report.exists_document_iff, Report.json]
  cases r.document <;> simp [Except.map]

/-- Reports with one written document are one report. It is what `Json.text_injective` and
`Report.faithful_document` come to. -/
theorem Report.eq_of_json_eq_ok {r s : Report} {t : Text} (hr : r.json = .ok t)
    (hs : s.json = .ok t) : r = s := by
  unfold Report.json at hr hs
  -- A report without a document is not written, so both have one, and these are the same.
  cases hrdoc : r.document with
  | error e =>
      rw [hrdoc] at hr
      cases hr
  | ok j =>
      cases hsdoc : s.document with
      | error e =>
          rw [hsdoc] at hs
          cases hs
      | ok k =>
          rw [hrdoc] at hr
          rw [hsdoc] at hs
          have htext : j.text = k.text := Except.ok.inj (hr.trans hs.symm)
          obtain rfl := Json.text_injective htext
          exact Report.faithful_document hrdoc hsdoc

/-- A report has a written document exactly if its paths are texts, and then no other report
is written like that: its files, what was found in each of them, and all its issues can be
told from the document. -/
theorem Report.json_determines (r : Report) :
    ((∃ t, r.json = .ok t) ↔ ∀ p ∈ r.paths, p.text? ≠ none) ∧
      ∀ t, r.json = .ok t → ∀ s : Report, s.json = .ok t ↔ s = r := by
  refine ⟨Report.exists_json_iff, fun t ht s => ⟨fun hs => Report.eq_of_json_eq_ok hs ht, ?_⟩⟩
  rintro rfl
  exact ht

/-- The text of one issue looks like the end of it and the beginning of another. But for the
backslashes the two reports would be written alike. -/
theorem Report.json_determines_quotes :
    ∃ r s : Report,
      r = ⟨[], [.unreadable ⟨[97]⟩ ("x\"\n    \x7d,\n    \x7b\n      \"kind\": " ++
        "\"unreadable\",\n      \"path\": \"a\",\n      \"message\": \"y").toList]⟩ ∧
      s = ⟨[], [.unreadable ⟨[97]⟩ ['x'], .unreadable ⟨[97]⟩ ['y']]⟩ ∧
      ∃ t, r.json = .ok t ∧ s.json ≠ .ok t := by
  refine ⟨_, _, rfl, rfl, Exists.imp (fun t ht => ⟨ht, fun hs => ?_⟩)
    ((json_determines _).1.2 ?_)⟩
  · exact absurd (((json_determines _).2 t ht _).1 hs) (by decide)
  · intro p hp
    have htext : (⟨[97]⟩ : Path).text? = some ['a'] := Utf8.text?_utf8 ['a']
    rw [List.mem_singleton.1 hp, htext]
    exact Option.some_ne_none _

end Hwdb
