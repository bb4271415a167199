import Hwdb.Proofs.Assembly
import Hwdb.Proofs.Line
import Hwdb.Proofs.Lines

/-!
# `Hwdb.Proofs.FirstFault`: the reported fault is the first one

Whatever lines have been taken without a fault, one property at most is missing for a file
that can be read (`exists_parse_of_accepts`). So a fault is reported no later than at the
line that makes it. And whatever lines follow a fault, they change nothing about it
(`parse_eq_of_take_isPrefix`), so it is reported no earlier either. `parse_error_first` has
both, and sets apart the file that breaks off too early, which more lines would have
mended.
-/

set_option autoImplicit false

namespace Hwdb

open Layout (AcceptsTexts fault? endFault?)

namespace Layout

/-- The only fault at the end of a file is a missing property. There are match keys then,
and one property would be enough. -/
theorem eq_missingProperties_of_endFault? {b : List (Numbered Line)} {f : Fault}
    (h : endFault? b = some f) :
    f = .missingProperties ∧ keys b ≠ [] ∧ properties b = [] := by
  unfold endFault? at h
  split at h
  · next hb =>
      cases h
      exact ⟨rfl, hb⟩
  · cases h

/-- Before the end of a file only a blank line is blamed for a missing property. So a
missing property on a line that is not blank was found at the end of the file. -/
theorem eq_blank_of_fault?_eq_missingProperties {b : List (Numbered Line)} {l : Line}
    (h : fault? b l = some .missingProperties) : l = .blank := by
  cases l with
  | blank => rfl
  | comment => cases h
  | unknown t => cases h
  | _ =>
      rw [fault?] at h
      split at h <;> cases h

end Layout

/-- A line that may be added to any record. -/
def Property.sampleLine : Text :=
  " A=1".toList

/-- The sample line is a property. It has a tag and a value of one character each, and no
comment. -/
theorem Property.ofText_sampleLine :
    Line.ofText sampleLine = .property ⟨['A'], ['1'], none⟩ :=
  Line.ofText_eq_property_iff.2 ⟨rfl, by decide⟩

/-- The sample line is one line. It has no line feed, and is not empty. -/
theorem Property.lines_sampleLine : sampleLine.lines = [sampleLine] := by
  have hno : '\n' ∉ sampleLine := by decide
  rw [Text.lines_of_not_mem hno]
  rfl

namespace Record

/-- One more property makes a file of any lines that have no fault and a match key in the
block in hand. The value of the property does not matter, so one sample is enough. -/
theorem exists_parse_append_sampleLine {path : Path} {t : Text} (ht : t.Ended)
    (h : AcceptsTexts t.lines) (hkeys : Layout.keys (Layout.ofTexts t.lines).current ≠ []) :
    ∃ rs, Record.parse path (t ++ Property.sampleLine) = .ok rs := by
  have hlines : (t ++ Property.sampleLine).lines = t.lines ++ [Property.sampleLine] := by
    rw [Text.lines_append ht, Property.lines_sampleLine]
  have hfault : fault? (Layout.ofTexts t.lines).current (Line.ofText Property.sampleLine)
      = none := by
    rw [Property.ofText_sampleLine]
    exact if_neg hkeys
  -- With the sample in it, the block in hand has a property.
  have hend : endFault? (Layout.ofTexts (t.lines ++ [Property.sampleLine])).current
      = none := by
    rw [Layout.ofTexts_concat, Property.ofText_sampleLine, Layout.add_of_ne (by simp)]
    refine if_neg fun hmissing => ?_
    have hproperties := hmissing.2
    rw [Layout.properties_concat, List.append_eq_nil_iff] at hproperties
    cases hproperties.2
  refine ⟨_, parse_of_accepts ?_ ?_⟩
  · rw [hlines]
    exact Layout.acceptsTexts_concat.2 ⟨h, hfault⟩
  · rw [hlines]
    exact hend

/-- After any lines without a fault, a file can be read if it ends there or after one more
property. Which of the two it is depends on whether the block in hand has match keys without
a property. -/
theorem exists_parse_of_accepts {path : Path} {t : Text} (ht : t.Ended)
    (h : AcceptsTexts t.lines) :
    ∃ rs, Record.parse path t = .ok rs
      ∨ Record.parse path (t ++ Property.sampleLine) = .ok rs := by
  cases hend : endFault? (Layout.ofTexts t.lines).current with
  | none => exact ⟨_, Or.inl (parse_of_accepts h hend)⟩
  | some f =>
      obtain ⟨-, hkeys, -⟩ := Layout.eq_missingProperties_of_endFault? hend
      obtain ⟨rs, hrs⟩ := exists_parse_append_sampleLine ht h hkeys
      exact ⟨rs, Or.inr hrs⟩

/-- The last line of a block that wants a property is a comment or a match key. Of these a
carriage return may be taken, as `Line.ofText_dropReturn` says. -/
theorem lastLine_of_properties_eq_nil {ls : List Text} {l : Text}
    (hfault : fault? (Layout.ofTexts ls).current (Line.ofText l) = none)
    (hkeys : Layout.keys (Layout.ofTexts (ls ++ [l])).current ≠ [])
    (hproperties : Layout.properties (Layout.ofTexts (ls ++ [l])).current = []) :
    Line.ofText l = .comment ∨ Line.ofText l = .indentedComment
      ∨ ∃ k, Line.ofText l = .key k := by
  rw [Layout.ofTexts_concat] at hkeys hproperties
  -- A blank line would have ended the block, a property would be the one it wants, and the
  -- other kinds have a fault.
  cases hitem : Line.ofText l with
  | comment => exact Or.inl rfl
  | indentedComment => exact Or.inr (Or.inl rfl)
  | key k => exact Or.inr (Or.inr ⟨k, rfl⟩)
  | blank =>
      rw [hitem, Layout.add_blank rfl] at hkeys
      exact absurd rfl hkeys
  | property p =>
      rw [hitem, Layout.add_of_ne (by simp), Layout.properties_concat] at hproperties
      cases (List.append_eq_nil_iff.1 hproperties).2
  | malformedProperty t =>
      rw [hitem, fault?] at hfault
      split at hfault <;> cases hfault
  | unknown t =>
      rw [hitem] at hfault
      cases hfault

/-- A line feed after such a last line changes nothing about the layout, although it may
turn a carriage return of the line into a part of its ending. -/
theorem layout_endLine {t : Text} {ls : List Text} {l : Text} (hlines : t.lines = ls ++ [l])
    (hkind : Line.ofText l = .comment ∨ Line.ofText l = .indentedComment
      ∨ ∃ k, Line.ofText l = .key k) :
    Layout.ofTexts t.endLine.lines = Layout.ofTexts t.lines ∧
      (AcceptsTexts t.endLine.lines ↔ AcceptsTexts t.lines) := by
  have ht : t ≠ [] := by
    intro hnil
    rw [hnil] at hlines
    exact absurd hlines.symm (by simp)
  rcases Text.lines_endLine ht with heq | ⟨ls', l', hlines', hend'⟩
  · rw [heq]
    exact ⟨rfl, Iff.rfl⟩
  · -- The last line may lose a carriage return, but it keeps its kind.
    rw [hlines] at hlines'
    obtain ⟨rfl, hl⟩ := List.append_inj' hlines' rfl
    cases hl
    rw [hend', hlines, Layout.acceptsTexts_concat, Layout.acceptsTexts_concat,
      Layout.ofTexts_concat, Layout.ofTexts_concat, Line.ofText_dropReturn hkind]
    exact ⟨rfl, Iff.rfl⟩

/-- A file that ends too early does not end with a blank line, and one property on a line
of its own is all that it lacks. -/
theorem exists_parse_of_endFault (path : Path) {t : Text} {f : Fault}
    (h : AcceptsTexts t.lines)
    (hend : endFault? (Layout.ofTexts t.lines).current = some f) :
    (∃ ls l, t.lines = ls ++ [l] ∧ l ≠ []) ∧
      ∃ rs, Record.parse path (t.endLine ++ Property.sampleLine) = .ok rs := by
  obtain ⟨-, hkeys, hproperties⟩ := Layout.eq_missingProperties_of_endFault? hend
  obtain ⟨ls, l, hlines⟩ : ∃ ls l, t.lines = ls ++ [l] := by
    rcases List.eq_nil_or_concat' t.lines with hnil | ⟨ls, l, hlines⟩
    · rw [hnil] at hkeys
      exact absurd rfl hkeys
    · exact ⟨ls, l, hlines⟩
  have hfault : fault? (Layout.ofTexts ls).current (Line.ofText l) = none := by
    rw [hlines] at h
    exact (Layout.acceptsTexts_concat.1 h).2
  -- The last line is no property, so its line feed can be added without harm.
  have hkind := lastLine_of_properties_eq_nil hfault (hlines ▸ hkeys) (hlines ▸ hproperties)
  obtain ⟨hlayout, haccepts⟩ := layout_endLine hlines hkind
  refine ⟨⟨ls, l, hlines, fun hnil => ?_⟩, ?_⟩
  · rw [hnil] at hkind
    rcases hkind with hkind | hkind | ⟨k, hkind⟩ <;> cases hkind
  · refine exists_parse_append_sampleLine (Text.ended_endLine t) (haccepts.2 h) ?_
    rwa [hlayout]

/-- A fault in the lines of a text is the fault of every text that begins with them. The
lines behind the fault are not read, and those before it have to be the same. -/
theorem parse_eq_of_take_isPrefix {path : Path} {t u : Text} {before after : List Text} {s : Text}
    {f : Fault} (hlines : t.lines = before ++ s :: after) (h : AcceptsTexts before)
    (hfault : fault? (Layout.ofTexts before).current (Line.ofText s) = some f)
    (hbegins : t.lines.take (before.length + 1) <+: u.lines) :
    Record.parse path u = Record.parse path t := by
  have htake : t.lines.take (before.length + 1) = before ++ [s] := by
    rw [hlines, List.take_length_add_append]
    rfl
  obtain ⟨after', hafter'⟩ := hbegins
  rw [htake, List.append_assoc, List.singleton_append] at hafter'
  rw [parse_of_fault hlines h hfault, parse_of_fault hafter'.symm h hfault]

/-- The reported fault is the first one. Either the file breaks off, and a property on one
more line would mend it. Or the part before the line of the fault can be read, perhaps
after one more property, while nothing that comes after the line of the fault can mend
it. -/
theorem parse_error_first {path : Path} {t : Text} {e : StructuralError}
    (h : Record.parse path t = .error e) :
    1 ≤ e.line ∧ e.line ≤ t.lines.length ∧
      if e.fault = .missingProperties ∧ t.lines[e.line - 1]? ≠ some [] then
        e.line = t.lines.length ∧
          ∃ rs, Record.parse path (t.endLine ++ " A=1".toList) = .ok rs
      else
        (∃ rs, Record.parse path (t.firstLines (e.line - 1)) = .ok rs ∨
          Record.parse path (t.firstLines (e.line - 1) ++ " A=1".toList) = .ok rs) ∧
        ∀ u : Text, t.lines.take e.line <+: u.lines → Record.parse path u = .error e := by
  rcases parse_cases path t with ⟨-, -, hparse⟩ | ⟨f, haccepts, hend, hparse⟩
    | ⟨before, s, after, f, hlines, haccepts, hfault, hparse⟩
  · rw [hparse] at h
    cases h
  · -- The file breaks off: no line has a fault, but it may not end here.
    obtain ⟨⟨ls, l, hlines, hne⟩, hmend⟩ :=
      exists_parse_of_endFault path haccepts hend
    obtain ⟨hf, -, -⟩ := Layout.eq_missingProperties_of_endFault? hend
    rw [hparse] at h
    cases h
    have hlength : t.lines.length = ls.length + 1 := by
      rw [hlines, List.length_append, List.length_singleton]
    have hlast : t.lines[t.lines.length - 1]? = some l := by
      rw [hlength, hlines]
      simp
    have hline : 1 ≤ t.lines.length := by omega
    refine ⟨hline, Nat.le_refl _, ?_⟩
    rw [if_pos ⟨hf, by rw [hlast]; simpa using hne⟩]
    exact ⟨rfl, hmend⟩
  · -- The line `s` has a fault, and the lines before it have none.
    rw [hparse] at h
    cases h
    have hlength : before.length < t.lines.length := by
      rw [hlines, List.length_append, List.length_cons]
      omega
    have hfirst : t.lines[before.length]? = some s := by
      rw [hlines]
      simp
    have hlinesBefore : (t.firstLines before.length).lines = before := by
      rw [Text.lines_firstLines, hlines, List.take_left']
      rfl
    refine ⟨Nat.le_add_left _ _, hlength, ?_⟩
    rw [if_neg ?_]
    · refine ⟨?_, fun u hbegins => ?_⟩
      · refine exists_parse_of_accepts (Text.ended_firstLines hlength) ?_
        rw [Nat.add_sub_cancel, hlinesBefore]
        exact haccepts
      · rw [parse_eq_of_take_isPrefix hlines haccepts hfault hbegins, hparse]
    · -- Were it a missing property, the line would be blank.
      rintro ⟨hf, hs⟩
      have hmissing : f = .missingProperties := hf
      rw [hmissing] at hfault
      have hblank := Layout.eq_blank_of_fault?_eq_missingProperties hfault
      refine hs ?_
      rw [Nat.add_sub_cancel, hfirst, Line.ofText_eq_blank_iff.1 hblank]

/-- A property after a block of comments is a fault on its own line, and what stands before
it can be read. -/
theorem parse_error_first_after_comments :
    Record.parse ⟨[]⟩ "#\n\n A=1\n".toList = .error ⟨3, .propertyBeforeKey, 0⟩ ∧
      ∃ rs, Record.parse ⟨[]⟩ (Text.firstLines 2 "#\n\n A=1\n".toList) = .ok rs ∨
        Record.parse ⟨[]⟩ (Text.firstLines 2 "#\n\n A=1\n".toList ++ " A=1".toList)
          = .ok rs := by
  have h : Record.parse ⟨[]⟩ "#\n\n A=1\n".toList = .error ⟨3, .propertyBeforeKey, 0⟩ := by
    have hlines : Text.lines "#\n\n A=1\n".toList = [['#'], []] ++ [Property.sampleLine] := by
      decide
    have haccepts : AcceptsTexts [['#'], []] := ⟨rfl, rfl, trivial⟩
    refine parse_of_fault hlines haccepts ?_
    rw [Property.ofText_sampleLine]
    rfl
  have hfirst := (parse_error_first h).2.2
  rw [if_neg fun hmissing => by cases hmissing.1] at hfirst
  exact ⟨h, hfirst.1⟩

end Record

end Hwdb
