import Hwdb.Proofs.Line
import Hwdb.Proofs.Lines
import Hwdb.Proofs.Relabelling

/-!
# `Hwdb.Proofs.Concatenation`: one file after the other

A blank line in between makes two files one (`Text.separated`). With all lines of a file
that can be read, and with that blank line, an assembly is a new one again, except for the
records that it has closed (`Assembly.feedLines_separated`). So the second file is read as if
it were alone, with its line numbers moved on (`Record.parse_separated_append`).
-/

set_option autoImplicit false

namespace Hwdb

open Layout (Orderly AcceptsTexts endFault? fault?)

/-! ### The line in between -/

namespace Text

/-- The text with a blank line after it, unless its last line is blank or it is empty. -/
def separated (t : Text) : Text :=
  if t = [] ∨ t.lines.getLast? = some [] then t else t ++ ['\n']

/-- A text that is empty or ends with a blank line separates itself from what follows. One
more blank line would be unexpected there. -/
theorem separated_of_blank {t : Text} (h : t = [] ∨ t.lines.getLast? = some []) :
    t.separated = t :=
  if_pos h

/-- Any other text gets a blank line. Without one, its last record would go on in what
follows. -/
theorem separated_of_not_blank {t : Text} (h : ¬ (t = [] ∨ t.lines.getLast? = some [])) :
    t.separated = t ++ ['\n'] :=
  if_neg h

/-- An ended text is still ended with the blank line behind it. So what follows it begins on
a line of its own. -/
theorem Ended.separated {t : Text} (ht : t.Ended) : t.separated.Ended := by
  by_cases hblank : t = [] ∨ t.lines.getLast? = some []
  · rwa [separated_of_blank hblank]
  · rw [separated_of_not_blank hblank]
    exact Or.inr List.getLast?_concat

/-- Only the empty text has no line: a text of one line feed has an empty one. -/
theorem lines_eq_nil_iff {t : Text} : t.lines = [] ↔ t = [] := by
  refine ⟨fun h => ?_, fun h => h ▸ rfl⟩
  induction t using lineInduction with
  | last l hl =>
      by_contra hne
      rw [lines_of_not_mem hl, if_neg hne] at h
      cases h
  | cons l t hl _ =>
      rw [lines_append_lineFeed t hl] at h
      cases h

end Text

namespace Layout

/-- The block in hand has no line exactly if there is no line at all or the last one is
blank. These are the texts that need no blank line after them. -/
theorem current_ofTexts_eq_nil_iff {ts : List Text} :
    (ofTexts ts).current = [] ↔ ts = [] ∨ ts.getLast? = some [] := by
  rcases List.eq_nil_or_concat' ts with rfl | ⟨ts, t, rfl⟩
  · exact iff_of_true rfl (Or.inl rfl)
  · rw [ofTexts_concat, List.getLast?_concat, Option.some_inj]
    by_cases hblank : Line.ofText t = .blank
    · rw [add_blank hblank]
      exact iff_of_true rfl (Or.inr (Line.ofText_eq_blank_iff.1 hblank))
    · rw [add_of_ne hblank]
      simp [← Line.ofText_eq_blank_iff, hblank]

/-- A blank line at the end of a file changes nothing about its records, as an empty block
gives none. The block that it ends gives the record that it would have given at the end. -/
theorem records_add_blank {path : Path} {y : Layout} {l : Numbered Line}
    (h : l.item = .blank) : (y.add l).records path = y.records path := by
  rw [add_blank h, records, records, blocks, blocks, List.filterMap_append]
  exact List.append_nil _

end Layout

namespace Record

/-- Separated from what follows, the lines of a file that can be read may all stand where they
stand. They leave no line in hand, and the records are those of the file. -/
theorem accepts_lines_separated {path : Path} {t : Text} {rs : List Record} (ht : t.Ended)
    (h : Record.parse path t = .ok rs) :
    AcceptsTexts t.separated.lines ∧ (Layout.ofTexts t.separated.lines).current = [] ∧
      (Layout.ofTexts t.separated.lines).records path = rs := by
  obtain ⟨haccepts, hend, rfl⟩ := parse_eq_ok_iff.1 h
  have hcurrent : (Layout.ofTexts t.lines).current = [] ↔ t = [] ∨ t.lines.getLast? = some [] := by
    rw [Layout.current_ofTexts_eq_nil_iff, Text.lines_eq_nil_iff]
  by_cases hblank : t = [] ∨ t.lines.getLast? = some []
  · rw [Text.separated_of_blank hblank]
    exact ⟨haccepts, hcurrent.2 hblank, rfl⟩
  · -- The block in hand has lines. As the file may end here, the blank line may end it, too.
    have hfault : fault? (Layout.ofTexts t.lines).current .blank = none := by
      rw [fault?, if_neg (hcurrent.not.2 hblank), hend]
    have hlines : (t ++ ['\n']).lines = t.lines ++ [[]] := Text.lines_append ht ['\n']
    rw [Text.separated_of_not_blank hblank, hlines, Layout.acceptsTexts_concat,
      Layout.ofTexts_concat, Layout.records_add_blank rfl, Layout.add_blank rfl]
    exact ⟨⟨haccepts, hfault⟩, rfl, rfl⟩

end Record

/-- After a file that can be read and a blank line, an assembly has the records of the
file and nothing else. So what follows is read as at the beginning of a file, with other
labels. -/
theorem Assembly.feedLines_separated {path : Path} {t : Text} {rs : List Record}
    (ht : t.Ended) (h : Record.parse path t = .ok rs) :
    feedLines 0 t.separated.lines (start path) = .ok () { start path with closed := rs } := by
  obtain ⟨haccepts, hcurrent, hrecords⟩ := Record.accepts_lines_separated ht h
  have hrun := feedLines_of_accepts path .nil haccepts
  have hstart : start path = ofLayout path Layout.empty := rfl
  rw [hstart, hrun]
  show EStateM.Result.ok () (ofLayout path (Layout.ofTexts t.separated.lines)) = _
  -- No line is in hand, so the records of the layout are those of the ended blocks.
  have hclosed : (Layout.ofTexts t.separated.lines).ended.filterMap (Record.ofBlock? path)
      = rs := by
    rw [← hrecords, Layout.records, Layout.blocks, hcurrent, List.filterMap_append]
    exact (List.append_nil _).symm
  rw [ofLayout, hclosed, hcurrent]
  rfl

/-! ### The second file -/

/-- The record of a file that comes after a given number of lines. -/
def Record.moved (count : Nat) (r : Record) : Record :=
  { path := r.path
    line := r.line + count
    keys := r.keys.map fun k => ⟨k.line + count, k.item⟩
    properties := r.properties.map fun p => ⟨p.line + count, p.item⟩ }

/-- The labels of a file that comes after a given number of lines and the given records. -/
def Relabelling.after (count : Nat) (rs : List Record) : Relabelling :=
  { number := (· + count), earlier := rs }

/-- The rest of a file, from its first line that comes after a blank one, is read like a
file of its own, up to the numbers of its lines and the records before it. -/
theorem Relabelling.complete_after (count : Nat) (rs : List Record) (path : Path) (t : Text) :
    Assembly.complete count (t.lines.map Line.ofText) { Assembly.start path with closed := rs }
      = (after count rs).reading (Record.parse path t) := by
  have hnumber : ∀ i ≤ (t.lines.map Line.ofText).length,
      (after count rs).number (0 + i) = count + i := fun i _ => by
    rw [Nat.zero_add]
    exact Nat.add_comm i count
  have hrest := (after count rs).complete_assembly hnumber (.start path)
  rw [map_line_eq_self _ rfl, assembly_start, ← Record.parse_eq_complete] at hrest
  exact hrest

/-- A file that can be read, a blank line, and a second file. The records of the second one
follow those of the first, and its fault is the fault of the whole. The numbers of its lines
go on after those of the first. -/
theorem Record.parse_separated_append {path : Path} {s : Text} {rs : List Record}
    (hs : s.Ended) (h : Record.parse path s = .ok rs) (t : Text) :
    (s.separated ++ t).lines = s.separated.lines ++ t.lines ∧
      Record.parse path (s.separated ++ t)
        = match Record.parse path t with
          | .ok qs => .ok (rs ++ qs.map (Record.moved s.separated.lines.length))
          | .error e =>
              .error ⟨e.line + s.separated.lines.length, e.fault,
                e.completeRecords + rs.length⟩ := by
  have hlines := Text.lines_append hs.separated t
  refine ⟨hlines, ?_⟩
  -- The first file is read up to its blank line, and the second from a new assembly with
  -- the records of the first in front.
  rw [parse_eq_complete path (s.separated ++ t), hlines, List.map_append,
    Assembly.complete_append (Assembly.feedLines_separated hs h), Nat.zero_add,
    Relabelling.complete_after]
  cases Record.parse path t with
  | ok qs => rfl
  | error e => rfl

/-- A record that wants a blank line after it, before another record and before a fault. -/
theorem Record.parse_separated_append_record :
    ∃ (s t u : Text) (r q : Record), s = "#c\nlibinput:name:x\n F=1\r\n".toList ∧
      t = "libinput:name:y\n G=2".toList ∧ u = "\n".toList ∧
      r = ⟨⟨[97]⟩, 2, [⟨2, ⟨.libinput, .name, "x".toList⟩⟩],
        [⟨3, ⟨"F".toList, "1".toList, none⟩⟩]⟩ ∧
      q = ⟨⟨[97]⟩, 1, [⟨1, ⟨.libinput, .name, "y".toList⟩⟩],
        [⟨2, ⟨"G".toList, "2".toList, none⟩⟩]⟩ ∧
      s.Ended ∧ s.separated = s ++ ['\n'] ∧ s.separated.lines.length = 4 ∧
      Record.parse ⟨[97]⟩ s = .ok [r] ∧ Record.parse ⟨[97]⟩ t = .ok [q] ∧
      Record.parse ⟨[97]⟩ (s.separated ++ t) = .ok [r, q.moved 4] ∧
      Record.parse ⟨[97]⟩ u = .error ⟨1, .unexpectedBlank, 0⟩ ∧
      Record.parse ⟨[97]⟩ (s.separated ++ u) = .error ⟨5, .unexpectedBlank, 1⟩ := by
  refine ⟨_, _, _, _, _, rfl, rfl, rfl, rfl, rfl, ?_⟩
  have hs : Text.Ended "#c\nlibinput:name:x\n F=1\r\n".toList := Or.inr rfl
  have hread : Record.parse ⟨[97]⟩ "#c\nlibinput:name:x\n F=1\r\n".toList
      = .ok [⟨⟨[97]⟩, 2, [⟨2, ⟨.libinput, .name, "x".toList⟩⟩],
        [⟨3, ⟨"F".toList, "1".toList, none⟩⟩]⟩] := by decide +kernel
  refine ⟨hs, by decide +kernel, by decide +kernel, hread, by decide +kernel, ?_,
    by decide +kernel, ?_⟩
  · refine (parse_separated_append hs hread _).2.trans ?_
    decide +kernel
  · refine (parse_separated_append hs hread _).2.trans ?_
    decide +kernel

end Hwdb
